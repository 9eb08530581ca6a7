import Wine.Lib.SortedArray
import Wine.Server.Unicode
import Wine.Status

/-!
# Registry keys and their sorted arrays (`server/registry.c`)

A key keeps its subkeys and its values in arrays sorted by name, compared case-insensitively
by `memicmp_strW` and then by length; `find_subkey` and `find_value` search them, and
`key_link_name`, `key_unlink_name`, `rename_key`, `insert_value` and `delete_value` shift them
by hand. Keys are objects of the server: the model keeps them in a store indexed by their
address, a subkey array holds addresses, and a new key gets an address not used before. The
case map is a parameter. Reference counts, notifications, security descriptors and the WoW64
redirection of the lookup are not modelled; allocation is assumed to succeed.

The invariant of every key reachable by these operations, and what it gives the searches, are
proved in `Wine.Server.RegistryInv`.
-/

namespace Wine.Server

open SortedArray

set_option autoImplicit false

/-! ## The code -/

def keyVolatile : Nat := 0x0001
def keyDeleted : Nat := 0x0002
def keyDirty : Nat := 0x0004
def keySymlink : Nat := 0x0008
def keyPredef : Nat := 0x0020

def regOptionVolatile : Nat := 0x00000001
def regOptionCreateLink : Nat := 0x00000002
def regLink : Nat := 6

def minSubkeys : Nat := 8
def minValues : Nat := 8
def maxNameLen : Nat := 256
def maxValueLen : Nat := 16383

/-- The array `wow6432node`. -/
def wow6432nodeName : List Nat :=
  ['W'.toNat, 'o'.toNat, 'w'.toNat, '6'.toNat, '4'.toNat, '3'.toNat, '2'.toNat, 'N'.toNat,
    'o'.toNat, 'd'.toNat, 'e'.toNat]

/-- The array `symlink_value`. -/
def symlinkValue : List Nat :=
  ['S'.toNat, 'y'.toNat, 'm'.toNat, 'b'.toNat, 'o'.toNat, 'l'.toNat, 'i'.toNat, 'c'.toNat,
    'L'.toNat, 'i'.toNat, 'n'.toNat, 'k'.toNat, 'V'.toNat, 'a'.toNat, 'l'.toNat, 'u'.toNat,
    'e'.toNat]

/-- `struct key_value`: `namelen` is twice the length of `name`, `len` the length of `data`,
and `data` is `NULL` exactly when it is empty. -/
structure KeyValue where
  name : List Nat
  type : Nat
  data : List Nat
  deriving DecidableEq, Repr

/-- `struct key`, with `obj.name` as `name` and `parent`. -/
structure RegKey where
  name : List Nat
  parent : Option Nat
  «class» : Option (List Nat)
  classlen : Nat
  lastSubkey : Int
  nbSubkeys : Nat
  subkeys : Nat → Nat
  wow6432node : Option Nat
  lastValue : Int
  nbValues : Nat
  values : Nat → KeyValue
  flags : Nat
  modif : Nat

/-- The key objects by address, and the first address never handed out. -/
structure Registry where
  keys : Nat → Option RegKey
  next : Nat

def Registry.nameOf (reg : Registry) (k : Nat) : List Nat := ((reg.keys k).map RegKey.name).getD []

def Registry.setKey (reg : Registry) (k : Nat) (key : RegKey) : Registry :=
  { reg with keys := Function.update reg.keys k (some key) }

/-- The comparison of `find_subkey` and `find_value`: `memicmp_strW` over the common length,
then the lengths. -/
def compareName (toLower : Nat → Nat) (a b : List Nat) : Int :=
  if memicmpStrW toLower a b (min (2 * a.length) (2 * b.length)) ≠ 0 then
    memicmpStrW toLower a b (min (2 * a.length) (2 * b.length))
  else 2 * (a.length : Int) - 2 * b.length

/-- `get_path_element`: the length in bytes of the name up to its first backslash. -/
def getPathElement (name : List Nat) : Nat := 2 * (name.takeWhile (· ≠ '\\'.toNat)).length

def isWow6432node (toLower : Nat → Nat) (name : List Nat) : Bool :=
  getPathElement name = 2 * wow6432nodeName.length &&
    memicmpStrW toLower name wow6432nodeName (2 * wow6432nodeName.length) = 0

section Arrays

variable (toLower : Nat → Nat)

/-- `find_subkey`: the subkey of that name, and where the search ended. -/
def findSubkey (reg : Registry) (key : RegKey) (name : List Nat) : Option Nat × Int :=
  match search3 (fun i => compareName toLower (reg.nameOf (key.subkeys i)) name)
      (key.lastSubkey + 1).toNat 0 key.lastSubkey with
  | (some i, index) => (some (key.subkeys i), index)
  | (none, index) => (none, index)

/-- `find_value`: the index of the value of that name, and where the search ended. -/
def findValue (key : RegKey) (name : List Nat) : Option Nat × Int :=
  search3 (fun i => compareName toLower (key.values i).name name)
    (key.lastValue + 1).toNat 0 key.lastValue

/-- The new size of `grow_subkeys` and `grow_values`: half as much again, or the minimum. -/
def growCount (minCount nb : Nat) : Nat := if nb ≠ 0 then nb + nb / 2 else minCount

/-- The new size after a removal: a third less, not below the minimum, once less than half is
in use. -/
def shrinkCount (minCount nb : Nat) (last : Int) : Nat :=
  if minCount < nb ∧ last < (nb / 2 : Nat) then max minCount (nb - nb / 3) else nb

def growSubkeys (key : RegKey) : RegKey := { key with nbSubkeys := growCount minSubkeys key.nbSubkeys }

def growValues (key : RegKey) : RegKey := { key with nbValues := growCount minValues key.nbValues }

/-- `key_link_name`: `key` goes into the subkeys of `parent` at the index the search gives. -/
def keyLinkName (reg : Registry) (k p : Nat) : Option Registry := do
  let key ← reg.keys k
  let parentKey ← reg.keys p
  let parentKey :=
    if parentKey.lastSubkey + 1 = parentKey.nbSubkeys then growSubkeys parentKey else parentKey
  let index := (findSubkey toLower reg parentKey key.name).2.toNat
  let parentKey := { parentKey with
    lastSubkey := parentKey.lastSubkey + 1
    subkeys :=
      Function.update (shiftUp parentKey.subkeys index (parentKey.lastSubkey + 1).toNat) index k }
  let parentKey :=
    if isWow6432node toLower key.name && !isWow6432node toLower parentKey.name then
      { parentKey with wow6432node := some k }
    else parentKey
  some ((reg.setKey p parentKey).setKey k { key with parent := some p })

/-- `key_unlink_name`; `none` when the `assert` that the key is among its parent's subkeys
fails. -/
def keyUnlinkName (reg : Registry) (k : Nat) : Option Registry := do
  let key ← reg.keys k
  match key.parent with
  | none => some reg
  | some p =>
    let parentKey ← reg.keys p
    let i := indexOf parentKey.subkeys k (parentKey.lastSubkey + 1).toNat 0
    if parentKey.lastSubkey < i then none
    else
      let last := parentKey.lastSubkey.toNat
      let parentKey := { parentKey with
        subkeys := shiftDown parentKey.subkeys last (last - i) i
        lastSubkey := parentKey.lastSubkey - 1 }
      let parentKey :=
        if parentKey.wow6432node = some k then { parentKey with wow6432node := none } else parentKey
      let parentKey := { parentKey with
        nbSubkeys := shrinkCount minSubkeys parentKey.nbSubkeys parentKey.lastSubkey }
      some ((reg.setKey p parentKey).setKey k { key with parent := none })

/-- `make_dirty`: `KEY_DIRTY` on the key and its parents, up to one that is dirty or volatile.
Every pass makes a key dirty that was not, so one pass per key ever allocated is enough. -/
def makeDirty (reg : Registry) : Nat → Nat → Registry
  | 0, _ => reg
  | fuel + 1, k =>
    match reg.keys k with
    | none => reg
    | some key =>
      if key.flags &&& (keyDirty ||| keyVolatile) ≠ 0 then reg
      else
        match key.parent with
        | none => reg.setKey k { key with flags := key.flags ||| keyDirty }
        | some p => makeDirty (reg.setKey k { key with flags := key.flags ||| keyDirty }) fuel p

/-- `touch_key`, without the notifications. -/
def touchKey (reg : Registry) (k : Nat) (now : Nat) : Registry :=
  match reg.keys k with
  | none => reg
  | some key => makeDirty (reg.setKey k { key with modif := now }) (reg.next + 1) k

/-- A key object as `create_key_object` initialises it. -/
def RegKey.init (name : List Nat) (modif : Nat) : RegKey where
  name := name
  parent := none
  «class» := none
  classlen := 0
  lastSubkey := -1
  nbSubkeys := 0
  subkeys := fun _ => 0
  wow6432node := none
  lastValue := -1
  nbValues := 0
  values := fun _ => ⟨[], 0, []⟩
  flags := 0
  modif := modif

/-- `create_key_object` for a name of one path element under the key `p`, through the lookup of
`create_named_object`: the key, and whether it existed (`STATUS_OBJECT_NAME_EXISTS`). The state
is returned with the error too: a key that must be volatile has been linked and unlinked. -/
def createKeyObject (reg : Registry) (p : Nat) (name : List Nat) (openif : Bool) (options : Nat)
    (modif : Nat) : Registry × Except NtStatus (Nat × Bool) :=
  match reg.keys p with
  | none => (reg, .error .objectNameNotFound)
  | some parentKey =>
    if name = [] then (reg, .ok (p, true))
    else if 2 * maxNameLen < getPathElement name then (reg, .error .invalidParameter)
    else
      match findSubkey toLower reg parentKey name with
      | (some found, _) =>
        if openif then (reg, .ok (found, true)) else (reg, .error .objectNameCollision)
      | (none, _) =>
        let k := reg.next
        let reg := { keys := Function.update reg.keys k (some (RegKey.init name modif)),
                     next := reg.next + 1 : Registry }
        match keyLinkName toLower reg k p with
        | none => (reg, .error .objectNameNotFound)
        | some reg =>
          match reg.keys k with
          | none => (reg, .error .objectNameNotFound)
          | some key =>
            let flags := if options &&& regOptionCreateLink ≠ 0 then keySymlink else 0
            if options &&& regOptionVolatile ≠ 0 then
              (reg.setKey k { key with flags := flags ||| keyVolatile }, .ok (k, false))
            else if parentKey.flags &&& keyVolatile ≠ 0 then
              -- `STATUS_CHILD_MUST_BE_VOLATILE`: the key is unlinked again
              match keyUnlinkName reg k with
              | none => (reg, .error .childMustBeVolatile)
              | some reg => (reg, .error .childMustBeVolatile)
            else (reg.setKey k { key with flags := flags ||| keyDirty }, .ok (k, false))

/-- One pass of the loop of `delete_key` over the subkeys of `k`: `del` deletes the last subkey,
and the loop stops at the first error. -/
def deleteLastSubkey (del : Registry → Nat → Registry × Except NtStatus Unit) (k : Nat) :
    Registry × Except NtStatus Unit → Registry × Except NtStatus Unit
  | (reg, .error e) => (reg, .error e)
  | (reg, .ok ()) =>
    match reg.keys k with
    | some key =>
      if 0 ≤ key.lastSubkey then del reg (key.subkeys key.lastSubkey.toNat) else (reg, .ok ())
    | none => (reg, .ok ())

/-- `delete_key`; `fuel` bounds the depth of the recursion over the subkeys. The loop
`while (key->last_subkey >= 0)` deletes the last subkey in every pass, so it makes one pass per
subkey. The state is returned with the error too: the subkeys deleted before it stay deleted. -/
def deleteKey : Nat → Registry → Nat → Bool → Nat → Registry × Except NtStatus Unit
  | 0, reg, _, _, _ => (reg, .error .insufficientResources)
  | fuel + 1, reg, k, recurse, now =>
    match reg.keys k with
    | none => (reg, .error .invalidHandle)
    | some key =>
      if key.flags &&& keyDeleted ≠ 0 then (reg, .ok ())
      else
        match key.parent with
        | none => (reg, .error .accessDenied)
        | some p =>
          if key.flags &&& keyPredef ≠ 0 then (reg, .error .invalidHandle)
          else
            let subkeysDeleted : Registry × Except NtStatus Unit :=
              if recurse then
                (List.range (key.lastSubkey + 1).toNat).foldl
                  (fun acc _ => deleteLastSubkey (fun reg c => deleteKey fuel reg c true now) k acc)
                  (reg, .ok ())
              else if 0 ≤ key.lastSubkey then (reg, .error .accessDenied)
              else (reg, .ok ())
            match subkeysDeleted with
            | (reg, .error e) => (reg, .error e)
            | (reg, .ok ()) =>
              match reg.keys k with
              | none => (reg, .error .invalidHandle)
              | some key =>
                match keyUnlinkName (reg.setKey k { key with flags := key.flags ||| keyDeleted }) k with
                | none => (reg, .error .invalidHandle)
                | some reg => (touchKey reg p now, .ok ())

/-- `rename_key`. -/
def renameKey (reg : Registry) (k : Nat) (newName : List Nat) (now : Nat) :
    Except NtStatus Registry := do
  let some key := reg.keys k | throw .invalidHandle
  let len := getPathElement newName
  if len = 0 ∨ len ≠ 2 * newName.length ∨ 2 * maxNameLen < len then throw .invalidParameter
  let some p := key.parent | throw .cannotDelete
  let some parentKey := reg.keys p | throw .cannotDelete
  match findSubkey toLower reg parentKey newName with
  | (some _, _) => throw .cannotDelete
  | (none, index) =>
    if parentKey.wow6432node = some k ∨ isWow6432node toLower newName = true then
      throw .invalidParameter
    let curIndex := indexOf parentKey.subkeys k (parentKey.lastSubkey + 1).toNat 0
    let index := index.toNat
    -- the key moves from `cur_index` to the index the search gave, less one if that was after it
    let subkeys :=
      if curIndex < index then
        Function.update (shiftDown parentKey.subkeys (index - 1) (index - 1 - curIndex) curIndex)
          (index - 1) k
      else if index < curIndex then Function.update (shiftUp parentKey.subkeys index curIndex) index k
      else Function.update parentKey.subkeys index k
    let reg := (reg.setKey p { parentKey with subkeys := subkeys }).setKey k { key with name := newName }
    return touchKey reg k now

/-- `insert_value` at the index `find_value` gave: a value with no data. -/
def insertValue (key : RegKey) (name : List Nat) (index : Nat) : Except NtStatus RegKey := do
  if 2 * maxValueLen < 2 * name.length then throw .nameTooLong
  let key := if key.lastValue + 1 = key.nbValues then growValues key else key
  return { key with
    lastValue := key.lastValue + 1
    values := Function.update (shiftUp key.values index (key.lastValue + 1).toNat) index
      ⟨name, (key.values index).type, []⟩ }

/-- The value `name` as `set_value` and `parse_value_name` reach it: the one `find_value` found,
or one `insert_value` makes where the search ended. -/
def valueSlot (key : RegKey) (found : Option Nat × Int) (name : List Nat) :
    Except NtStatus (RegKey × Nat) :=
  match found with
  | (some i, _) => pure (key, i)
  | (none, index) => do
    let key ← insertValue key name index.toNat
    pure (key, index.toNat)

/-- `value->type` and `value->data` of the value at `i`. -/
def RegKey.setValueData (key : RegKey) (i type : Nat) (data : List Nat) : RegKey :=
  { key with values := Function.update key.values i { key.values i with type, data } }

/-- `set_value`. -/
def setValue (reg : Registry) (k : Nat) (name : List Nat) (type : Nat) (data : List Nat)
    (now : Nat) : Except NtStatus Registry := do
  let some key := reg.keys k | throw .invalidHandle
  if key.flags &&& keyPredef ≠ 0 then throw .invalidHandle
  let found := findValue toLower key name
  -- an identical value is left alone
  if let (some i, _) := found then
    if (key.values i).type = type ∧ (key.values i).data ≠ [] ∧ (key.values i).data = data then
      return reg
  if key.flags &&& keySymlink ≠ 0 then
    if type ≠ regLink ∨ 2 * name.length ≠ 2 * symlinkValue.length ∨
        memicmpStrW toLower name symlinkValue (2 * name.length) ≠ 0 then
      throw .accessDenied
  let (key, i) ← valueSlot key found name
  return touchKey (reg.setKey k (key.setValueData i type data)) k now

/-- `delete_value`. -/
def deleteValue (reg : Registry) (k : Nat) (name : List Nat) (now : Nat) :
    Except NtStatus Registry := do
  let some key := reg.keys k | throw .invalidHandle
  if key.flags &&& keyPredef ≠ 0 then throw .invalidHandle
  let (some index, _) := findValue toLower key name | throw .objectNameNotFound
  let last := key.lastValue.toNat
  let key := { key with
    values := shiftDown key.values last (last - index) index
    lastValue := key.lastValue - 1 }
  let key := { key with nbValues := shrinkCount minValues key.nbValues key.lastValue }
  return touchKey (reg.setKey k key) k now

/-- The value `parse_value_name` finds or inserts for `load_value`, and what `load_value` then
stores in it: the data read, or no data and type `REG_NONE` when the line is malformed. -/
def loadValueData (key : RegKey) (name : List Nat) (type : Nat) (data : List Nat) :
    Except NtStatus RegKey := do
  let (key, i) ← valueSlot key (findValue toLower key name) name
  return key.setValueData i type data

end Arrays

/-! ## The order of names -/

/-- The order of names the arrays are kept in: lexicographic through the case map. -/
def NameLt (toLower : Nat → Nat) (a b : List Nat) : Prop := a.map toLower < b.map toLower

section Order

variable {toLower : Nat → Nat}

theorem compareName_nil_left (b : List Nat) : compareName toLower [] b = -(2 * b.length : Int) := by
  simp [compareName, memicmpStrW, memicmpLoop]

theorem compareName_nil_right (a : List Nat) : compareName toLower a [] = 2 * a.length := by
  cases a <;> simp [compareName, memicmpStrW, memicmpLoop]

theorem compareName_cons (a b : Nat) (as bs : List Nat) :
    compareName toLower (a :: as) (b :: bs) =
      if (toLower a : Int) - toLower b ≠ 0 then (toLower a : Int) - toLower b
      else compareName toLower as bs := by
  have hmin : min (2 * (as.length + 1)) (2 * (bs.length + 1)) / 2 =
      min (2 * as.length) (2 * bs.length) / 2 + 1 := by omega
  unfold compareName memicmpStrW
  rw [List.length_cons, List.length_cons, hmin, memicmpLoop]
  by_cases hd : (toLower a : Int) - toLower b ≠ 0
  · rw [if_pos hd, if_pos hd, if_pos hd]
  · rw [if_neg hd, if_neg hd]
    simp only [Nat.cast_add, Nat.cast_one]
    split_ifs <;> omega

/-- The sign of `compareName` is the order of the names through the case map. -/
theorem compareName_spec :
    ∀ a b : List Nat, (compareName toLower a b < 0 ↔ NameLt toLower a b) ∧
      (compareName toLower a b = 0 ↔ a.map toLower = b.map toLower) := by
  intro a
  induction a with
  | nil =>
    intro b
    cases b with
    | nil => simp [compareName_nil_left, NameLt]
    | cons y bs =>
      rw [compareName_nil_left]
      simp only [NameLt, List.map_nil, List.map_cons, List.length_cons]
      exact ⟨⟨fun _ => List.nil_lt_cons _ _, fun _ => by omega⟩, ⟨fun h => by omega, fun h => by simp at h⟩⟩
  | cons x as ih =>
    intro b
    cases b with
    | nil =>
      rw [compareName_nil_right]
      simp only [NameLt, List.map_nil, List.map_cons, List.length_cons]
      exact ⟨⟨fun h => by omega, fun h => absurd h (List.not_lt_nil _)⟩, ⟨fun h => by omega, fun h => by simp at h⟩⟩
    | cons y bs =>
      rw [compareName_cons]
      simp only [NameLt, List.map_cons, List.cons_lt_cons_iff, List.cons.injEq]
      by_cases hd : (toLower x : Int) - toLower y ≠ 0
      · rw [if_pos hd]
        have hne : toLower x ≠ toLower y := by omega
        constructor
        · constructor
          · intro h
            exact Or.inl (by omega)
          · rintro (h | ⟨h, _⟩)
            · omega
            · exact absurd h hne
        · exact ⟨fun h => absurd h hd, fun h => absurd h.1 hne⟩
      · rw [if_neg hd]
        have heq : toLower x = toLower y := by omega
        obtain ⟨hlt, hzero⟩ := ih bs
        rw [hlt, hzero]
        constructor
        · exact ⟨fun h => Or.inr ⟨heq, h⟩, fun h => h.elim (fun h => absurd heq (by omega)) And.right⟩
        · exact ⟨fun h => ⟨heq, h⟩, And.right⟩

theorem compareName_neg_iff (a b : List Nat) : compareName toLower a b < 0 ↔ NameLt toLower a b :=
  (compareName_spec a b).1

theorem compareName_eq_zero_iff (a b : List Nat) :
    compareName toLower a b = 0 ↔ a.map toLower = b.map toLower :=
  (compareName_spec a b).2

theorem compareName_pos_iff (a b : List Nat) : 0 < compareName toLower a b ↔ NameLt toLower b a := by
  have hlt : compareName toLower a b < 0 ↔ NameLt toLower a b := compareName_neg_iff a b
  have heq : compareName toLower a b = 0 ↔ a.map toLower = b.map toLower :=
    compareName_eq_zero_iff a b
  unfold NameLt at hlt ⊢
  constructor
  · intro h
    rcases lt_trichotomy (b.map toLower) (a.map toLower) with h1 | h1 | h1
    · exact h1
    · exact absurd (heq.mpr h1.symm) (by omega)
    · exact absurd (hlt.mpr h1) (by omega)
  · intro h
    have h1 : ¬compareName toLower a b < 0 := fun h2 => lt_asymm h (hlt.mp h2)
    have h2 : ¬compareName toLower a b = 0 := fun h2 => (ne_of_gt h) (heq.mp h2)
    omega

theorem NameLt.trans {a b c : List Nat} (h1 : NameLt toLower a b) (h2 : NameLt toLower b c) :
    NameLt toLower a c := lt_trans h1 h2

theorem NameLt.irrefl (a : List Nat) : ¬NameLt toLower a a := lt_irrefl _

end Order

end Wine.Server
