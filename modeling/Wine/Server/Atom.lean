import Wine.Status
import Wine.Server.Unicode
import Wine.Lib.DList
import Wine.Lib.RefTable

/-!
# Atom tables (`server/atom.c`)

An atom table keeps each string atom twice: in the slot `atoms[atom - MIN_STR_ATOM]`, and in
the hash chain of its name, a doubly linked list through the entries. Names are compared without
case through `to_lower`, whose case map the server loads at start-up and which is a parameter
here as in `Wine.Server.Unicode`. An entry is named by its slot: the `next` and `prev` pointers
of the chains are slot numbers, and `atoms` is a heap of `DList` nodes. `data_size_t` lengths
are twice the number of characters of a name, the `int` reference count is kept as its 32 bits,
so that `count++` past the top goes round as in the compiled code, and `mem_alloc` does not fail.

`Inv` is what every table reached from `create_atom_table` satisfies: both indices hold the
same entries, each entry has the atom of its slot and the hash of its name, and no two names are
equal. Over it, `view` reads the table as a reference-counted table of names (`RefTable`), and
each call changes the view as the matching `RefTable` operation does.
-/

namespace Wine.Server.Atom

open DList

set_option autoImplicit false

def hashSize : Nat := 37
def minStrAtom : Nat := 0xc000
def maxAtoms : Nat := 0x4000
/-- `MAX_ATOM_LEN`, in characters. -/
def maxAtomLen : Nat := 255
def maxIntAtom : Nat := 0xc000

/-! ## The code -/

/-- The loop of `get_int_atom_value` over what follows the `#`. -/
def intAtomLoop : List Nat → Nat → Nat
  | [], ret => ret
  | c :: rest, ret =>
    if c < '0'.toNat ∨ c > '9'.toNat then 0
    else if ret * 10 + c - '0'.toNat ≥ maxIntAtom then 0
    else intAtomLoop rest (ret * 10 + c - '0'.toNat)

/-- `get_int_atom_value`: the integer atom of a name `#nnn`, or 0. -/
def getIntAtomValue : List Nat → Nat
  | c :: rest => if c ≠ '#'.toNat then 0 else intAtomLoop rest 0
  | [] => 0

/-- What an entry holds beside its chain pointers (`struct atom_entry`); its `len` is twice the
length of `str`. -/
structure AtomData where
  count : UInt32
  atom : Nat
  hash : Nat
  str : List Nat
deriving DecidableEq, Repr

/-- `struct atom_table`: the entries by slot, and the heads of the hash chains. -/
structure AtomTable where
  count : Nat
  atoms : Nat → Option (Node AtomData)
  entries : Nat → Option Nat

/-- `create_atom_table`: slot 0, atom `0xc000`, is reserved. -/
def createAtomTable : AtomTable := ⟨1, fun _ => none, fun _ => none⟩

/-- `entry->count = count` for the entry of slot `i`. -/
def AtomTable.setCount (table : AtomTable) (i : Nat) (entry : Node AtomData) (count : UInt32) :
    AtomTable :=
  { table with atoms := Function.update table.atoms i (some { entry with val := { entry.val with count } }) }

/-- `get_atom_entry`: the slot of an atom, and its entry. -/
def getAtomEntry (table : AtomTable) (atom : Nat) : Except NtStatus (Nat × Node AtomData) :=
  if minStrAtom ≤ atom ∧ atom < minStrAtom + table.count then
    match table.atoms (atom - minStrAtom) with
    | some entry => .ok (atom - minStrAtom, entry)
    | none => .error .invalidHandle
  else .error .invalidHandle

/-- The loop of `add_atom_entry`: the first free slot of the `n` from `i`, or the one after them. -/
def firstFree (atoms : Nat → Option (Node AtomData)) : Nat → Nat → Nat
  | i, 0 => i
  | i, n + 1 => if (atoms i).isNone then i else firstFree atoms (i + 1) n

/-- `add_atom_entry`: `entry` in the lowest free slot from 1 on, and its atom; `none` for the
0 it returns when all `MAX_ATOMS` slots are used. -/
def addAtomEntry (table : AtomTable) (entry : Node AtomData) : Option (AtomTable × Nat) :=
  let i := firstFree table.atoms 1 (table.count - 1)
  if i = maxAtoms then none
  else
    let count := if i = table.count then table.count + 1 else table.count
    some ({ table with
      count
      atoms := Function.update table.atoms i
        (some { entry with val := { entry.val with atom := i + minStrAtom } }) }, i + minStrAtom)

section Calls

variable (toLower : Nat → Nat)

/-- `find_atom_entry`: the entry of `str` in the chain of `hash`, by its length and then by
`memicmp_strW`. The walk looks at `MAX_ATOMS` entries at most, which no chain of distinct slots
exceeds. -/
def findAtomEntry (table : AtomTable) (str : List Nat) (hash : Nat) : Option (Nat × Node AtomData) :=
  DList.find table.atoms
    (fun e => 2 * e.str.length == 2 * str.length && memicmpStrW toLower e.str str (2 * str.length) == 0)
    maxAtoms (table.entries hash)

/-- `add_atom`: the table, and the atom or the error it sets. -/
def addAtom (table : AtomTable) (str : List Nat) : AtomTable × Except NtStatus Nat :=
  if str.length = 0 then (table, .error .objectNameInvalid)
  else if 2 * str.length > maxAtomLen * 2 then (table, .error .invalidParameter)
  else if getIntAtomValue str ≠ 0 then (table, .ok (getIntAtomValue str))
  else
    let hash := hashStrW toLower str (2 * str.length) hashSize
    match findAtomEntry toLower table str hash with
    | some (i, entry) => (table.setCount i entry (entry.val.count + 1), .ok entry.val.atom)
    | none =>
      let entry : Node AtomData := ⟨table.entries hash, none, ⟨1, 0, hash, str⟩⟩
      match addAtomEntry table entry with
      | some (table, atom) =>
        -- the new entry is the head of its chain, and the old head points back to it
        ({ table with
          atoms := setPrevAt table.atoms entry.next (some (atom - minStrAtom))
          entries := Function.update table.entries hash (some (atom - minStrAtom)) }, .ok atom)
      | none => (table, .error .noMemory)

/-- `delete_atom`: the table, and the error it sets. -/
def deleteAtom (table : AtomTable) (atom : Nat) : AtomTable × Option NtStatus :=
  match getAtomEntry table atom with
  | .error e => (table, some e)
  | .ok (i, entry) =>
    if entry.val.count - 1 = 0 then
      let atoms := setPrevAt table.atoms entry.next entry.prev
      match entry.prev with
      | some k => ({ table with atoms := Function.update (setNextAt atoms (some k) entry.next) i none }, none)
      | none =>
        ({ table with
          atoms := Function.update atoms i none
          entries := Function.update table.entries entry.val.hash entry.next }, none)
    else (table.setCount i entry (entry.val.count - 1), none)

/-- `find_atom`: the atom, or the error it sets. -/
def findAtom (table : AtomTable) (str : List Nat) : Except NtStatus Nat :=
  if str.length = 0 then .error .objectNameInvalid
  else if 2 * str.length > maxAtomLen * 2 then .error .invalidParameter
  else if getIntAtomValue str ≠ 0 then .ok (getIntAtomValue str)
  else
    match findAtomEntry toLower table str (hashStrW toLower str (2 * str.length) hashSize) with
    | some (_, entry) => .ok entry.val.atom
    | none => .error .objectNameNotFound

/-- `grab_atom`: the table, and the atom or the error it sets. -/
def grabAtom (table : AtomTable) (atom : Nat) : AtomTable × Except NtStatus Nat :=
  if minStrAtom ≤ atom then
    match getAtomEntry table atom with
    | .error e => (table, .error e)
    | .ok (i, entry) => (table.setCount i entry (entry.val.count + 1), .ok atom)
  else (table, .ok atom)

/-- The calls of the atom requests on a table. -/
inductive Call where
  | add (str : List Nat)
  | delete (atom : Nat)
  | grab (atom : Nat)
  | find (str : List Nat)

def Call.apply (table : AtomTable) : Call → AtomTable
  | .add str => (addAtom toLower table str).1
  | .delete atom => (deleteAtom table atom).1
  | .grab atom => (grabAtom table atom).1
  | .find _ => table

def runCalls (table : AtomTable) (calls : List Call) : AtomTable :=
  calls.foldl (Call.apply toLower) table

end Calls

/-! ## Names -/

section Names

variable (toLower : Nat → Nat)

/-- Names are equal when they are equal once lowered. -/
def key (str : List Nat) : List Nat := str.map toLower

/-- The hash `add_atom` and `find_atom` take of a name. -/
def nameHash (str : List Nat) : Nat := hashStrW toLower str (2 * str.length) hashSize

/-- The names a table keeps: not empty, not too long, and not of an integer atom. -/
def ValidName (str : List Nat) : Prop :=
  0 < str.length ∧ str.length ≤ maxAtomLen ∧ getIntAtomValue str = 0

instance : DecidablePred ValidName := fun _ => inferInstanceAs (Decidable (_ ∧ _ ∧ _))

variable {toLower}

theorem nameTest_iff (v : AtomData) (str : List Nat) :
    (2 * v.str.length == 2 * str.length && memicmpStrW toLower v.str str (2 * str.length) == 0) = true ↔
      key toLower v.str = key toLower str := by
  rw [Bool.and_eq_true, beq_iff_eq, beq_iff_eq, memicmpStrW, show 2 * str.length / 2 = str.length by omega]
  constructor
  · rintro ⟨hlen, hcmp⟩
    have hlen' : v.str.length = str.length := by omega
    rw [← hlen'] at hcmp
    exact (memicmpLoop_eq_zero_iff toLower hlen').mp hcmp
  · intro hk
    have hlen' : v.str.length = str.length := by simpa [key] using congrArg List.length hk
    refine ⟨by rw [hlen'], ?_⟩
    rw [← hlen']
    exact (memicmpLoop_eq_zero_iff toLower hlen').mpr hk

theorem nameHash_eq (str : List Nat) :
    nameHash toLower str = (key toLower str).foldl (fun hash c => (hash * 65599 + c) % 2 ^ 32) 0 % hashSize := by
  rw [nameHash, hashStrW_eq, key]

theorem nameHash_of_key {s₁ s₂ : List Nat} (h : key toLower s₁ = key toLower s₂) :
    nameHash toLower s₁ = nameHash toLower s₂ := by
  rw [nameHash_eq, nameHash_eq, h]

end Names

/-! ## The invariant -/

/-- The name and the count of each slot: the table as a reference-counted table of names. -/
def view (table : AtomTable) : Nat → Option (List Nat × Nat) :=
  fun i => (table.atoms i).map fun e => (e.val.str, e.val.count.toNat)

theorem view_eq_some {table : AtomTable} {i : Nat} {p : List Nat × Nat} :
    view table i = some p ↔ ∃ e, table.atoms i = some e ∧ (e.val.str, e.val.count.toNat) = p :=
  Option.map_eq_some_iff

theorem view_of_atoms {table : AtomTable} {i : Nat} {e : Node AtomData} (h : table.atoms i = some e) :
    view table i = some (e.val.str, e.val.count.toNat) := by
  rw [view, h]
  rfl

theorem toNat_count_succ (c : UInt32) : (c + 1).toNat = (c.toNat + 1) % 2 ^ 32 := by
  rw [UInt32.toNat_add]
  rfl

theorem toNat_count_pred (c : UInt32) : (c - 1).toNat = (c.toNat + 2 ^ 32 - 1) % 2 ^ 32 := by
  rw [UInt32.toNat_sub, UInt32.toNat_one]
  have := c.toNat_lt
  omega

theorem count_pred_eq_zero_iff (c : UInt32) : c - 1 = 0 ↔ c.toNat = 1 := by
  rw [← UInt32.toNat_inj, toNat_count_pred, UInt32.toNat_zero]
  have := c.toNat_lt
  omega

section Inv

variable (toLower : Nat → Nat)

/-- What every table reached by the calls satisfies. The chain of each hash holds exactly the
entries of that hash, so that the chains and `atoms[]` index the same entries. -/
structure Inv (table : AtomTable) : Prop where
  wf : RefTable.WF (key toLower) 1 maxAtoms (view table)
  count_pos : 0 < table.count
  count_le : table.count ≤ maxAtoms
  above : ∀ i, table.count ≤ i → table.atoms i = none
  entry : ∀ i e, table.atoms i = some e →
    e.val.atom = i + minStrAtom ∧ e.val.hash = nameHash toLower e.val.str
  chains : ∀ h, ∃ l, IsChain table.atoms none (table.entries h) l ∧ l.Nodup ∧
    ∀ i, i ∈ l ↔ (table.atoms i).map (fun e => e.val.hash) = some h

theorem createAtomTable_inv : Inv toLower createAtomTable where
  wf := ⟨fun _ _ h => by simp [view, createAtomTable] at h, fun _ _ _ _ h => by simp [view, createAtomTable] at h⟩
  count_pos := Nat.one_pos
  count_le := by decide
  above := fun _ _ => rfl
  entry := fun _ _ h => nomatch h
  chains := fun _ => ⟨[], rfl, List.nodup_nil, fun i => by simp [createAtomTable]⟩

variable {toLower} {t : AtomTable}

theorem Inv.lt_count (hinv : Inv toLower t) {i : Nat} {e : Node AtomData} (hi : t.atoms i = some e) :
    i < t.count := by
  by_contra hle
  rw [hinv.above i (Nat.le_of_not_lt hle)] at hi
  cases hi

theorem Inv.length_le (hinv : Inv toLower t) {h : Nat} {l : List Nat}
    (hl : IsChain t.atoms none (t.entries h) l) (hnd : l.Nodup) : l.length ≤ maxAtoms := by
  have hsub : l ⊆ List.range t.count := fun i hi => by
    obtain ⟨e, he⟩ := Option.isSome_iff_exists.mp (hl.isSome_of_mem hi)
    exact List.mem_range.mpr (hinv.lt_count he)
  calc l.length ≤ (List.range t.count).length := (hnd.subperm hsub).length_le
    _ = t.count := List.length_range
    _ ≤ maxAtoms := hinv.count_le

end Inv

/-! ## Finding a name -/

section Find

variable {toLower : Nat → Nat} {t : AtomTable} {str : List Nat}

theorem findAtomEntry_of_live (hinv : Inv toLower t) {i : Nat} {e : Node AtomData}
    (hi : t.atoms i = some e) (hk : key toLower e.val.str = key toLower str) :
    findAtomEntry toLower t str (nameHash toLower str) = some (i, e) := by
  have hhash : e.val.hash = nameHash toLower str := (hinv.entry i e hi).2.trans (nameHash_of_key hk)
  obtain ⟨l, hl, hnd, hmem⟩ := hinv.chains (nameHash toLower str)
  have hil : i ∈ l := (hmem i).mpr (by rw [hi, ← hhash]; rfl)
  cases hf : findAtomEntry toLower t str (nameHash toLower str) with
  | none =>
    have htest := hl.find_none (hinv.length_le hl hnd) hf i hil e hi
    rw [(nameTest_iff e.val str).mpr hk] at htest
    cases htest
  | some r =>
    obtain ⟨j, a⟩ := r
    obtain ⟨-, hj, htest⟩ := hl.find_some hf
    have hka := (nameTest_iff a.val str).mp htest
    have hji : j = i :=
      hinv.wf.unique j i _ _ (view_of_atoms hj) (view_of_atoms hi) (hka.trans hk.symm)
    subst hji
    rw [hj] at hi
    cases hi
    rfl

theorem findAtomEntry_of_none (hinv : Inv toLower t)
    (hnone : ∀ i e, t.atoms i = some e → key toLower e.val.str ≠ key toLower str) :
    findAtomEntry toLower t str (nameHash toLower str) = none := by
  obtain ⟨l, hl, -, -⟩ := hinv.chains (nameHash toLower str)
  cases hf : findAtomEntry toLower t str (nameHash toLower str) with
  | none => rfl
  | some r =>
    obtain ⟨j, a⟩ := r
    obtain ⟨-, hj, htest⟩ := hl.find_some hf
    exact absurd ((nameTest_iff a.val str).mp htest) (hnone j a hj)

theorem ValidName.guards (h : ValidName str) :
    ¬ str.length = 0 ∧ ¬ 2 * str.length > maxAtomLen * 2 ∧ ¬ getIntAtomValue str ≠ 0 := by
  obtain ⟨hpos, hlen, hint⟩ := h
  exact ⟨by omega, by omega, not_not.mpr hint⟩

theorem findAtom_of_live (hinv : Inv toLower t) (hname : ValidName str) {i : Nat} {e : Node AtomData}
    (hi : t.atoms i = some e) (hk : key toLower e.val.str = key toLower str) :
    findAtom toLower t str = .ok (i + minStrAtom) := by
  obtain ⟨h₁, h₂, h₃⟩ := hname.guards
  rw [findAtom, if_neg h₁, if_neg h₂, if_neg h₃]
  show (match findAtomEntry toLower t str (nameHash toLower str) with
    | some (_, entry) => Except.ok entry.val.atom
    | none => (Except.error NtStatus.objectNameNotFound : Except NtStatus Nat)) = _
  rw [findAtomEntry_of_live hinv hi hk]
  dsimp only
  rw [(hinv.entry i e hi).1]

theorem findAtom_of_none (hinv : Inv toLower t) (hname : ValidName str)
    (hnone : ∀ i e, t.atoms i = some e → key toLower e.val.str ≠ key toLower str) :
    findAtom toLower t str = .error .objectNameNotFound := by
  obtain ⟨h₁, h₂, h₃⟩ := hname.guards
  rw [findAtom, if_neg h₁, if_neg h₂, if_neg h₃]
  show (match findAtomEntry toLower t str (nameHash toLower str) with
    | some (_, entry) => Except.ok entry.val.atom
    | none => (Except.error NtStatus.objectNameNotFound : Except NtStatus Nat)) = _
  rw [findAtomEntry_of_none hinv hnone]

end Find

/-! ## The writes of the calls

Each write the calls make is a function of the table here, with the invariant it keeps and the
view it leaves: a new count for an entry, a new name at the head of its chain, and an entry
unlinked from its chain and freed. -/

section Writes

variable {toLower : Nat → Nat} {t : AtomTable} {i : Nat} {e : Node AtomData}

theorem map_setCount {γ : Type} (f : AtomData → γ) (hf : ∀ v c, f { v with count := c } = f v)
    (hi : t.atoms i = some e) (c : UInt32) (x : Nat) :
    ((t.setCount i e c).atoms x).map (fun e => f e.val) = (t.atoms x).map fun e => f e.val := by
  by_cases hx : x = i
  · subst hx
    simp [AtomTable.setCount, hi, hf]
  · simp [AtomTable.setCount, Function.update_of_ne hx]

theorem view_setCount (c : UInt32) :
    view (t.setCount i e c) = Function.update (view t) i (some (e.val.str, c.toNat)) := by
  funext x
  by_cases hx : x = i
  · subst hx
    simp [view, AtomTable.setCount]
  · simp [view, AtomTable.setCount, Function.update_of_ne hx]

theorem entry_of_map {t' : AtomTable} (hinv : Inv toLower t) {x : Nat} {e' : Node AtomData}
    (hsame : (t'.atoms x).map (fun e => (e.val.atom, e.val.hash, e.val.str)) =
      (t.atoms x).map fun e => (e.val.atom, e.val.hash, e.val.str))
    (hx : t'.atoms x = some e') :
    e'.val.atom = x + minStrAtom ∧ e'.val.hash = nameHash toLower e'.val.str := by
  rw [hx] at hsame
  obtain ⟨e₀, he₀, heq⟩ := Option.map_eq_some_iff.mp hsame.symm
  obtain ⟨hatom, hhash, hstr⟩ : e₀.val.atom = e'.val.atom ∧ e₀.val.hash = e'.val.hash ∧
      e₀.val.str = e'.val.str := by simpa using heq
  rw [← hatom, ← hhash, ← hstr]
  exact hinv.entry x e₀ he₀

theorem Inv.setCount (hinv : Inv toLower t) (hi : t.atoms i = some e) {c : UInt32}
    (hwf : RefTable.WF (key toLower) 1 maxAtoms (Function.update (view t) i (some (e.val.str, c.toNat)))) :
    Inv toLower (t.setCount i e c) := by
  refine ⟨(view_setCount c).symm ▸ hwf, hinv.count_pos, hinv.count_le, fun x hx => ?_,
    fun x e' hx => entry_of_map hinv (map_setCount (fun v => (v.atom, v.hash, v.str)) (fun _ _ => rfl) hi c x) hx, fun h => ?_⟩
  · have hnone := map_setCount (fun _ => ()) (fun _ _ => rfl) hi c x
    rw [hinv.above x hx] at hnone
    exact Option.map_eq_none_iff.mp hnone
  · obtain ⟨l, hl, hnd, hmem⟩ := hinv.chains h
    refine ⟨l, hl.setVal hi _, hnd, fun x => ?_⟩
    rw [hmem x, map_setCount (fun v => v.hash) (fun _ _ => rfl) hi c x]

/-- The table after `add_atom` puts a new name in the free slot `i`, at the head of the chain
of its hash. -/
def insertEntry (table : AtomTable) (i : Nat) (str : List Nat) (hash : Nat) : AtomTable where
  count := if i = table.count then table.count + 1 else table.count
  atoms := setPrevAt (Function.update table.atoms i
    (some ⟨table.entries hash, none, ⟨1, i + minStrAtom, hash, str⟩⟩)) (table.entries hash) (some i)
  entries := Function.update table.entries hash (some i)

theorem map_insertEntry {γ : Type} (f : AtomData → γ) (str : List Nat) (hash x : Nat) :
    ((insertEntry t i str hash).atoms x).map (fun e => f e.val) =
      Function.update (fun x => (t.atoms x).map fun e => f e.val) i
        (some (f ⟨1, i + minStrAtom, hash, str⟩)) x := by
  dsimp only [insertEntry]
  rw [map_setPrevAt]
  by_cases hx : x = i
  · subst hx
    rw [Function.update_self, Function.update_self]
    rfl
  · rw [Function.update_of_ne hx, Function.update_of_ne hx]

theorem view_insertEntry (str : List Nat) (hash : Nat) :
    view (insertEntry t i str hash) = Function.update (view t) i (some (str, 1)) :=
  funext fun x => map_insertEntry (fun v => (v.str, v.count.toNat)) str hash x

theorem chain_mem_update {g : Nat → Option Nat} {l l' : List Nat} {h : Nat} {v : Option Nat}
    (hmem : ∀ x, x ∈ l ↔ g x = some h) (hother : ∀ x, x ≠ i → (x ∈ l' ↔ x ∈ l))
    (hself : i ∈ l' ↔ v = some h) (x : Nat) :
    x ∈ l' ↔ Function.update g i v x = some h := by
  by_cases hxi : x = i
  · subst hxi
    rw [Function.update_self]
    exact hself
  · rw [Function.update_of_ne hxi, ← hmem x]
    exact hother x hxi

theorem not_mem_chain_of_free {l : List Nat} {h : Nat}
    (hmem : ∀ x, x ∈ l ↔ (t.atoms x).map (fun e => e.val.hash) = some h) (hfree : t.atoms i = none) :
    i ∉ l := fun hil => by
  have := (hmem i).mp hil
  rw [hfree] at this
  cases this

theorem Inv.insert (hinv : Inv toLower t) (hi1 : 1 ≤ i) (hic : i ≤ t.count)
    (himax : i < maxAtoms) (hfree : t.atoms i = none) {str : List Nat}
    (hnew : ∀ j e, t.atoms j = some e → key toLower e.val.str ≠ key toLower str) :
    Inv toLower (insertEntry t i str (nameHash toLower str)) := by
  have hcount : (insertEntry t i str (nameHash toLower str)).count =
      if i = t.count then t.count + 1 else t.count := rfl
  have hmap : ∀ {γ : Type} (f : AtomData → γ) (x : Nat),
      ((insertEntry t i str (nameHash toLower str)).atoms x).map (fun e => f e.val) =
        Function.update (fun x => (t.atoms x).map fun e => f e.val) i
          (some (f ⟨1, i + minStrAtom, nameHash toLower str, str⟩)) x :=
    fun f x => map_insertEntry f str _ x
  refine ⟨?_, ?_, ?_, fun x hx => ?_, fun x e' hx => ?_, fun h => ?_⟩
  · rw [view_insertEntry]
    refine RefTable.update_wf hinv.wf hi1 himax fun j p hj => ?_
    obtain ⟨e, he, rfl⟩ := view_eq_some.mp hj
    exact hnew j e he
  · rw [hcount]
    split <;> omega
  · have := hinv.count_le
    rw [hcount]
    split <;> omega
  · rw [hcount] at hx
    have hxi : x ≠ i := by split at hx <;> omega
    have hnone := hmap (fun _ => ()) x
    rw [Function.update_of_ne hxi, hinv.above x (by split at hx <;> omega)] at hnone
    exact Option.map_eq_none_iff.mp hnone
  · by_cases hxi : x = i
    · subst hxi
      have hm := hmap (fun v => (v.atom, v.hash, v.str)) x
      rw [hx, Function.update_self] at hm
      obtain ⟨hatom, hhash, hstr⟩ : e'.val.atom = x + minStrAtom ∧ e'.val.hash = nameHash toLower str ∧
          e'.val.str = str := by simpa using hm
      rw [hatom, hhash, hstr]
      exact ⟨rfl, rfl⟩
    · refine entry_of_map hinv ?_ hx
      rw [hmap (fun v => (v.atom, v.hash, v.str)), Function.update_of_ne hxi]
  · by_cases hh : h = nameHash toLower str
    · subst hh
      obtain ⟨l, hl, hnd, hmem⟩ := hinv.chains (nameHash toLower str)
      have hil : i ∉ l := not_mem_chain_of_free hmem hfree
      refine ⟨i :: l, ?_, List.nodup_cons.mpr ⟨hil, hnd⟩, fun x => ?_⟩
      · have hpush := hl.push hnd hfree ⟨1, i + minStrAtom, nameHash toLower str, str⟩
        dsimp only [insertEntry]
        rw [Function.update_self]
        exact hpush
      · rw [hmap (fun v => v.hash)]
        exact chain_mem_update hmem (fun x hxi => by simp [hxi]) (by simp) x
    · obtain ⟨l, hl, hnd, hmem⟩ := hinv.chains h
      obtain ⟨l₀, hl₀, -, hmem₀⟩ := hinv.chains (nameHash toLower str)
      have hil : i ∉ l := not_mem_chain_of_free hmem hfree
      refine ⟨l, ?_, hnd, fun x => ?_⟩
      · dsimp only [insertEntry]
        rw [Function.update_of_ne hh]
        refine hl.congr fun x hx => ?_
        have hxh : (t.atoms x).map (fun e => e.val.hash) = some h := (hmem x).mp hx
        have hxi : x ≠ i := fun hxi => hil (hxi ▸ hx)
        have hhead : t.entries (nameHash toLower str) ≠ some x := fun hhead => by
          rw [hl₀.head_eq] at hhead
          have := (hmem₀ x).mp (List.mem_of_mem_head? hhead)
          rw [hxh] at this
          exact hh (Option.some_inj.mp this)
        rw [setPrevAt_of_ne hhead, Function.update_of_ne hxi]
      · rw [hmap (fun v => v.hash)]
        exact chain_mem_update hmem (fun _ _ => Iff.rfl)
          ⟨fun hx => absurd hx hil, fun hx => absurd (Option.some_inj.mp hx).symm hh⟩ x

/-- The table after `delete_atom` drops the last reference to the entry of slot `i`. -/
def unlinkEntry (table : AtomTable) (i : Nat) (entry : Node AtomData) : AtomTable :=
  { table with
    atoms := unlinked table.atoms i entry
    entries := if entry.prev = none then Function.update table.entries entry.val.hash entry.next
      else table.entries }

theorem view_unlinkEntry : view (unlinkEntry t i e) = Function.update (view t) i none :=
  funext fun x => map_unlinked (fun v : AtomData => (v.str, v.count.toNat)) x

theorem Inv.unlink (hinv : Inv toLower t) (hi : t.atoms i = some e)
    (hwf : RefTable.WF (key toLower) 1 maxAtoms (Function.update (view t) i none)) :
    Inv toLower (unlinkEntry t i e) := by
  obtain ⟨l, hl, hnd, hmem⟩ := hinv.chains e.val.hash
  have hil : i ∈ l := (hmem i).mpr (by rw [hi]; rfl)
  have hatoms : (unlinkEntry t i e).atoms = unlinked t.atoms i e := rfl
  have hmap : ∀ {γ : Type} (f : AtomData → γ) (x : Nat),
      ((unlinkEntry t i e).atoms x).map (fun b => f b.val) =
        Function.update (fun x => (t.atoms x).map fun b => f b.val) i none x :=
    fun f x => map_unlinked f x
  refine ⟨view_unlinkEntry.symm ▸ hwf, hinv.count_pos, hinv.count_le, fun x hx => ?_,
    fun x e' hx => ?_, fun h => ?_⟩
  · have hnone := hmap (fun _ => ()) x
    have hfree : Function.update (fun x => (t.atoms x).map fun _ => ()) i none x = none := by
      by_cases hxi : x = i
      · rw [hxi, Function.update_self]
      · rw [Function.update_of_ne hxi, hinv.above x hx]
        rfl
    rw [hfree] at hnone
    exact Option.map_eq_none_iff.mp hnone
  · have hm := hmap (fun v => (v.atom, v.hash, v.str)) x
    have hxi : x ≠ i := fun hxi => by
      rw [hx, hxi, Function.update_self] at hm
      cases hm
    exact entry_of_map hinv (by rw [hm, Function.update_of_ne hxi]) hx
  · by_cases hh : h = e.val.hash
    · subst hh
      obtain ⟨pre, post, rfl⟩ := List.append_of_mem hil
      have hentries : (unlinkEntry t i e).entries e.val.hash =
          if e.prev = none then e.next else t.entries e.val.hash := by
        by_cases hp : e.prev = none <;> simp [unlinkEntry, hp]
      refine ⟨pre ++ post, ?_, hnd.sublist ((List.sublist_cons_self i post).append_left pre),
        fun x => ?_⟩
      · rw [hatoms, hentries]
        exact hl.unlink hnd hi
      · rw [hmap (fun v => v.hash)]
        exact chain_mem_update (v := none) hmem (fun x hxi => by simp [hxi])
          ⟨fun hx => absurd hx (List.nodup_cons.mp (List.nodup_middle.mp hnd)).1, nofun⟩ x
    · obtain ⟨l', hl', hnd', hmem'⟩ := hinv.chains h
      obtain ⟨hnext, hprev⟩ := hl.neighbours_mem hil hi
      have hout : ∀ x ∈ l', x ∉ l := fun x hx hxl => by
        have h₁ := (hmem' x).mp hx
        rw [(hmem x).mp hxl] at h₁
        exact hh (Option.some_inj.mp h₁).symm
      have hentries : (unlinkEntry t i e).entries h = t.entries h := by
        by_cases hp : e.prev = none <;> simp [unlinkEntry, hp, Function.update_of_ne hh]
      refine ⟨l', ?_, hnd', fun x => ?_⟩
      · rw [hatoms, hentries]
        refine hl'.congr fun x hx => unlinked_of_ne ?_ ?_ ?_
        · exact fun hxi => hout x hx (hxi ▸ hil)
        · exact fun hn => hout x hx (hnext x hn)
        · exact fun hp => hout x hx (hprev x hp)
      · rw [hmap (fun v => v.hash)]
        exact chain_mem_update (v := none) hmem' (fun _ _ => Iff.rfl)
          ⟨fun hx => absurd hil (hout i hx), nofun⟩ x

end Writes

/-! ## The calls -/

/-- The atom `add_atom` returns for a slot, and the error it sets when it gets none. -/
def slotAtom : Option Nat → Except NtStatus Nat
  | some i => .ok (i + minStrAtom)
  | none => .error .noMemory

section Spec

variable {toLower : Nat → Nat} {t : AtomTable}

theorem firstFree_spec (atoms : Nat → Option (Node AtomData)) : ∀ i n : Nat,
    i ≤ firstFree atoms i n ∧ firstFree atoms i n ≤ i + n ∧
      (∀ j, i ≤ j → j < firstFree atoms i n → atoms j ≠ none) ∧
      (firstFree atoms i n < i + n → atoms (firstFree atoms i n) = none)
  | i, 0 => ⟨le_rfl, le_rfl, fun _ h₁ h₂ => absurd h₂ (Nat.not_lt.mpr h₁), fun h => absurd h (Nat.lt_irrefl i)⟩
  | i, n + 1 => by
    by_cases hfree : (atoms i).isNone
    · rw [firstFree, if_pos hfree]
      exact ⟨le_rfl, by omega, fun _ h₁ h₂ => absurd h₂ (Nat.not_lt.mpr h₁),
        fun _ => Option.isNone_iff_eq_none.mp hfree⟩
    · rw [firstFree, if_neg hfree]
      obtain ⟨h₁, h₂, h₃, h₄⟩ := firstFree_spec atoms (i + 1) n
      refine ⟨by omega, by omega, fun j hj hjr => ?_, fun h => h₄ (by omega)⟩
      by_cases hji : j = i
      · rw [hji]
        exact fun h => hfree (Option.isNone_iff_eq_none.mpr h)
      · exact h₃ j (by omega) hjr

theorem Inv.firstFree_spec (hinv : Inv toLower t) :
    1 ≤ firstFree t.atoms 1 (t.count - 1) ∧ firstFree t.atoms 1 (t.count - 1) ≤ t.count ∧
      t.atoms (firstFree t.atoms 1 (t.count - 1)) = none ∧
      ∀ j, 1 ≤ j → j < firstFree t.atoms 1 (t.count - 1) → t.atoms j ≠ none := by
  obtain ⟨h₁, h₂, h₃, h₄⟩ := Atom.firstFree_spec t.atoms 1 (t.count - 1)
  have hpos := hinv.count_pos
  refine ⟨h₁, by omega, ?_, h₃⟩
  by_cases hlt : firstFree t.atoms 1 (t.count - 1) < 1 + (t.count - 1)
  · exact h₄ hlt
  · exact hinv.above _ (by omega)

theorem eq_firstFree (hinv : Inv toLower t) {i : Nat} (hi1 : 1 ≤ i) (hfree : t.atoms i = none)
    (hlive : ∀ j, 1 ≤ j → j < i → t.atoms j ≠ none) : firstFree t.atoms 1 (t.count - 1) = i := by
  obtain ⟨h₁, -, h₃, h₄⟩ := hinv.firstFree_spec
  rcases Nat.lt_trichotomy (firstFree t.atoms 1 (t.count - 1)) i with hlt | heq | hgt
  · exact absurd h₃ (hlive _ h₁ hlt)
  · exact heq
  · exact absurd hfree (h₄ i hi1 hgt)

/-! ### `add_atom` -/

variable {str : List Nat}

theorem addAtom_of_invalid (hname : ¬ ValidName str) : (addAtom toLower t str).1 = t := by
  unfold addAtom
  by_cases h₁ : str.length = 0
  · rw [if_pos h₁]
  rw [if_neg h₁]
  by_cases h₂ : 2 * str.length > maxAtomLen * 2
  · rw [if_pos h₂]
  rw [if_neg h₂]
  by_cases h₃ : getIntAtomValue str ≠ 0
  · rw [if_pos h₃]
  exact absurd ⟨by omega, by omega, not_not.mp h₃⟩ hname

theorem addAtom_of_live (hinv : Inv toLower t) (hname : ValidName str) {i : Nat} {e : Node AtomData}
    (hi : t.atoms i = some e) (hk : key toLower e.val.str = key toLower str) :
    addAtom toLower t str = (t.setCount i e (e.val.count + 1), .ok (i + minStrAtom)) := by
  obtain ⟨h₁, h₂, h₃⟩ := hname.guards
  rw [addAtom, if_neg h₁, if_neg h₂, if_neg h₃]
  dsimp only
  rw [show hashStrW toLower str (2 * str.length) hashSize = nameHash toLower str from rfl,
    findAtomEntry_of_live hinv hi hk]
  dsimp only
  rw [(hinv.entry i e hi).1]

theorem addAtom_of_free (hinv : Inv toLower t) (hname : ValidName str)
    (hnone : ∀ i e, t.atoms i = some e → key toLower e.val.str ≠ key toLower str) {i : Nat}
    (hi1 : 1 ≤ i) (himax : i < maxAtoms) (hfree : t.atoms i = none)
    (hlive : ∀ j, 1 ≤ j → j < i → t.atoms j ≠ none) :
    addAtom toLower t str = (insertEntry t i str (nameHash toLower str), .ok (i + minStrAtom)) := by
  obtain ⟨h₁, h₂, h₃⟩ := hname.guards
  rw [addAtom, if_neg h₁, if_neg h₂, if_neg h₃]
  dsimp only
  rw [show hashStrW toLower str (2 * str.length) hashSize = nameHash toLower str from rfl,
    findAtomEntry_of_none hinv hnone]
  dsimp only
  rw [addAtomEntry]
  dsimp only
  rw [eq_firstFree hinv hi1 hfree hlive, if_neg (Nat.ne_of_lt himax)]
  dsimp only
  rw [Nat.add_sub_cancel]
  rfl

theorem addAtom_of_full (hinv : Inv toLower t) (hname : ValidName str)
    (hnone : ∀ i e, t.atoms i = some e → key toLower e.val.str ≠ key toLower str)
    (hfull : ∀ j, 1 ≤ j → j < maxAtoms → t.atoms j ≠ none) :
    addAtom toLower t str = (t, .error .noMemory) := by
  obtain ⟨h₁, h₂, h₃⟩ := hname.guards
  obtain ⟨hr1, hrc, hrfree, -⟩ := hinv.firstFree_spec
  have hr : firstFree t.atoms 1 (t.count - 1) = maxAtoms := by
    have := hinv.count_le
    by_contra hne
    exact hfull _ hr1 (by omega) hrfree
  rw [addAtom, if_neg h₁, if_neg h₂, if_neg h₃]
  dsimp only
  rw [show hashStrW toLower str (2 * str.length) hashSize = nameHash toLower str from rfl,
    findAtomEntry_of_none hinv hnone]
  dsimp only
  rw [addAtomEntry]
  dsimp only
  rw [hr, if_pos rfl]

theorem addRef_view {i : Nat} {e : Node AtomData} (hi : t.atoms i = some e) :
    RefTable.addRef (2 ^ 32) (view t) i =
      Function.update (view t) i (some (e.val.str, (e.val.count + 1).toNat)) := by
  rw [RefTable.addRef, view_of_atoms hi, toNat_count_succ]
  rfl

theorem release_view {i : Nat} {e : Node AtomData} (hi : t.atoms i = some e) :
    RefTable.release (2 ^ 32) (view t) i = Function.update (view t) i
      (if e.val.count - 1 = 0 then none else some (e.val.str, (e.val.count - 1).toNat)) := by
  rw [RefTable.release, view_of_atoms hi, toNat_count_pred]
  simp only [Option.bind_some, count_pred_eq_zero_iff]

theorem addAtom_spec (hinv : Inv toLower t) (hname : ValidName str) :
    Inv toLower (addAtom toLower t str).1 ∧
      view (addAtom toLower t str).1 = (RefTable.acquire (key toLower) (2 ^ 32) 1 maxAtoms (view t) str).1 ∧
      (addAtom toLower t str).2 = slotAtom (RefTable.acquire (key toLower) (2 ^ 32) 1 maxAtoms (view t) str).2 := by
  by_cases hex : ∃ i e, t.atoms i = some e ∧ key toLower e.val.str = key toLower str
  · obtain ⟨i, e, hi, hk⟩ := hex
    rw [addAtom_of_live hinv hname hi hk, RefTable.acquire_of_live hinv.wf (view_of_atoms hi) hk]
    refine ⟨hinv.setCount hi ?_, by rw [view_setCount, addRef_view hi], rfl⟩
    rw [← addRef_view hi]
    exact RefTable.addRef_wf hinv.wf i
  have hnone : ∀ i e, t.atoms i = some e → key toLower e.val.str ≠ key toLower str :=
    fun i e hi hk => hex ⟨i, e, hi, hk⟩
  have hnone' : ∀ i p, view t i = some p → key toLower p.1 ≠ key toLower str := fun i p hp => by
    obtain ⟨e, he, rfl⟩ := view_eq_some.mp hp
    exact hnone i e he
  by_cases hfull : ∀ j, 1 ≤ j → j < maxAtoms → t.atoms j ≠ none
  · rw [addAtom_of_full hinv hname hnone hfull, RefTable.acquire_of_full hnone' fun j h₁ h₂ hj =>
      hfull j h₁ h₂ (Option.map_eq_none_iff.mp hj)]
    exact ⟨hinv, rfl, rfl⟩
  · obtain ⟨hr1, hrc, hrfree, hrlive⟩ := hinv.firstFree_spec
    have hrmax : firstFree t.atoms 1 (t.count - 1) < maxAtoms := by
      by_contra hge
      exact hfull fun j h₁ h₂ => hrlive j h₁ (by omega)
    have hlow : RefTable.lowestFree 1 maxAtoms (view t) = some (firstFree t.atoms 1 (t.count - 1)) :=
      RefTable.lowestFree_eq_some hr1 hrmax (by rw [view, hrfree]; rfl) fun j h₁ h₂ hj =>
        hrlive j h₁ h₂ (Option.map_eq_none_iff.mp hj)
    rw [addAtom_of_free hinv hname hnone hr1 hrmax hrfree hrlive, RefTable.acquire_of_free hnone' hlow]
    exact ⟨hinv.insert hr1 hrc hrmax hrfree hnone, view_insertEntry str _, rfl⟩

/-! ### `get_atom_entry`, `grab_atom` and `delete_atom` -/

theorem getAtomEntry_of_le (hinv : Inv toLower t) {atom : Nat} (h : minStrAtom ≤ atom) :
    getAtomEntry t atom = match t.atoms (atom - minStrAtom) with
      | some e => .ok (atom - minStrAtom, e)
      | none => .error .invalidHandle := by
  rw [getAtomEntry]
  by_cases hlt : atom < minStrAtom + t.count
  · rw [if_pos ⟨h, hlt⟩]
  · rw [if_neg fun hc => hlt hc.2, hinv.above _ (by omega)]

theorem grabAtom_spec (hinv : Inv toLower t) (atom : Nat) :
    Inv toLower (grabAtom t atom).1 ∧
      view (grabAtom t atom).1 =
        if minStrAtom ≤ atom then RefTable.addRef (2 ^ 32) (view t) (atom - minStrAtom) else view t := by
  by_cases h : minStrAtom ≤ atom
  · rw [if_pos h, grabAtom, if_pos h, getAtomEntry_of_le hinv h]
    cases hi : t.atoms (atom - minStrAtom) with
    | none => exact ⟨hinv, (RefTable.addRef_of_none (by rw [view, hi]; rfl)).symm⟩
    | some e =>
      refine ⟨hinv.setCount hi ?_, by rw [view_setCount, addRef_view hi]⟩
      rw [← addRef_view hi]
      exact RefTable.addRef_wf hinv.wf _
  · rw [if_neg h, grabAtom, if_neg h]
    exact ⟨hinv, rfl⟩

theorem deleteAtom_of_last {atom i : Nat} {e : Node AtomData} (hget : getAtomEntry t atom = .ok (i, e))
    (hz : e.val.count - 1 = 0) : deleteAtom t atom = (unlinkEntry t i e, none) := by
  rw [deleteAtom, hget]
  dsimp only
  rw [if_pos hz]
  cases hp : e.prev <;> simp [unlinkEntry, unlinked, hp, setNextAt]

theorem deleteAtom_spec (hinv : Inv toLower t) (atom : Nat) :
    Inv toLower (deleteAtom t atom).1 ∧
      view (deleteAtom t atom).1 =
        if minStrAtom ≤ atom then RefTable.release (2 ^ 32) (view t) (atom - minStrAtom) else view t := by
  by_cases h : minStrAtom ≤ atom
  · rw [if_pos h]
    have hget := getAtomEntry_of_le hinv h
    cases hi : t.atoms (atom - minStrAtom) with
    | none =>
      rw [hi] at hget
      rw [deleteAtom, hget, RefTable.release_of_none (by rw [view, hi]; rfl)]
      exact ⟨hinv, rfl⟩
    | some e =>
      rw [hi] at hget
      rw [release_view hi]
      by_cases hz : e.val.count - 1 = 0
      · rw [deleteAtom_of_last hget hz, if_pos hz, view_unlinkEntry]
        refine ⟨hinv.unlink hi ?_, rfl⟩
        have hwf : RefTable.WF (key toLower) 1 maxAtoms
            (RefTable.release (2 ^ 32) (view t) (atom - minStrAtom)) := RefTable.release_wf hinv.wf _
        rwa [release_view hi, if_pos hz] at hwf
      · rw [deleteAtom, hget]
        dsimp only
        rw [if_neg hz, if_neg hz, view_setCount]
        refine ⟨hinv.setCount hi ?_, rfl⟩
        have hwf : RefTable.WF (key toLower) 1 maxAtoms
            (RefTable.release (2 ^ 32) (view t) (atom - minStrAtom)) := RefTable.release_wf hinv.wf _
        rwa [release_view hi, if_neg hz] at hwf
  · rw [if_neg h, deleteAtom, getAtomEntry, if_neg fun hc => h hc.1]
    exact ⟨hinv, rfl⟩

/-! ### Runs of calls -/

/-- The operation a call makes on the table of names, if any. -/
def Call.toOp : Call → Option (RefTable.Op (List Nat))
  | .add str => if ValidName str then some (.acquire str) else none
  | .delete atom => if minStrAtom ≤ atom then some (.release (atom - minStrAtom)) else none
  | .grab atom => if minStrAtom ≤ atom then some (.addRef (atom - minStrAtom)) else none
  | .find _ => none

theorem Call.apply_spec (hinv : Inv toLower t) (c : Call) :
    Inv toLower (c.apply toLower t) ∧
      view (c.apply toLower t) = RefTable.run (key toLower) (2 ^ 32) 1 maxAtoms (view t) ([c].filterMap Call.toOp) := by
  cases c with
  | add str =>
    by_cases hname : ValidName str
    · obtain ⟨hinv', hview, -⟩ := addAtom_spec hinv hname
      simp only [Call.apply, List.filterMap_cons, List.filterMap_nil, Call.toOp, if_pos hname]
      exact ⟨hinv', hview⟩
    · simp only [Call.apply, List.filterMap_cons, List.filterMap_nil, Call.toOp, if_neg hname,
        addAtom_of_invalid hname]
      exact ⟨hinv, rfl⟩
  | delete atom =>
    obtain ⟨hinv', hview⟩ := deleteAtom_spec hinv atom
    refine ⟨hinv', ?_⟩
    rw [Call.apply, hview]
    by_cases h : minStrAtom ≤ atom
    · simp [Call.toOp, h, RefTable.run, RefTable.Op.apply]
    · simp [Call.toOp, h, RefTable.run]
  | grab atom =>
    obtain ⟨hinv', hview⟩ := grabAtom_spec hinv atom
    refine ⟨hinv', ?_⟩
    rw [Call.apply, hview]
    by_cases h : minStrAtom ≤ atom
    · simp [Call.toOp, h, RefTable.run, RefTable.Op.apply]
    · simp [Call.toOp, h, RefTable.run]
  | find str => exact ⟨hinv, rfl⟩

theorem runCalls_spec (hinv : Inv toLower t) (calls : List Call) :
    Inv toLower (runCalls toLower t calls) ∧
      view (runCalls toLower t calls) =
        RefTable.run (key toLower) (2 ^ 32) 1 maxAtoms (view t) (calls.filterMap Call.toOp) := by
  induction calls generalizing t with
  | nil => exact ⟨hinv, rfl⟩
  | cons c calls ih =>
    obtain ⟨hinv₁, hview₁⟩ := c.apply_spec hinv
    obtain ⟨hinv₂, hview₂⟩ := ih hinv₁
    refine ⟨hinv₂, ?_⟩
    rw [show runCalls toLower t (c :: calls) = runCalls toLower (c.apply toLower t) calls from rfl,
      hview₂, hview₁, ← RefTable.run_append, ← List.filterMap_append, List.singleton_append]

end Spec

/-! ## The lifetime of an atom -/

section Lifetime

variable (toLower : Nat → Nat)

/-- The calls that add a reference to the atom `atom` of the name `str`: an `add_atom` of a
name equal to it, and a `grab_atom` of it. -/
def Call.Adds (str : List Nat) (atom : Nat) : Call → Bool
  | .add s => decide (ValidName s) && key toLower s == key toLower str
  | .grab a => a == atom
  | _ => false

/-- The calls that drop a reference to the atom `atom`. -/
def Call.Drops (atom : Nat) : Call → Bool
  | .delete a => a == atom
  | _ => false

variable {toLower} {t : AtomTable}

theorem sub_beq_iff {a i m : Nat} (h : m ≤ a) : (a - m == i) = true ↔ (a == i + m) = true := by
  simp only [beq_iff_eq]
  omega

theorem beq_add_of_lt {a i m : Nat} (h : ¬ m ≤ a) : (a == i + m) = false :=
  beq_eq_false_iff_ne.mpr fun e => h (e ▸ Nat.le_add_left m i)

theorem countP_toOp_adds (str : List Nat) (i : Nat) (calls : List Call) :
    (calls.filterMap Call.toOp).countP (RefTable.Op.Adds (key toLower) str i) =
      calls.countP (Call.Adds toLower str (i + minStrAtom)) := by
  rw [List.countP_filterMap]
  refine List.countP_congr fun c _ => ?_
  cases c with
  | add s => by_cases hs : ValidName s <;> simp [Call.toOp, Call.Adds, RefTable.Op.Adds, hs]
  | delete a => by_cases ha : minStrAtom ≤ a <;> simp [Call.toOp, Call.Adds, RefTable.Op.Adds, ha]
  | grab a =>
    -- by rewriting only: the kernel is not to reduce the atom less `MIN_STR_ATOM`
    by_cases ha : minStrAtom ≤ a
    · rw [show Call.toOp (.grab a) = some (.addRef (a - minStrAtom)) by rw [Call.toOp, if_pos ha],
        Option.map_some, Option.getD_some, RefTable.Op.Adds, Call.Adds]
      exact sub_beq_iff ha
    · rw [show Call.toOp (.grab a) = none by rw [Call.toOp, if_neg ha], Option.map_none,
        Option.getD_none, Call.Adds, beq_add_of_lt ha]
  | find s => simp [Call.toOp, Call.Adds]

theorem countP_toOp_drops (i : Nat) (calls : List Call) :
    (calls.filterMap Call.toOp).countP (RefTable.Op.Drops i) = calls.countP (Call.Drops (i + minStrAtom)) := by
  rw [List.countP_filterMap]
  refine List.countP_congr fun c _ => ?_
  cases c with
  | add s => by_cases hs : ValidName s <;> simp [Call.toOp, Call.Drops, RefTable.Op.Drops, hs]
  | delete a =>
    by_cases ha : minStrAtom ≤ a
    · rw [show Call.toOp (.delete a) = some (.release (a - minStrAtom)) by rw [Call.toOp, if_pos ha],
        Option.map_some, Option.getD_some, RefTable.Op.Drops, Call.Drops]
      exact sub_beq_iff ha
    · rw [show Call.toOp (.delete a) = none by rw [Call.toOp, if_neg ha], Option.map_none,
        Option.getD_none, Call.Drops, beq_add_of_lt ha]
  | grab a => by_cases ha : minStrAtom ≤ a <;> simp [Call.toOp, Call.Drops, RefTable.Op.Drops, ha]
  | find s => simp [Call.toOp, Call.Drops]

theorem runCalls_lifetime (hinv : Inv toLower t) {i c : Nat} {str : List Nat}
    (hi : view t i = some (str, c)) (hc : 0 < c) (calls : List Call)
    (hlive : ∀ q, q <+: calls → q ≠ calls →
      q.countP (Call.Drops (i + minStrAtom)) < c + q.countP (Call.Adds toLower str (i + minStrAtom)))
    (hcap : ∀ q, q <+: calls → c + q.countP (Call.Adds toLower str (i + minStrAtom)) -
      q.countP (Call.Drops (i + minStrAtom)) < 2 ^ 32) :
    view (runCalls toLower t calls) i =
      if c + calls.countP (Call.Adds toLower str (i + minStrAtom)) -
          calls.countP (Call.Drops (i + minStrAtom)) = 0 then none
      else some (str, c + calls.countP (Call.Adds toLower str (i + minStrAtom)) -
          calls.countP (Call.Drops (i + minStrAtom))) := by
  rw [(runCalls_spec hinv calls).2, ← countP_toOp_adds, ← countP_toOp_drops]
  refine RefTable.run_live hinv.wf hi hc _ (fun q' hq' hne => ?_) fun q' hq' => ?_
  · obtain ⟨q, hq, rfl⟩ := List.prefix_filterMap_iff.mp hq'
    rw [countP_toOp_adds, countP_toOp_drops]
    exact hlive q hq fun h => hne (h ▸ rfl)
  · obtain ⟨q, hq, rfl⟩ := List.prefix_filterMap_iff.mp hq'
    rw [countP_toOp_adds, countP_toOp_drops]
    exact hcap q hq

end Lifetime

theorem filterMap_toOp_replicate_add {str : List Nat} (hname : ValidName str) (n : Nat) :
    (List.replicate n (Call.add str)).filterMap Call.toOp = List.replicate n (.acquire str) := by
  induction n with
  | zero => rfl
  | succ n ih => simp only [List.replicate_succ, List.filterMap_cons, Call.toOp, if_pos hname, ih]

/-- One name added once and then 2^32 times more, and deleted once. -/
def wrapCalls : List Call := .add [0x41] :: List.replicate (2 ^ 32) (.add [0x41]) ++ [.delete 0xc001]

end Wine.Server.Atom
