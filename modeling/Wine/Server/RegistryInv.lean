import Wine.Server.Registry

/-!
# The invariant of the registry's arrays

Every key reachable from the root by `create_key_object`, `delete_key`, `rename_key`,
`set_value`, `delete_value` and `load_value` keeps its subkeys and its values strictly sorted
by name in the order of `find_subkey`, with the last index below the allocated count; every
subkey's parent is the key, `wow6432node` is one of the subkeys, and a key with a parent is in
its parent's array. The searches then find a name exactly when it is there, and otherwise end
at the index where inserting it keeps the order.
-/

namespace Wine.Server

open SortedArray

set_option autoImplicit false

/-- The values of a key: at most `nb_values` of them, sorted by name. -/
structure ValuesInv (toLower : Nat → Nat) (key : RegKey) : Prop where
  last_ge : -1 ≤ key.lastValue
  last_lt : key.lastValue < key.nbValues
  nb : key.nbValues = 0 ∨ minValues ≤ key.nbValues
  sorted : SortedUpTo (fun a b : KeyValue => NameLt toLower a.name b.name) key.values
    (key.lastValue + 1).toNat

/-- The subkeys of the key `k`: at most `nb_subkeys` of them, sorted by name, each a key whose
parent is `k`, and `wow6432node` among them. -/
structure SubkeysInv (toLower : Nat → Nat) (reg : Registry) (k : Nat) (key : RegKey) : Prop where
  last_ge : -1 ≤ key.lastSubkey
  last_lt : key.lastSubkey < key.nbSubkeys
  nb : key.nbSubkeys = 0 ∨ minSubkeys ≤ key.nbSubkeys
  sorted : SortedUpTo (fun a b => NameLt toLower (reg.nameOf a) (reg.nameOf b)) key.subkeys
    (key.lastSubkey + 1).toNat
  parent : ∀ i < (key.lastSubkey + 1).toNat, ∃ c, reg.keys (key.subkeys i) = some c ∧ c.parent = some k
  wow : ∀ w, key.wow6432node = some w → ∃ i < (key.lastSubkey + 1).toNat, key.subkeys i = w

structure Inv (toLower : Nat → Nat) (reg : Registry) : Prop where
  values : ∀ k key, reg.keys k = some key → ValuesInv toLower key
  subkeys : ∀ k key, reg.keys k = some key → SubkeysInv toLower reg k key
  linked : ∀ k key p, reg.keys k = some key → key.parent = some p →
    ∃ pk, reg.keys p = some pk ∧ ∃ i < (pk.lastSubkey + 1).toNat, pk.subkeys i = k
  parent_ne : ∀ k key, reg.keys k = some key → key.parent ≠ some k
  fresh : ∀ k, reg.next ≤ k → reg.keys k = none

/-- Two records of a key with the same name, parent and values; the array may differ. -/
structure SameEntry (key key' : RegKey) : Prop where
  name : key'.name = key.name
  parent : key'.parent = key.parent
  values : key'.values = key.values
  lastValue : key'.lastValue = key.lastValue
  nbValues : key'.nbValues = key.nbValues

/-- Two records of a key with the same place in the tree: they differ at most in their values,
class, flags and time. -/
structure SameTree (key key' : RegKey) : Prop where
  name : key'.name = key.name
  parent : key'.parent = key.parent
  lastSubkey : key'.lastSubkey = key.lastSubkey
  nbSubkeys : key'.nbSubkeys = key.nbSubkeys
  subkeys : key'.subkeys = key.subkeys
  wow6432node : key'.wow6432node = key.wow6432node

variable {toLower : Nat → Nat}

/-! ## Records and the store -/

section Store

@[simp] theorem keys_setKey_self (reg : Registry) (k : Nat) (key : RegKey) :
    (reg.setKey k key).keys k = some key := by
  simp [Registry.setKey]

@[simp] theorem keys_setKey_ne (reg : Registry) {k j : Nat} (key : RegKey) (h : j ≠ k) :
    (reg.setKey k key).keys j = reg.keys j := by
  simp [Registry.setKey, h]

@[simp] theorem next_setKey (reg : Registry) (k : Nat) (key : RegKey) :
    (reg.setKey k key).next = reg.next := rfl

theorem keys_setKey (reg : Registry) (k j : Nat) (key : RegKey) :
    (reg.setKey k key).keys j = if j = k then some key else reg.keys j := by
  by_cases h : j = k
  · subst h
    simp
  · simp [h]

theorem nameOf_setKey (reg : Registry) (k j : Nat) (key : RegKey) :
    (reg.setKey k key).nameOf j = if j = k then key.name else reg.nameOf j := by
  unfold Registry.nameOf
  rw [keys_setKey]
  split <;> simp

theorem nameOf_of_keys {reg : Registry} {k : Nat} {key : RegKey} (h : reg.keys k = some key) :
    reg.nameOf k = key.name := by
  simp [Registry.nameOf, h]

theorem SameTree.refl (key : RegKey) : SameTree key key := ⟨rfl, rfl, rfl, rfl, rfl, rfl⟩

theorem SameTree.trans {key key' key'' : RegKey} (h : SameTree key key') (h' : SameTree key' key'') :
    SameTree key key'' :=
  ⟨h'.name.trans h.name, h'.parent.trans h.parent, h'.lastSubkey.trans h.lastSubkey,
    h'.nbSubkeys.trans h.nbSubkeys, h'.subkeys.trans h.subkeys, h'.wow6432node.trans h.wow6432node⟩

theorem ValuesInv.congr {key key' : RegKey} (h : ValuesInv toLower key)
    (hl : key'.lastValue = key.lastValue) (hn : key'.nbValues = key.nbValues)
    (hv : ∀ j, (key'.values j).name = (key.values j).name) : ValuesInv toLower key' := by
  obtain ⟨h1, h2, h3, h4⟩ := h
  refine ⟨hl ▸ h1, hl ▸ hn ▸ h2, hn ▸ h3, fun i j hij hj => ?_⟩
  show NameLt toLower (key'.values i).name (key'.values j).name
  rw [hv, hv]
  exact h4 i j hij (hl ▸ hj)

theorem SubkeysInv.congr {reg reg' : Registry} {k : Nat} {key : RegKey}
    (h : SubkeysInv toLower reg k key)
    (hname : ∀ i < (key.lastSubkey + 1).toNat, reg'.nameOf (key.subkeys i) = reg.nameOf (key.subkeys i))
    (hpar : ∀ i < (key.lastSubkey + 1).toNat, ∀ c, reg.keys (key.subkeys i) = some c →
      ∃ c', reg'.keys (key.subkeys i) = some c' ∧ c'.parent = c.parent) :
    SubkeysInv toLower reg' k key := by
  refine ⟨h.last_ge, h.last_lt, h.nb, fun i j hij hj => ?_, fun i hi => ?_, h.wow⟩
  · show NameLt toLower (reg'.nameOf (key.subkeys i)) (reg'.nameOf (key.subkeys j))
    rw [hname i (Nat.lt_trans hij hj), hname j hj]
    exact h.sorted i j hij hj
  · obtain ⟨c, hc, hcp⟩ := h.parent i hi
    obtain ⟨c', hc', hcp'⟩ := hpar i hi c hc
    exact ⟨c', hc', hcp'.trans hcp⟩

theorem SubkeysInv.of_eq {reg : Registry} {k : Nat} {key key' : RegKey}
    (h : SubkeysInv toLower reg k key) (hl : key'.lastSubkey = key.lastSubkey)
    (hn : key'.nbSubkeys = key.nbSubkeys) (hs : key'.subkeys = key.subkeys)
    (hw : key'.wow6432node = key.wow6432node) : SubkeysInv toLower reg k key' := by
  obtain ⟨h1, h2, h3, h4, h5, h6⟩ := h
  refine ⟨hl ▸ h1, hl ▸ hn ▸ h2, hn ▸ h3, hl ▸ hs ▸ h4, hl ▸ hs ▸ h5, ?_⟩
  rw [hw, hl, hs]
  exact h6

theorem SubkeysInv.of_sameTree {reg : Registry} {k : Nat} {key key' : RegKey}
    (h : SubkeysInv toLower reg k key) (ht : SameTree key key') : SubkeysInv toLower reg k key' :=
  h.of_eq ht.lastSubkey ht.nbSubkeys ht.subkeys ht.wow6432node

theorem Inv.lt_next {reg : Registry} (h : Inv toLower reg) {k : Nat} {key : RegKey}
    (hk : reg.keys k = some key) : k < reg.next := by
  by_contra hge
  rw [h.fresh k (by omega)] at hk
  cases hk

theorem SubkeysInv.injective {reg : Registry} {k : Nat} {key : RegKey}
    (h : SubkeysInv toLower reg k key) {i j : Nat} (hi : i < (key.lastSubkey + 1).toNat)
    (hj : j < (key.lastSubkey + 1).toNat) (heq : key.subkeys i = key.subkeys j) : i = j := by
  by_contra hne
  rcases Nat.lt_or_gt_of_ne hne with hlt | hgt
  · have := h.sorted i j hlt hj
    rw [heq] at this
    exact NameLt.irrefl _ this
  · have := h.sorted j i hgt hi
    rw [heq] at this
    exact NameLt.irrefl _ this

theorem SubkeysInv.entry_ne {reg : Registry} {k : Nat} {key : RegKey}
    (h : SubkeysInv toLower reg k key) {i : Nat} (hi : i < (key.lastSubkey + 1).toNat) {x : Nat}
    {c : RegKey} (hx : reg.keys x = some c) (hc : c.parent ≠ some k) : key.subkeys i ≠ x := by
  rintro rfl
  obtain ⟨c', hc', hpar⟩ := h.parent i hi
  rw [hx] at hc'
  cases hc'
  exact hc hpar

/-- A record with the same place in the tree and values that keep their invariant keeps the
invariant of the store. -/
theorem Inv.setKey_of_sameTree {reg : Registry} (h : Inv toLower reg) {k : Nat} {key key' : RegKey}
    (hk : reg.keys k = some key) (ht : SameTree key key') (hv : ValuesInv toLower key') :
    Inv toLower (reg.setKey k key') := by
  have hname : ∀ x, (reg.setKey k key').nameOf x = reg.nameOf x := by
    intro x
    rw [nameOf_setKey]
    split
    · subst x
      rw [nameOf_of_keys hk, ht.name]
    · rfl
  have hpar : ∀ x c, reg.keys x = some c →
      ∃ c', (reg.setKey k key').keys x = some c' ∧ c'.parent = c.parent := by
    intro x c hx
    by_cases hxk : x = k
    · subst hxk
      rw [hk] at hx
      cases hx
      exact ⟨key', keys_setKey_self _ _ _, ht.parent⟩
    · exact ⟨c, by rw [keys_setKey_ne _ _ hxk]; exact hx, rfl⟩
  refine ⟨fun j c hj => ?_, fun j c hj => ?_, fun j c p hj hp => ?_, fun j c hj => ?_,
    fun j hj => ?_⟩
  · rw [keys_setKey] at hj
    split at hj
    · cases hj
      exact hv
    · exact h.values j c hj
  · rw [keys_setKey] at hj
    split at hj
    · cases hj
      rename_i hjk
      subst hjk
      exact ((h.subkeys _ key hk).of_sameTree ht).congr (fun i _ => hname _)
        (fun i _ c hc => hpar _ c hc)
    · exact (h.subkeys j c hj).congr (fun i _ => hname _) (fun i _ c hc => hpar _ c hc)
  · have hj' : ∃ c0, reg.keys j = some c0 ∧ c0.parent = some p := by
      rw [keys_setKey] at hj
      split at hj
      · cases hj
        rename_i hjk
        subst hjk
        exact ⟨key, hk, ht.parent ▸ hp⟩
      · exact ⟨c, hj, hp⟩
    obtain ⟨c0, hc0, hc0p⟩ := hj'
    obtain ⟨pk, hpk, i, hi, hpi⟩ := h.linked j c0 p hc0 hc0p
    by_cases hpk' : p = k
    · subst hpk'
      rw [hk] at hpk
      cases hpk
      refine ⟨key', keys_setKey_self _ _ _, i, ?_, ?_⟩
      · rw [ht.lastSubkey]
        exact hi
      · rw [ht.subkeys]
        exact hpi
    · exact ⟨pk, by rw [keys_setKey_ne _ _ hpk']; exact hpk, i, hi, hpi⟩
  · rw [keys_setKey] at hj
    split at hj
    · cases hj
      rename_i hjk
      subst hjk
      rw [ht.parent]
      exact h.parent_ne _ key hk
    · exact h.parent_ne j c hj
  · have hlt := h.lt_next hk
    rw [keys_setKey_ne _ _ (by simp at hj; omega)]
    exact h.fresh j hj

theorem Inv.setKey_same {reg : Registry} (h : Inv toLower reg) {k : Nat} {key key' : RegKey}
    (hk : reg.keys k = some key) (ht : SameTree key key') (hl : key'.lastValue = key.lastValue)
    (hn : key'.nbValues = key.nbValues) (hv : key'.values = key.values) :
    Inv toLower (reg.setKey k key') :=
  h.setKey_of_sameTree hk ht ((h.values k key hk).congr hl hn fun j => by rw [hv])

end Store

/-! ## What the invariant gives the searches -/

/-- What a search of the names `f 0, …, f (n - 1)` may answer for `name`: the entry `e i` at
the index `i` of a name equal to it through the case map, or, when there is none, no entry and
the index where inserting it keeps the order. -/
inductive SearchSpec {β : Type} (toLower : Nat → Nat) (f : Nat → List Nat) (e : Nat → β) (n : Nat)
    (name : List Nat) : Option β × Int → Prop
  | found (i : Nat) : i < n → (f i).map toLower = name.map toLower →
      SearchSpec toLower f e n name (some (e i), i)
  | missing (idx : Nat) : idx ≤ n → (∀ i < n, (f i).map toLower ≠ name.map toLower) →
      (∀ i < idx, NameLt toLower (f i) name) → (∀ i, idx ≤ i → i < n → NameLt toLower name (f i)) →
      SearchSpec toLower f e n name (none, idx)

section Search

theorem split_of_sorted {f : Nat → List Nat} {n : Nat} (name : List Nat)
    (hs : SortedUpTo (fun a b => NameLt toLower a b) f n) :
    ∃ idx, Split (fun i => compareName toLower (f i) name) n idx := by
  apply exists_split
  intro i j hij hj hi
  have hle : name.map toLower ≤ (f i).map toLower := by
    have hnot : ¬NameLt toLower (f i) name := fun h => by
      have hneg : compareName toLower (f i) name < 0 := (compareName_neg_iff _ _).mpr h
      omega
    exact not_lt.mp hnot
  exact (compareName_pos_iff (f j) name).mpr (lt_of_le_of_lt hle (hs i j hij hj))

theorem search3_sorted {f : Nat → List Nat} {n fuel : Nat} (hfuel : n ≤ fuel) (name : List Nat)
    (hs : SortedUpTo (fun a b => NameLt toLower a b) f n) :
    SearchSpec toLower f id n name
      (search3 (fun i => compareName toLower (f i) name) fuel 0 ((n : Int) - 1)) := by
  obtain ⟨idx, hsplit⟩ := split_of_sorted name hs
  rw [search3_eq hsplit hfuel]
  by_cases hfound : idx < n ∧ compareName toLower (f idx) name = 0
  · rw [if_pos hfound]
    exact .found idx hfound.1 ((compareName_eq_zero_iff _ _).mp hfound.2)
  · rw [if_neg hfound]
    have hat : idx < n → NameLt toLower name (f idx) := by
      intro hidx
      have h0 := hsplit.at_k hidx
      have hne : compareName toLower (f idx) name ≠ 0 := fun h => hfound ⟨hidx, h⟩
      exact (compareName_pos_iff _ _).mp (by omega)
    refine .missing idx hsplit.le (fun i hi heq => ?_)
      (fun i hi => (compareName_neg_iff _ _).mp (hsplit.below i hi)) (fun i hi hin => ?_)
    · have h0 : compareName toLower (f i) name = 0 := (compareName_eq_zero_iff _ _).mpr heq
      have hik := hsplit.eq_of_zero hi h0
      subst hik
      exact hfound ⟨hi, h0⟩
    · rcases Nat.lt_or_eq_of_le hi with hlt | heq
      · exact (compareName_pos_iff _ _).mp (hsplit.above i hlt hin)
      · subst heq
        exact hat hin

theorem SearchSpec.map {β : Type} {f : Nat → List Nat} {n : Nat} {name : List Nat}
    {r : Option Nat × Int} (h : SearchSpec toLower f id n name r) (e : Nat → β) :
    SearchSpec toLower f e n name (r.1.map e, r.2) := by
  cases h with
  | found i hi heq => exact .found i hi heq
  | missing idx hidx hne hlo hhi => exact .missing idx hidx hne hlo hhi

theorem findValue_spec {key : RegKey} (h : ValuesInv toLower key) (name : List Nat) :
    SearchSpec toLower (fun i => (key.values i).name) id (key.lastValue + 1).toNat name
      (findValue toLower key name) := by
  have hlast : key.lastValue = (((key.lastValue + 1).toNat : Nat) : Int) - 1 := by
    have := h.last_ge
    omega
  have hspec := search3_sorted (Nat.le_refl _) name h.sorted
  rw [← hlast] at hspec
  exact hspec

theorem findSubkey_spec {reg : Registry} {key : RegKey} (hge : -1 ≤ key.lastSubkey)
    (hs : SortedUpTo (fun a b => NameLt toLower (reg.nameOf a) (reg.nameOf b)) key.subkeys
      (key.lastSubkey + 1).toNat) (name : List Nat) :
    SearchSpec toLower (fun i => reg.nameOf (key.subkeys i)) key.subkeys (key.lastSubkey + 1).toNat
      name (findSubkey toLower reg key name) := by
  have hlast : key.lastSubkey = (((key.lastSubkey + 1).toNat : Nat) : Int) - 1 := by omega
  have hspec := search3_sorted (f := fun i => reg.nameOf (key.subkeys i)) (Nat.le_refl _) name hs
  rw [← hlast] at hspec
  unfold findSubkey
  generalize search3 _ _ _ _ = r at hspec ⊢
  obtain ⟨o, index⟩ := r
  cases o <;> exact hspec.map key.subkeys

end Search

/-! ## The counts of an array -/

section Counts

theorem grow_counts {m nb nb' : Nat} {last : Int} (hm : 2 ≤ m) (hlt : last < nb)
    (hnb : nb = 0 ∨ m ≤ nb) (hnb' : nb' = if last + 1 = nb then growCount m nb else nb) :
    last + 1 < nb' ∧ (nb' = 0 ∨ m ≤ nb') := by
  subst hnb'
  unfold growCount
  split_ifs <;> omega

theorem shrink_counts {m nb : Nat} {last : Int} (hlt : last < nb) (hnb : nb = 0 ∨ m ≤ nb) :
    last - 1 < shrinkCount m nb (last - 1) ∧
      (shrinkCount m nb (last - 1) = 0 ∨ m ≤ shrinkCount m nb (last - 1)) := by
  unfold shrinkCount
  split_ifs <;> omega

end Counts

/-! ## The values -/

section Values

theorem SameTree.setValueData (key : RegKey) (i type : Nat) (data : List Nat) :
    SameTree key (key.setValueData i type data) := ⟨rfl, rfl, rfl, rfl, rfl, rfl⟩

theorem ValuesInv.setValueData {key : RegKey} (h : ValuesInv toLower key) (i type : Nat)
    (data : List Nat) : ValuesInv toLower (key.setValueData i type data) := by
  refine h.congr rfl rfl fun j => ?_
  unfold RegKey.setValueData
  by_cases hj : j = i
  · subst hj
    simp
  · simp [Function.update_of_ne hj]

theorem insertValue_valuesInv {key key' : RegKey} (h : ValuesInv toLower key) {name : List Nat}
    {idx : Nat} (hidx : idx ≤ (key.lastValue + 1).toNat)
    (hlo : ∀ i < idx, NameLt toLower (key.values i).name name)
    (hhi : ∀ i, idx ≤ i → i < (key.lastValue + 1).toNat → NameLt toLower name (key.values i).name)
    (hins : insertValue key name idx = .ok key') : ValuesInv toLower key' ∧ SameTree key key' := by
  unfold insertValue at hins
  simp only [bind, Except.bind, pure, Except.pure, throw, throwThe, MonadExceptOf.throw] at hins
  split at hins
  · cases hins
  · cases hins
    generalize hkey0 : (if key.lastValue + 1 = key.nbValues then growValues key else key) = key0
    have hl : key0.lastValue = key.lastValue := by
      subst hkey0
      split <;> rfl
    have hv : key0.values = key.values := by
      subst hkey0
      split <;> rfl
    have hnb : key0.nbValues = if key.lastValue + 1 = key.nbValues then growCount minValues key.nbValues
        else key.nbValues := by
      subst hkey0
      split <;> rfl
    have hcounts := grow_counts (by decide) h.last_lt h.nb hnb
    have hge := h.last_ge
    have hn : (key0.lastValue + 1 + 1).toNat = (key.lastValue + 1).toNat + 1 := by omega
    refine ⟨⟨?_, ?_, hcounts.2, ?_⟩, ?_⟩
    · show -1 ≤ key0.lastValue + 1
      omega
    · show key0.lastValue + 1 < key0.nbValues
      rw [hl]
      exact hcounts.1
    · show SortedUpTo _ (Function.update (shiftUp key0.values idx (key0.lastValue + 1).toNat) idx _) _
      rw [hn, hl, hv]
      exact h.sorted.insert hidx hlo hhi
    · subst hkey0
      split <;> exact ⟨rfl, rfl, rfl, rfl, rfl, rfl⟩

theorem valueSlot_valuesInv {key key' : RegKey} (h : ValuesInv toLower key) {name : List Nat}
    {i : Nat} (hs : valueSlot key (findValue toLower key name) name = .ok (key', i)) :
    ValuesInv toLower key' ∧ SameTree key key' := by
  have hspec := findValue_spec h name
  unfold valueSlot at hs
  generalize findValue toLower key name = r at hspec hs
  cases hspec with
  | found j _ _ =>
    cases hs
    exact ⟨h, SameTree.refl key⟩
  | missing idx hidx _ hlo hhi =>
    simp only [bind, Except.bind, pure, Except.pure] at hs
    split at hs
    · cases hs
    · rename_i key'' hins
      cases hs
      exact insertValue_valuesInv h hidx hlo hhi hins

theorem ValuesInv.remove {key : RegKey} (h : ValuesInv toLower key) {index : Nat}
    (hidx : index < (key.lastValue + 1).toNat) :
    ValuesInv toLower { key with
      values := shiftDown key.values key.lastValue.toNat (key.lastValue.toNat - index) index
      lastValue := key.lastValue - 1
      nbValues := shrinkCount minValues key.nbValues (key.lastValue - 1) } := by
  have hge := h.last_ge
  have hcounts := shrink_counts h.last_lt h.nb
  have hn : (key.lastValue + 1).toNat = key.lastValue.toNat + 1 := by omega
  refine ⟨?_, hcounts.1, hcounts.2, ?_⟩
  · show -1 ≤ key.lastValue - 1
    omega
  · show SortedUpTo _ (shiftDown key.values key.lastValue.toNat (key.lastValue.toNat - index) index)
      (key.lastValue - 1 + 1).toNat
    have hsorted := h.sorted
    rw [hn] at hsorted
    rw [show (key.lastValue - 1 + 1).toNat = key.lastValue.toNat by omega]
    exact hsorted.remove (by omega)

theorem loadValueData_valuesInv {key key' : RegKey} (h : ValuesInv toLower key)
    {name : List Nat} {type : Nat} {data : List Nat}
    (hl : loadValueData toLower key name type data = .ok key') :
    ValuesInv toLower key' ∧ SameTree key key' := by
  unfold loadValueData at hl
  simp only [bind, Except.bind, pure, Except.pure] at hl
  split at hl
  · cases hl
  · rename_i v hs
    cases hl
    obtain ⟨hv, ht⟩ := valueSlot_valuesInv h hs
    exact ⟨hv.setValueData _ _ _, ht.trans (SameTree.setValueData _ _ _ _)⟩

end Values

/-! ## The requests on values -/

section ValueRequests

theorem makeDirty_inv : ∀ (fuel : Nat) {reg : Registry} (k : Nat), Inv toLower reg →
    Inv toLower (makeDirty reg fuel k) := by
  intro fuel
  induction fuel with
  | zero => intro reg k h; exact h
  | succ fuel ih =>
    intro reg k h
    unfold makeDirty
    split
    · exact h
    · rename_i key hk
      split
      · exact h
      · have hset : Inv toLower (reg.setKey k { key with flags := key.flags ||| keyDirty }) :=
          h.setKey_same hk ⟨rfl, rfl, rfl, rfl, rfl, rfl⟩ rfl rfl rfl
        split
        · exact hset
        · exact ih _ hset

theorem touchKey_inv {reg : Registry} (h : Inv toLower reg) (k now : Nat) :
    Inv toLower (touchKey reg k now) := by
  unfold touchKey
  split
  · exact h
  · rename_i key hk
    exact makeDirty_inv _ _ (h.setKey_same hk ⟨rfl, rfl, rfl, rfl, rfl, rfl⟩ rfl rfl rfl)

theorem setValue_cases {reg reg' : Registry} {k : Nat} {name : List Nat} {type : Nat}
    {data : List Nat} {now : Nat} (h : setValue toLower reg k name type data now = .ok reg') :
    reg' = reg ∨ ∃ key key' i, reg.keys k = some key ∧
      valueSlot key (findValue toLower key name) name = .ok (key', i) ∧
      reg' = touchKey (reg.setKey k (key'.setValueData i type data)) k now := by
  unfold setValue at h
  simp only [bind, Except.bind, pure, Except.pure, throw, throwThe, MonadExceptOf.throw] at h
  split at h
  · rename_i key hk
    -- every path that neither fails nor returns early ends in the slot and its store
    repeat' (split at h)
    all_goals first
      | cases h; done
      | (cases h; exact Or.inl rfl)
      | (cases h; rename_i v hs; exact Or.inr ⟨key, v.1, v.2, hk, hs, rfl⟩)
  · cases h

theorem setValue_inv {reg reg' : Registry} (h : Inv toLower reg) {k : Nat} {name : List Nat}
    {type : Nat} {data : List Nat} {now : Nat}
    (hs : setValue toLower reg k name type data now = .ok reg') : Inv toLower reg' := by
  rcases setValue_cases hs with rfl | ⟨key, key', i, hk, hslot, rfl⟩
  · exact h
  · obtain ⟨hv, ht⟩ := valueSlot_valuesInv (h.values k key hk) hslot
    apply touchKey_inv
    exact h.setKey_of_sameTree hk (ht.trans (SameTree.setValueData _ _ _ _)) (hv.setValueData _ _ _)

theorem deleteValue_inv {reg reg' : Registry} (h : Inv toLower reg) {k : Nat} {name : List Nat}
    {now : Nat} (hd : deleteValue toLower reg k name now = .ok reg') : Inv toLower reg' := by
  unfold deleteValue at hd
  simp only [bind, Except.bind, pure, Except.pure, throw, throwThe, MonadExceptOf.throw] at hd
  split at hd
  · rename_i key hk
    split at hd
    · cases hd
    · split at hd
      · rename_i index s hfound
        cases hd
        have hspec := findValue_spec (h.values k key hk) name
        rw [hfound] at hspec
        cases hspec with
        | found i hi _ =>
          apply touchKey_inv
          exact h.setKey_of_sameTree hk ⟨rfl, rfl, rfl, rfl, rfl, rfl⟩ ((h.values k key hk).remove hi)
      · cases hd
  · cases hd

end ValueRequests

/-! ## Moving a key between arrays -/

section Relink

/-! `key_link_name` and `key_unlink_name` give the parent `p` a record with another array and
the key `k` another parent; nothing else changes. -/

variable {reg : Registry} {k p : Nat} {key pk pk' : RegKey} {nm : List Nat} {par : Option Nat}

theorem relink_nameOf_ne (hp : reg.keys p = some pk) (hpe : SameEntry pk pk') {x : Nat}
    (hxk : x ≠ k) :
    ((reg.setKey p pk').setKey k { key with name := nm, parent := par }).nameOf x =
      reg.nameOf x := by
  rw [nameOf_setKey, if_neg hxk, nameOf_setKey]
  split
  · rename_i hx
    rw [hx, nameOf_of_keys hp, hpe.name]
  · rfl

theorem relink_nameOf (hk : reg.keys k = some key) (hp : reg.keys p = some pk)
    (hpe : SameEntry pk pk') (x : Nat) :
    ((reg.setKey p pk').setKey k { key with parent := par }).nameOf x = reg.nameOf x := by
  by_cases hxk : x = k
  · rw [hxk, nameOf_setKey, if_pos rfl, nameOf_of_keys hk]
  · exact relink_nameOf_ne hp hpe hxk

theorem relink_parent (hp : reg.keys p = some pk) (hpe : SameEntry pk pk') {x : Nat}
    {c : RegKey} (hx : reg.keys x = some c) (hxk : x ≠ k) :
    ∃ c', ((reg.setKey p pk').setKey k { key with name := nm, parent := par }).keys x = some c' ∧
      c'.parent = c.parent := by
  rw [keys_setKey_ne _ _ hxk, keys_setKey]
  split
  · rename_i hxp
    subst hxp
    rw [hp] at hx
    cases hx
    exact ⟨pk', rfl, hpe.parent⟩
  · exact ⟨c, hx, rfl⟩

theorem SubkeysInv.relink (hk : reg.keys k = some key) (hp : reg.keys p = some pk)
    (hpe : SameEntry pk pk') {j : Nat} {c : RegKey} (hj : SubkeysInv toLower reg j c)
    (hkj : key.parent ≠ some j) :
    SubkeysInv toLower ((reg.setKey p pk').setKey k { key with name := nm, parent := par }) j c :=
  hj.congr (fun _ hi => relink_nameOf_ne hp hpe (hj.entry_ne hi hk hkj))
    (fun _ hi _ hc => relink_parent hp hpe hc (hj.entry_ne hi hk hkj))

/-- The invariant of the store after a key moved: what is left to show is the parent's array,
that the new parent holds the key, and that the parent's array keeps every other key. -/
theorem Inv.relink (h : Inv toLower reg) (hk : reg.keys k = some key) (hp : reg.keys p = some pk)
    (hpk : p ≠ k) (hpe : SameEntry pk pk') (hpar : par ≠ some k)
    (hkp : ∀ j, key.parent = some j → j = p)
    (hsub : SubkeysInv toLower
      ((reg.setKey p pk').setKey k { key with name := nm, parent := par }) p pk')
    (hlinked : ∀ q, par = some q → ∃ qc,
      ((reg.setKey p pk').setKey k { key with name := nm, parent := par }).keys q = some qc ∧
        ∃ i < (qc.lastSubkey + 1).toNat, qc.subkeys i = k)
    (hkeep : ∀ i < (pk.lastSubkey + 1).toNat, pk.subkeys i ≠ k →
      ∃ j < (pk'.lastSubkey + 1).toNat, pk'.subkeys j = pk.subkeys i) :
    Inv toLower ((reg.setKey p pk').setKey k { key with name := nm, parent := par }) := by
  have hkey := h.parent_ne k key hk
  refine ⟨fun x c hx => ?_, fun x c hx => ?_, fun x c q hx hq => ?_, fun x c hx => ?_,
    fun x hx => ?_⟩
  · rw [keys_setKey, keys_setKey] at hx
    split at hx
    · cases hx
      exact (h.values k key hk).congr rfl rfl fun _ => rfl
    · split at hx
      · cases hx
        exact (h.values p pk hp).congr hpe.lastValue hpe.nbValues fun _ => by rw [hpe.values]
      · exact h.values x c hx
  · rw [keys_setKey, keys_setKey] at hx
    split at hx
    · cases hx
      rename_i hxk
      subst hxk
      exact (((h.subkeys _ key hk).relink hk hp hpe hkey).of_eq rfl rfl rfl rfl)
    · split at hx
      · cases hx
        rename_i hxk hxp
        subst hxp
        exact hsub
      · rename_i hxk hxp
        exact (h.subkeys x c hx).relink hk hp hpe fun hx' => hxp (hkp x hx')
  · by_cases hxk : x = k
    · subst hxk
      rw [keys_setKey_self] at hx
      cases hx
      exact hlinked q hq
    · obtain ⟨c0, hc0, hc0p⟩ : ∃ c0, reg.keys x = some c0 ∧ c0.parent = some q := by
        rw [keys_setKey_ne _ _ hxk, keys_setKey] at hx
        split at hx
        · rename_i hxp
          subst hxp
          cases hx
          exact ⟨pk, hp, hpe.parent ▸ hq⟩
        · exact ⟨c, hx, hq⟩
      obtain ⟨qc, hqc, i, hi, hqi⟩ := h.linked x c0 q hc0 hc0p
      by_cases hqk : q = k
      · subst hqk
        rw [hk] at hqc
        cases hqc
        exact ⟨_, keys_setKey_self _ _ _, i, hi, hqi⟩
      · by_cases hqp : q = p
        · subst hqp
          rw [hp] at hqc
          cases hqc
          obtain ⟨j, hj, hpj⟩ := hkeep i hi (by rw [hqi]; exact hxk)
          refine ⟨pk', ?_, j, hj, by rw [hpj, hqi]⟩
          rw [keys_setKey_ne _ _ hqk, keys_setKey_self]
        · refine ⟨qc, ?_, i, hi, hqi⟩
          rw [keys_setKey_ne _ _ hqk, keys_setKey_ne _ _ hqp]
          exact hqc
  · rw [keys_setKey, keys_setKey] at hx
    split at hx
    · cases hx
      rename_i hxk
      subst hxk
      exact hpar
    · split at hx
      · cases hx
        rename_i hxk hxp
        subst hxp
        rw [hpe.parent]
        exact h.parent_ne _ pk hp
      · exact h.parent_ne x c hx
  · have hkn := h.lt_next hk
    have hpn := h.lt_next hp
    simp only [next_setKey] at hx
    rw [keys_setKey_ne _ _ (by omega), keys_setKey_ne _ _ (by omega)]
    exact h.fresh x hx

end Relink

/-! ## Linking and unlinking -/

section Link

/-- The parent's record after `key_link_name` put the key `k` into its array at `index`. -/
structure LinkedInto (pk pk' : RegKey) (index k : Nat) : Prop where
  entry : SameEntry pk pk'
  lastSubkey : pk'.lastSubkey = pk.lastSubkey + 1
  nbSubkeys : pk'.nbSubkeys =
    if pk.lastSubkey + 1 = pk.nbSubkeys then growCount minSubkeys pk.nbSubkeys else pk.nbSubkeys
  subkeys : pk'.subkeys =
    Function.update (shiftUp pk.subkeys index (pk.lastSubkey + 1).toNat) index k
  wow : pk'.wow6432node = pk.wow6432node ∨ pk'.wow6432node = some k

variable {reg reg' : Registry} {k p : Nat} {key pk : RegKey}

theorem keyLinkName_some (hk : reg.keys k = some key) (hp : reg.keys p = some pk)
    (hl : keyLinkName toLower reg k p = some reg') :
    ∃ pk', LinkedInto pk pk' (findSubkey toLower reg pk key.name).2.toNat k ∧
      reg' = (reg.setKey p pk').setKey k { key with parent := some p } := by
  unfold keyLinkName at hl
  simp only [hk, hp, Option.bind_eq_bind, Option.bind_some, Option.some.injEq] at hl
  subst hl
  generalize hpk0 : (if pk.lastSubkey + 1 = pk.nbSubkeys then growSubkeys pk else pk) = pk0
  obtain ⟨hfind, he, hl0, hn0, hs0, hw0⟩ : findSubkey toLower reg pk0 key.name =
      findSubkey toLower reg pk key.name ∧ SameEntry pk pk0 ∧ pk0.lastSubkey = pk.lastSubkey ∧
      pk0.nbSubkeys = (if pk.lastSubkey + 1 = pk.nbSubkeys then growCount minSubkeys pk.nbSubkeys
        else pk.nbSubkeys) ∧ pk0.subkeys = pk.subkeys ∧ pk0.wow6432node = pk.wow6432node := by
    subst hpk0
    by_cases hfull : pk.lastSubkey + 1 = pk.nbSubkeys
    · rw [if_pos hfull, if_pos hfull]
      exact ⟨rfl, ⟨rfl, rfl, rfl, rfl, rfl⟩, rfl, rfl, rfl, rfl⟩
    · rw [if_neg hfull, if_neg hfull]
      exact ⟨rfl, ⟨rfl, rfl, rfl, rfl, rfl⟩, rfl, rfl, rfl, rfl⟩
  rw [hfind]
  refine ⟨_, ⟨⟨?_, ?_, ?_, ?_, ?_⟩, ?_, ?_, ?_, ?_⟩, rfl⟩ <;> split
  all_goals first
    | exact he.name | exact he.parent | exact he.values | exact he.lastValue | exact he.nbValues
    | exact hn0 | exact Or.inr rfl | exact Or.inl hw0
    | (show pk0.lastSubkey + 1 = _; rw [hl0])
    | rw [hs0, hl0]

/-- `key_link_name` of a key with no parent into an array that holds no name equal to its
name. -/
theorem keyLinkName_inv (h : Inv toLower reg) (hk : reg.keys k = some key)
    (hpar : key.parent = none) (hp : reg.keys p = some pk)
    (hpk : p ≠ k)
    (hnew : ∀ i < (pk.lastSubkey + 1).toNat,
      (reg.nameOf (pk.subkeys i)).map toLower ≠ key.name.map toLower)
    (hl : keyLinkName toLower reg k p = some reg') : Inv toLower reg' := by
  obtain ⟨pk', hli, rfl⟩ := keyLinkName_some hk hp hl
  have hsub := h.subkeys p pk hp
  obtain ⟨idx, hidx, hlo, hhi, hfind⟩ : ∃ idx ≤ (pk.lastSubkey + 1).toNat,
      (∀ i < idx, NameLt toLower (reg.nameOf (pk.subkeys i)) key.name) ∧
      (∀ i, idx ≤ i → i < (pk.lastSubkey + 1).toNat →
        NameLt toLower key.name (reg.nameOf (pk.subkeys i))) ∧
      (findSubkey toLower reg pk key.name).2.toNat = idx := by
    have hspec := findSubkey_spec hsub.last_ge hsub.sorted key.name
    generalize findSubkey toLower reg pk key.name = r at hspec ⊢
    cases hspec with
    | found i hi heq => exact absurd heq (hnew i hi)
    | missing idx hidx _ hlo hhi => exact ⟨idx, hidx, hlo, hhi, Int.toNat_natCast idx⟩
  rw [hfind] at hli
  have hge := hsub.last_ge
  have hn' : (pk'.lastSubkey + 1).toNat = (pk.lastSubkey + 1).toNat + 1 := by
    rw [hli.lastSubkey]
    omega
  have hnames : ∀ x, ((reg.setKey p pk').setKey k { key with parent := some p }).nameOf x =
      reg.nameOf x := relink_nameOf hk hp hli.entry
  have hold : ∀ i < (pk.lastSubkey + 1).toNat, pk.subkeys i ≠ k := fun i hi =>
    hsub.entry_ne hi hk (by rw [hpar]; simp)
  have hkeep : ∀ i < (pk.lastSubkey + 1).toNat,
      ∃ j < (pk'.lastSubkey + 1).toNat, pk'.subkeys j = pk.subkeys i := by
    intro i hi
    rw [hn', hli.subkeys]
    exact exists_insert_eq k hi
  have hat : pk'.subkeys idx = k := by
    rw [hli.subkeys]
    exact Function.update_self _ _ _
  have hsub' : SubkeysInv toLower ((reg.setKey p pk').setKey k { key with parent := some p }) p
      pk' := by
    have hcounts := grow_counts (by decide) hsub.last_lt hsub.nb hli.nbSubkeys
    refine ⟨by rw [hli.lastSubkey]; omega, by rw [hli.lastSubkey]; exact hcounts.1, hcounts.2,
      fun i j hij hj => ?_, fun i hi => ?_, fun w hw => ?_⟩
    · show NameLt toLower (((reg.setKey p pk').setKey k { key with parent := some p }).nameOf
        (pk'.subkeys i)) (((reg.setKey p pk').setKey k { key with parent := some p }).nameOf
        (pk'.subkeys j))
      rw [hnames, hnames, hli.subkeys]
      rw [hn'] at hj
      refine hsub.sorted.insert hidx (fun i hi => ?_) (fun i hi hin => ?_) i j hij hj
      · rw [nameOf_of_keys hk]
        exact hlo i hi
      · rw [nameOf_of_keys hk]
        exact hhi i hi hin
    · rw [hn'] at hi
      rw [hli.subkeys]
      rcases insert_cases hidx k hi with hki | ⟨i0, hi0, hcell⟩
      · rw [hki, keys_setKey_self]
        exact ⟨_, rfl, rfl⟩
      · rw [hcell]
        obtain ⟨c, hc, hcp⟩ := hsub.parent i0 hi0
        obtain ⟨c', hc', hcp'⟩ : ∃ c', ((reg.setKey p pk').setKey k
            { key with parent := some p }).keys (pk.subkeys i0) = some c' ∧ c'.parent = c.parent :=
          relink_parent hp hli.entry hc (hold i0 hi0)
        exact ⟨c', hc', hcp'.trans hcp⟩
    · rcases hli.wow with hw' | hw'
      · obtain ⟨i0, hi0, hw0⟩ := hsub.wow w (hw' ▸ hw)
        obtain ⟨j, hj, hcell⟩ := hkeep i0 hi0
        exact ⟨j, hj, hcell.trans hw0⟩
      · rw [hw'] at hw
        cases hw
        exact ⟨idx, by omega, hat⟩
  refine h.relink hk hp hpk hli.entry (by simp [hpk]) (fun j hj => by rw [hpar] at hj; cases hj)
    hsub' (fun q hq => ?_) (fun i hi _ => hkeep i hi)
  cases hq
  refine ⟨pk', ?_, idx, by omega, hat⟩
  rw [keys_setKey_ne _ _ hpk, keys_setKey_self]

/-- The parent's record after `key_unlink_name` took the key `k` out of its array at `index`. -/
structure UnlinkedFrom (pk pk' : RegKey) (index k : Nat) : Prop where
  entry : SameEntry pk pk'
  lastSubkey : pk'.lastSubkey = pk.lastSubkey - 1
  nbSubkeys : pk'.nbSubkeys = shrinkCount minSubkeys pk.nbSubkeys (pk.lastSubkey - 1)
  subkeys : pk'.subkeys =
    shiftDown pk.subkeys pk.lastSubkey.toNat (pk.lastSubkey.toNat - index) index
  wow : pk'.wow6432node = if pk.wow6432node = some k then none else pk.wow6432node

theorem keyUnlinkName_some (hk : reg.keys k = some key) (hl : keyUnlinkName reg k = some reg') :
    (key.parent = none ∧ reg' = reg) ∨ ∃ p pk pk', key.parent = some p ∧ reg.keys p = some pk ∧
      UnlinkedFrom pk pk' (indexOf pk.subkeys k (pk.lastSubkey + 1).toNat 0) k ∧
      reg' = (reg.setKey p pk').setKey k { key with parent := none } := by
  unfold keyUnlinkName at hl
  simp only [hk, Option.bind_eq_bind, Option.bind_some] at hl
  split at hl
  · rename_i hpar
    cases hl
    exact Or.inl ⟨hpar, rfl⟩
  · rename_i p hpar
    cases hp : reg.keys p with
    | none => simp [hp] at hl
    | some pk =>
      simp only [hp, Option.bind_some] at hl
      split at hl
      · cases hl
      · cases hl
        refine Or.inr ⟨p, pk, _, hpar, hp, ⟨⟨?_, ?_, ?_, ?_, ?_⟩, ?_, ?_, ?_, ?_⟩, rfl⟩ <;>
          split <;> rfl

/-- `key_unlink_name` keeps the invariant; under it the `assert` that the key is in its
parent's array holds. -/
theorem keyUnlinkName_inv (h : Inv toLower reg) (hl : keyUnlinkName reg k = some reg') :
    Inv toLower reg' := by
  cases hk : reg.keys k with
  | none =>
    unfold keyUnlinkName at hl
    simp [hk] at hl
  | some key =>
    rcases keyUnlinkName_some hk hl with ⟨_, rfl⟩ | ⟨p, pk, pk', hpar, hp, hun, rfl⟩
    · exact h
    obtain ⟨pk0, hpk0, i0, hi0, hki0⟩ := h.linked k key p hk hpar
    rw [hp] at hpk0
    cases hpk0
    have hsub := h.subkeys p pk hp
    have hpk : p ≠ k := fun hpk => h.parent_ne k key hk (hpk ▸ hpar)
    have hidx : indexOf pk.subkeys k (pk.lastSubkey + 1).toNat 0 = i0 :=
      indexOf_eq hi0 hki0 fun j hj hkj => hsub.injective hj hi0 (hkj.trans hki0.symm)
    rw [hidx] at hun
    have hge := hsub.last_ge
    have hn : (pk.lastSubkey + 1).toNat = pk.lastSubkey.toNat + 1 := by omega
    have hn' : (pk'.lastSubkey + 1).toNat = pk.lastSubkey.toNat := by
      rw [hun.lastSubkey]
      omega
    have hi0' : i0 ≤ pk.lastSubkey.toNat := by omega
    have hother : ∀ i < (pk.lastSubkey + 1).toNat, i ≠ i0 → pk.subkeys i ≠ k :=
      fun i hi hne hik => hne (hsub.injective hi hi0 (hik.trans hki0.symm))
    have hkeep : ∀ i < (pk.lastSubkey + 1).toNat, pk.subkeys i ≠ k →
        ∃ j < (pk'.lastSubkey + 1).toNat, pk'.subkeys j = pk.subkeys i := by
      intro i hi hik
      rw [hn', hun.subkeys]
      exact exists_remove_eq hi0' (by omega) fun hii => hik (hii ▸ hki0)
    have hsub' : SubkeysInv toLower ((reg.setKey p pk').setKey k { key with parent := none }) p
        pk' := by
      have hcounts := shrink_counts hsub.last_lt hsub.nb
      refine ⟨by rw [hun.lastSubkey]; omega, by rw [hun.lastSubkey, hun.nbSubkeys]; exact hcounts.1,
        by rw [hun.nbSubkeys]; exact hcounts.2, fun i j hij hj => ?_, fun i hi => ?_,
        fun w hw => ?_⟩
      · show NameLt toLower (((reg.setKey p pk').setKey k { key with parent := none }).nameOf
          (pk'.subkeys i)) (((reg.setKey p pk').setKey k { key with parent := none }).nameOf
          (pk'.subkeys j))
        rw [relink_nameOf hk hp hun.entry, relink_nameOf hk hp hun.entry, hun.subkeys]
        rw [hn'] at hj
        have hsorted := hsub.sorted
        rw [hn] at hsorted
        exact hsorted.remove hi0' i j hij hj
      · rw [hn'] at hi
        rw [hun.subkeys]
        obtain ⟨i1, hi1, hne, hcell⟩ := remove_cases hi0' hi
        rw [hcell]
        obtain ⟨c, hc, hcp⟩ := hsub.parent i1 (by omega)
        obtain ⟨c', hc', hcp'⟩ : ∃ c', ((reg.setKey p pk').setKey k
            { key with parent := none }).keys (pk.subkeys i1) = some c' ∧ c'.parent = c.parent :=
          relink_parent hp hun.entry hc (hother i1 (by omega) hne)
        exact ⟨c', hc', hcp'.trans hcp⟩
      · rw [hun.wow] at hw
        split at hw
        · cases hw
        · rename_i hwk
          obtain ⟨i1, hi1, hw1⟩ := hsub.wow w hw
          obtain ⟨j, hj, hcell⟩ := hkeep i1 hi1 (by rw [hw1]; rintro rfl; exact hwk hw)
          exact ⟨j, hj, hcell.trans hw1⟩
    exact h.relink hk hp hpk hun.entry (by simp) (fun j hj => by rw [hpar] at hj; cases hj; rfl)
      hsub' (fun q hq => by cases hq) hkeep

end Link

/-! ## Renaming -/

section Rename

variable {reg reg' : Registry} {k : Nat} {newName : List Nat} {now : Nat}

theorem renameKey_cases (hr : renameKey toLower reg k newName now = .ok reg') :
    ∃ key p pk index, reg.keys k = some key ∧ key.parent = some p ∧ reg.keys p = some pk ∧
      findSubkey toLower reg pk newName = (none, index) ∧
      reg' = touchKey ((reg.setKey p
        { pk with
          subkeys :=
            if indexOf pk.subkeys k (pk.lastSubkey + 1).toNat 0 < index.toNat then
              Function.update (shiftDown pk.subkeys (index.toNat - 1)
                (index.toNat - 1 - indexOf pk.subkeys k (pk.lastSubkey + 1).toNat 0)
                (indexOf pk.subkeys k (pk.lastSubkey + 1).toNat 0)) (index.toNat - 1) k
            else if index.toNat < indexOf pk.subkeys k (pk.lastSubkey + 1).toNat 0 then
              Function.update (shiftUp pk.subkeys index.toNat
                (indexOf pk.subkeys k (pk.lastSubkey + 1).toNat 0)) index.toNat k
            else Function.update pk.subkeys index.toNat k }).setKey k
        { key with name := newName }) k now := by
  unfold renameKey at hr
  simp only [bind, Except.bind, pure, Except.pure, throw, throwThe, MonadExceptOf.throw] at hr
  split at hr
  · rename_i key hk
    split at hr
    · cases hr
    · split at hr
      · rename_i p hpar
        split at hr
        · rename_i pk hp
          split at hr
          · cases hr
          · rename_i index hfind
            split at hr
            · cases hr
            · cases hr
              exact ⟨key, p, pk, index, hk, hpar, hp, hfind, rfl⟩
        · cases hr
      · cases hr
  · cases hr

theorem renameKey_inv (h : Inv toLower reg) (hr : renameKey toLower reg k newName now = .ok reg') :
    Inv toLower reg' := by
  obtain ⟨key, p, pk, index, hk, hpar, hp, hfind, rfl⟩ := renameKey_cases hr
  apply touchKey_inv
  have hsub := h.subkeys p pk hp
  obtain ⟨pk0, hpk0, i0, hi0, hki0⟩ := h.linked k key p hk hpar
  rw [hp] at hpk0
  cases hpk0
  have hpk : p ≠ k := fun hpk => h.parent_ne k key hk (hpk ▸ hpar)
  have hcur : indexOf pk.subkeys k (pk.lastSubkey + 1).toNat 0 = i0 :=
    indexOf_eq hi0 hki0 fun j hj hkj => hsub.injective hj hi0 (hkj.trans hki0.symm)
  have hspec := findSubkey_spec hsub.last_ge hsub.sorted newName
  rw [hfind] at hspec
  cases hspec with
  | missing idx hidx _ hlo hhi =>
  have hge := hsub.last_ge
  have hn : (pk.lastSubkey + 1).toNat = pk.lastSubkey.toNat + 1 := by omega
  rw [hn] at hidx hi0 hhi
  rw [hcur, Int.toNat_natCast, move_eq (by omega) hidx k]
  generalize hb : shiftDown pk.subkeys pk.lastSubkey.toNat (pk.lastSubkey.toNat - i0) i0 = b
  generalize hidx' : (if i0 < idx then idx - 1 else idx) = idx'
  have hidx'le : idx' ≤ pk.lastSubkey.toNat := by
    subst hidx'
    split <;> omega
  have hbcell : ∀ j, b j = if i0 ≤ j ∧ j < pk.lastSubkey.toNat then pk.subkeys (j + 1)
      else pk.subkeys j := by
    intro j
    rw [← hb, remove_apply _ (by omega)]
  have hbne : ∀ j < pk.lastSubkey.toNat, b j ≠ k := by
    intro j hj
    obtain ⟨i, hi, hne, hcell⟩ := remove_cases (a := pk.subkeys) (by omega : i0 ≤ pk.lastSubkey.toNat) hj
    rw [← hb, hcell]
    exact fun hik => hne (hsub.injective (by omega) (by omega) (hik.trans hki0.symm))
  have hrem : SortedUpTo (fun a b => NameLt toLower (reg.nameOf a) (reg.nameOf b)) b
      pk.lastSubkey.toNat := by
    have hsorted := hsub.sorted
    rw [hn] at hsorted
    rw [← hb]
    exact hsorted.remove (by omega)
  have hkeep : ∀ i < pk.lastSubkey.toNat + 1, ∃ j < pk.lastSubkey.toNat + 1,
      Function.update (shiftUp b idx' pk.lastSubkey.toNat) idx' k j = pk.subkeys i := by
    intro i hi
    by_cases hii : i = i0
    · subst hii
      exact ⟨idx', by omega, by rw [Function.update_self, hki0]⟩
    · obtain ⟨j1, hj1, hcell⟩ := exists_remove_eq (a := pk.subkeys) (by omega : i0 ≤ _) hi hii
      rw [hb] at hcell
      obtain ⟨j, hj, hcell'⟩ := exists_insert_eq (a := b) k hj1
      exact ⟨j, hj, hcell'.trans hcell⟩
  have hpe : SameEntry pk
      { pk with subkeys := Function.update (shiftUp b idx' pk.lastSubkey.toNat) idx' k } :=
    ⟨rfl, rfl, rfl, rfl, rfl⟩
  refine h.relink hk hp hpk hpe (by rw [hpar]; simp [hpk]) (fun j hj => by rw [hpar] at hj; cases hj; rfl)
    ?_ (fun q hq => ?_) (fun i hi _ => by rw [hn] at hi ⊢; exact hkeep i hi)
  · refine ⟨hsub.last_ge, hsub.last_lt, hsub.nb, ?_, fun i hi => ?_, fun w hw => ?_⟩
    · show SortedUpTo _ (Function.update (shiftUp b idx' _) idx' k) (pk.lastSubkey + 1).toNat
      rw [hn]
      refine SortedUpTo.insert ?_ hidx'le ?_ ?_
      · intro i j hij hj
        rw [relink_nameOf_ne hp hpe (hbne i (by omega)), relink_nameOf_ne hp hpe (hbne j hj)]
        exact hrem i j hij hj
      · intro i hi
        rw [relink_nameOf_ne hp hpe (hbne i (by omega)), nameOf_setKey, if_pos rfl, hbcell]
        split_ifs
        · exact hlo (i + 1) (by subst hidx'; split at hi <;> omega)
        · exact hlo i (by subst hidx'; split at hi <;> omega)
      · intro i hi hin
        rw [relink_nameOf_ne hp hpe (hbne i hin), nameOf_setKey, if_pos rfl, hbcell]
        split_ifs
        · exact hhi (i + 1) (by subst hidx'; split at hi <;> omega) (by omega)
        · exact hhi i (by subst hidx'; split at hi <;> omega) (by omega)
    · dsimp only
      rw [hn] at hi
      rcases insert_cases (a := b) hidx'le k hi with hki | ⟨i1, hi1, hcell⟩
      · rw [hki, keys_setKey_self]
        exact ⟨_, rfl, hpar⟩
      · obtain ⟨i2, hi2, hne, hcell'⟩ := remove_cases (a := pk.subkeys) (by omega : i0 ≤ _) hi1
        rw [hb] at hcell'
        obtain ⟨c, hc, hcp⟩ := hsub.parent i2 (by omega)
        obtain ⟨c', hc', hcp'⟩ := relink_parent hp hpe hc
          (fun hik => hne (hsub.injective (by omega) (by omega) (hik.trans hki0.symm)))
        refine ⟨c', ?_, hcp'.trans hcp⟩
        rw [hcell, hcell']
        exact hc'
    · obtain ⟨i1, hi1, hw1⟩ := hsub.wow w hw
      rw [hn] at hi1
      obtain ⟨j, hj, hcell⟩ := hkeep i1 hi1
      exact ⟨j, by rw [hn]; exact hj, hcell.trans hw1⟩
  · rw [hpar] at hq
    cases hq
    obtain ⟨j, hj, hcell⟩ := hkeep i0 hi0
    refine ⟨{ pk with subkeys := Function.update (shiftUp b idx' pk.lastSubkey.toNat) idx' k }, ?_, j,
      by rw [hn]; exact hj, hcell.trans hki0⟩
    rw [keys_setKey_ne _ _ hpk, keys_setKey_self]

end Rename

/-! ## Creating and deleting keys -/

section Create

variable {reg : Registry}

theorem valuesInv_init (name : List Nat) (modif : Nat) :
    ValuesInv toLower (RegKey.init name modif) :=
  ⟨by simp [RegKey.init], by simp [RegKey.init], Or.inl rfl,
    fun _ _ _ hj => absurd hj (by simp [RegKey.init])⟩

theorem subkeysInv_init (reg : Registry) (k : Nat) (name : List Nat) (modif : Nat) :
    SubkeysInv toLower reg k (RegKey.init name modif) :=
  ⟨by simp [RegKey.init], by simp [RegKey.init], Or.inl rfl,
    fun _ _ _ hj => absurd hj (by simp [RegKey.init]), fun _ hi => absurd hi (by simp [RegKey.init]),
    fun _ hw => by cases hw⟩

theorem Inv.alloc (h : Inv toLower reg) {reg1 : Registry} {name : List Nat} {modif : Nat}
    (hkeys : ∀ x, reg1.keys x = if x = reg.next then some (RegKey.init name modif) else reg.keys x)
    (hnext : reg1.next = reg.next + 1) : Inv toLower reg1 := by
  have hne : ∀ {x c}, reg.keys x = some c → x ≠ reg.next := fun hx => Nat.ne_of_lt (h.lt_next hx)
  have hold : ∀ {x c}, reg.keys x = some c → reg1.keys x = some c := by
    intro x c hx
    rw [hkeys, if_neg (hne hx)]
    exact hx
  refine ⟨fun x c hx => ?_, fun x c hx => ?_, fun x c q hx hq => ?_, fun x c hx => ?_,
    fun x hx => ?_⟩
  · rw [hkeys] at hx
    split at hx
    · cases hx
      exact valuesInv_init name modif
    · exact h.values x c hx
  · rw [hkeys] at hx
    split at hx
    · cases hx
      exact subkeysInv_init _ _ name modif
    · refine (h.subkeys x c hx).congr (fun i hi => ?_) (fun i _ c' hc' => ⟨c', hold hc', rfl⟩)
      obtain ⟨c', hc', _⟩ := (h.subkeys x c hx).parent i hi
      rw [nameOf_of_keys hc', nameOf_of_keys (hold hc')]
  · rw [hkeys] at hx
    split at hx
    · cases hx
      cases hq
    · obtain ⟨qc, hqc, i, hi, hqi⟩ := h.linked x c q hx hq
      exact ⟨qc, hold hqc, i, hi, hqi⟩
  · rw [hkeys] at hx
    split at hx
    · cases hx
      simp [RegKey.init]
    · exact h.parent_ne x c hx
  · rw [hkeys, if_neg (by omega)]
    exact h.fresh x (by omega)

theorem createKeyObject_inv (h : Inv toLower reg) (p : Nat) (name : List Nat) (openif : Bool)
    (options modif : Nat) : Inv toLower (createKeyObject toLower reg p name openif options modif).1 := by
  unfold createKeyObject
  split
  · exact h
  · rename_i pk hp
    split
    · exact h
    · split
      · exact h
      · split
        · split <;> exact h
        · rename_i index hfind
          dsimp only
          generalize hreg1 :
            ({ keys := Function.update reg.keys reg.next (some (RegKey.init name modif)),
               next := reg.next + 1 } : Registry) = reg1
          have hkeys : ∀ x, reg1.keys x =
              if x = reg.next then some (RegKey.init name modif) else reg.keys x := by
            intro x
            rw [← hreg1]
            exact Function.update_apply ..
          have h1 : Inv toLower reg1 := h.alloc hkeys (by rw [← hreg1])
          have hsub := h.subkeys p pk hp
          have hpn : p ≠ reg.next := Nat.ne_of_lt (h.lt_next hp)
          have hnew : ∀ i < (pk.lastSubkey + 1).toNat, (reg1.nameOf (pk.subkeys i)).map toLower ≠
              (RegKey.init name modif).name.map toLower := by
            intro i hi
            have hspec := findSubkey_spec hsub.last_ge hsub.sorted name
            rw [hfind] at hspec
            obtain ⟨c, hc, _⟩ := hsub.parent i hi
            have hc1 : reg1.keys (pk.subkeys i) = some c := by
              rw [hkeys, if_neg (Nat.ne_of_lt (h.lt_next hc))]
              exact hc
            rw [nameOf_of_keys hc1, ← nameOf_of_keys hc]
            cases hspec with
            | missing idx _ hne _ _ => exact hne i hi
          split
          · exact h1
          · rename_i reg2 hl
            have h2 := keyLinkName_inv h1 (by rw [hkeys, if_pos rfl]) rfl
              (by rw [hkeys, if_neg hpn]; exact hp) hpn hnew hl
            split
            · exact h2
            · rename_i key hk2
              split
              · exact h2.setKey_same hk2 ⟨rfl, rfl, rfl, rfl, rfl, rfl⟩ rfl rfl rfl
              · split
                · split
                  · exact h2
                  · rename_i reg3 hu
                    exact keyUnlinkName_inv h2 hu
                · exact h2.setKey_same hk2 ⟨rfl, rfl, rfl, rfl, rfl, rfl⟩ rfl rfl rfl

end Create

section Delete

variable {reg : Registry}

theorem foldl_preserves {α β : Type} {P : β → Prop} {f : β → α → β}
    (hf : ∀ b a, P b → P (f b a)) : ∀ (l : List α) (b : β), P b → P (l.foldl f b) := by
  intro l
  induction l with
  | nil => intro b hb; exact hb
  | cons a l ih => intro b hb; exact ih (f b a) (hf b a hb)

theorem deleteLastSubkey_inv {del : Registry → Nat → Registry × Except NtStatus Unit}
    (hdel : ∀ reg c, Inv toLower reg → Inv toLower (del reg c).1) (k : Nat)
    {acc : Registry × Except NtStatus Unit} (h : Inv toLower acc.1) :
    Inv toLower (deleteLastSubkey del k acc).1 := by
  unfold deleteLastSubkey
  split
  · exact h
  · split
    · split
      · exact hdel _ _ h
      · exact h
    · exact h

/-- `delete_key`, its loop over the subkeys included, keeps the invariant, whatever error
stops it. -/
theorem deleteKey_inv : ∀ (fuel : Nat) {reg : Registry} (k : Nat) (recurse : Bool) (now : Nat),
    Inv toLower reg → Inv toLower (deleteKey fuel reg k recurse now).1 := by
  intro fuel
  induction fuel with
  | zero => intro reg k recurse now h; exact h
  | succ fuel ih =>
    intro reg k recurse now h
    unfold deleteKey
    split
    · exact h
    · rename_i key hk
      split
      · exact h
      · split
        · exact h
        · rename_i p hpar
          split
          · exact h
          · have hsub : ∀ {sd : Registry × Except NtStatus Unit},
                (if recurse = true then (List.range (key.lastSubkey + 1).toNat).foldl
                  (fun acc _ => deleteLastSubkey (fun reg c => deleteKey fuel reg c true now) k acc)
                  (reg, .ok ())
                else if 0 ≤ key.lastSubkey then (reg, .error .accessDenied) else (reg, .ok ())) = sd →
                Inv toLower sd.1 := by
              intro sd hsd
              subst hsd
              split
              · exact foldl_preserves (P := fun acc : Registry × Except NtStatus Unit => Inv toLower acc.1)
                  (fun b _ hb => deleteLastSubkey_inv (fun reg c hr => ih c true now hr) k hb) _ _ h
              · split <;> exact h
            dsimp only
            split
            · rename_i reg' e hsd
              exact hsub hsd
            · rename_i reg' hsd
              have h' := hsub hsd
              split
              · exact h'
              · rename_i key' hk'
                split
                · exact h'
                · rename_i reg'' hu
                  have hset : Inv toLower (reg'.setKey k { key' with flags := key'.flags ||| keyDeleted }) :=
                    h'.setKey_same hk' ⟨rfl, rfl, rfl, rfl, rfl, rfl⟩ rfl rfl rfl
                  exact touchKey_inv (keyUnlinkName_inv hset hu) p now

end Delete

/-! ## Every reachable store -/

/-- The stores that `create_key_object`, `delete_key`, `rename_key`, `set_value`,
`delete_value` and `load_value` reach from the root key alone. A request that fails before it
changes anything leaves no new store; the two that can fail half way return one with the
error. -/
inductive Registry.Reachable (toLower : Nat → Nat) : Registry → Prop
  | root (name : List Nat) (modif : Nat) :
      Registry.Reachable toLower
        { keys := Function.update (fun _ => none) 0 (some (RegKey.init name modif)), next := 1 }
  | createKey {reg : Registry} (p : Nat) (name : List Nat) (openif : Bool) (options modif : Nat) :
      Registry.Reachable toLower reg →
        Registry.Reachable toLower (createKeyObject toLower reg p name openif options modif).1
  | deleteKey {reg : Registry} (fuel k : Nat) (recurse : Bool) (now : Nat) :
      Registry.Reachable toLower reg → Registry.Reachable toLower (deleteKey fuel reg k recurse now).1
  | renameKey {reg reg' : Registry} {k : Nat} {newName : List Nat} {now : Nat} :
      Registry.Reachable toLower reg → renameKey toLower reg k newName now = .ok reg' →
        Registry.Reachable toLower reg'
  | setValue {reg reg' : Registry} {k : Nat} {name : List Nat} {type : Nat} {data : List Nat}
      {now : Nat} :
      Registry.Reachable toLower reg → setValue toLower reg k name type data now = .ok reg' →
        Registry.Reachable toLower reg'
  | deleteValue {reg reg' : Registry} {k : Nat} {name : List Nat} {now : Nat} :
      Registry.Reachable toLower reg → deleteValue toLower reg k name now = .ok reg' →
        Registry.Reachable toLower reg'
  | loadValue {reg : Registry} {k : Nat} {key key' : RegKey} {name : List Nat} {type : Nat}
      {data : List Nat} :
      Registry.Reachable toLower reg → reg.keys k = some key →
        loadValueData toLower key name type data = .ok key' → Registry.Reachable toLower (reg.setKey k key')

section Reach

theorem inv_root (name : List Nat) (modif : Nat) :
    Inv toLower
      { keys := Function.update (fun _ => none) 0 (some (RegKey.init name modif)), next := 1 } := by
  have hempty : Inv toLower { keys := fun _ => none, next := 0 } :=
    ⟨fun _ _ h => absurd h (by simp), fun _ _ h => absurd h (by simp),
      fun _ _ _ h => absurd h (by simp), fun _ _ h => absurd h (by simp), fun _ _ => rfl⟩
  have hkeys : ∀ x, Function.update (fun _ => none) 0 (some (RegKey.init name modif)) x =
      if x = 0 then some (RegKey.init name modif) else none := fun x => Function.update_apply ..
  exact hempty.alloc hkeys rfl

theorem Registry.Reachable.inv {reg : Registry} (h : Registry.Reachable toLower reg) : Inv toLower reg := by
  induction h with
  | root name modif => exact inv_root name modif
  | createKey p name openif options modif _ ih => exact createKeyObject_inv ih p name openif options modif
  | deleteKey fuel k recurse now _ ih => exact deleteKey_inv fuel k recurse now ih
  | renameKey _ hr ih => exact renameKey_inv ih hr
  | setValue _ hs ih => exact setValue_inv ih hs
  | deleteValue _ hd ih => exact deleteValue_inv ih hd
  | loadValue _ hk hl ih =>
    obtain ⟨hv, ht⟩ := loadValueData_valuesInv (ih.values _ _ hk) hl
    exact ih.setKey_of_sameTree hk ht hv

/-- In every store the requests reach, every key keeps its subkeys and its values strictly
sorted in the order of `find_subkey` and `find_value`, below their allocated counts, each
subkey with the key as its parent and `wow6432node` among them; and the two searches find an
entry exactly when one has a name equal through the case map, ending otherwise at the index
where inserting the name keeps the order. -/
theorem reachable_arrays_sorted {reg : Registry} (h : Registry.Reachable toLower reg) :
    Inv toLower reg ∧ ∀ k key, reg.keys k = some key → ∀ name : List Nat,
      SearchSpec toLower (fun i => reg.nameOf (key.subkeys i)) key.subkeys
        (key.lastSubkey + 1).toNat name (findSubkey toLower reg key name) ∧
      SearchSpec toLower (fun i => (key.values i).name) id (key.lastValue + 1).toNat name
        (findValue toLower key name) := by
  have hinv := h.inv
  refine ⟨hinv, fun k key hk name => ⟨?_, findValue_spec (hinv.values k key hk) name⟩⟩
  have hsub := hinv.subkeys k key hk
  exact findSubkey_spec hsub.last_ge hsub.sorted name

theorem created_key_arrays_sorted :
    Inv id (createKeyObject id
        { keys := Function.update (fun _ => none) 0 (some (RegKey.init [] 0)), next := 1 }
        0 ['a'.toNat] false 0 0).1 ∧
      ∀ k key, (createKeyObject id
          { keys := Function.update (fun _ => none) 0 (some (RegKey.init [] 0)), next := 1 }
          0 ['a'.toNat] false 0 0).1.keys k = some key → ∀ name : List Nat,
        SearchSpec id (fun i => (createKeyObject id
            { keys := Function.update (fun _ => none) 0 (some (RegKey.init [] 0)), next := 1 }
            0 ['a'.toNat] false 0 0).1.nameOf (key.subkeys i)) key.subkeys
          (key.lastSubkey + 1).toNat name (findSubkey id (createKeyObject id
            { keys := Function.update (fun _ => none) 0 (some (RegKey.init [] 0)), next := 1 }
            0 ['a'.toNat] false 0 0).1 key name) ∧
        SearchSpec id (fun i => (key.values i).name) id (key.lastValue + 1).toNat name
          (findValue id key name) :=
  reachable_arrays_sorted (.createKey 0 ['a'.toNat] false 0 0 (.root [] 0))

end Reach

end Wine.Server
