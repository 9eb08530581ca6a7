import Wine.Server.Handle
import Wine.Lib.SlotMap

/-! The invariant of a handle table and the slot map it stands for. Slot `i` holds entry `i`
when `i ≤ last` and the entry has an object; `free` is a lower bound of the free slots. The
table operations of `handle.c` keep the invariant, and allocation takes the lowest free slot
of the slot map. -/

namespace Wine.Server

open Mem

set_option autoImplicit false

/-- The object of entry `i`, `NULL` outside the array. -/
def objAt (entries : List HandleEntry) (i : Nat) : Option Nat := entries[i]?.bind HandleEntry.ptr

theorem objAt_of_lt {entries : List HandleEntry} {i : Nat} (h : i < entries.length) :
    objAt entries i = entries[i].ptr := by
  simp [objAt, List.getElem?_eq_getElem h]

namespace HandleTable

def slot (t : HandleTable) (i : Nat) : Option HandleEntry :=
  if (i : Int) ≤ t.last then t.entries[i]?.filter fun e => e.ptr.isSome else none

theorem slot_eq_none_of_lt {t : HandleTable} {i : Nat} (h : t.last < i) : t.slot i = none := by
  simp [slot, not_le.mpr h]

theorem slot_of_le {t : HandleTable} {i : Nat} (h : (i : Int) ≤ t.last) :
    t.slot i = t.entries[i]?.filter fun e => e.ptr.isSome := by
  simp [slot, h]

theorem slot_ne_none_iff {t : HandleTable} {i : Nat} :
    t.slot i ≠ none ↔ (i : Int) ≤ t.last ∧ objAt t.entries i ≠ none := by
  unfold slot objAt
  by_cases h : (i : Int) ≤ t.last
  · cases t.entries[i]? with
    | none => simp
    | some e => cases hp : e.ptr <;> simp [h, hp, Option.filter]
  · simp [h]

theorem slot_congr {t t' : HandleTable} (hlast : t'.last = t.last)
    (h : ∀ i : Nat, (i : Int) ≤ t.last → t'.entries[i]? = t.entries[i]?) : t'.slot = t.slot := by
  funext i
  by_cases hi : (i : Int) ≤ t.last
  · rw [slot_of_le (hlast ▸ hi), slot_of_le hi, h i hi]
  · rw [slot_eq_none_of_lt (by omega), slot_eq_none_of_lt (by omega)]

def view (t : HandleTable) : SlotMap HandleEntry where
  get := t.slot
  finite := ⟨(t.last + 1).toNat, fun _ hi => slot_eq_none_of_lt (by omega)⟩

@[simp] theorem view_get (t : HandleTable) (i : Nat) : t.view.get i = t.slot i := rfl

structure Inv (t : HandleTable) : Prop where
  length : t.entries.length = t.count
  count_ge : minHandleEntries ≤ t.count
  count_le : t.count ≤ maxHandleEntries
  last_ge : -1 ≤ t.last
  last_lt : t.last < t.count
  free_le : (t.free : Int) ≤ t.last + 1
  used : ∀ i < t.free, t.slot i ≠ none

theorem inv_of_free_eq_zero {t : HandleTable} (hlen : t.entries.length = t.count)
    (hge : minHandleEntries ≤ t.count) (hle : t.count ≤ maxHandleEntries) (hlast : -1 ≤ t.last)
    (hlast' : t.last < t.count) (hfree : t.free = 0) : t.Inv :=
  ⟨hlen, hge, hle, hlast, hlast', by rw [hfree]; omega, fun i hi => absurd hi (by omega)⟩

theorem Inv.free_isLeastFree_of_used {t : HandleTable} (h : t.Inv) {i : Nat}
    (hused : ∀ j, t.free ≤ j → j < i → t.slot j ≠ none) (hi : t.slot i = none) :
    t.view.IsLeastFree i := by
  refine ⟨hi, fun j hj => ?_⟩
  by_cases hjf : j < t.free
  · exact h.used j hjf
  · exact hused j (by omega) hj

theorem allocHandleTable_inv (count : Nat) (h : count ≤ maxHandleEntries) :
    (allocHandleTable count).Inv where
  length := by simp [allocHandleTable]
  count_ge := le_max_right _ _
  count_le := max_le h (by decide)
  last_ge := le_rfl
  last_lt := by
    show (-1 : Int) < max count minHandleEntries
    omega
  free_le := by simp [allocHandleTable]
  used := fun _ hi => absurd hi (Nat.not_lt_zero _)

theorem view_allocHandleTable (count : Nat) : (allocHandleTable count).view = .empty := by
  ext1 i
  rw [view_get, SlotMap.get_empty]
  exact slot_eq_none_of_lt (t := allocHandleTable count) (show (-1 : Int) < (i : Int) by omega)

/-! ### Reallocation and growth -/

@[simp] theorem length_reallocEntries (entries : List HandleEntry) (count : Nat) :
    (reallocEntries entries count).length = count := by
  simp only [reallocEntries, List.length_append, List.length_take, List.length_replicate]
  omega

theorem getElem?_reallocEntries {entries : List HandleEntry} {count i : Nat} (hi : i < count)
    (hlen : i < entries.length) : (reallocEntries entries count)[i]? = entries[i]? := by
  have hi' : i < (entries.take count).length := by simp [hi, hlen]
  rw [reallocEntries, List.getElem?_append_left hi', List.getElem?_take_of_lt hi]

theorem slot_resize {t : HandleTable} (h : t.Inv) {count : Nat} (hcount : t.last < count) :
    (t.resize count).slot = t.slot := by
  have := h.last_lt
  exact slot_congr (t := t) rfl fun i hi =>
    getElem?_reallocEntries (by omega) (by rw [h.length]; omega)

theorem resize_spec {t : HandleTable} (h : t.Inv) {count : Nat} (hlast : t.last < count)
    (hge : minHandleEntries ≤ count) (hle : count ≤ maxHandleEntries) :
    (t.resize count).Inv ∧ (t.resize count).view = t.view := by
  have hslot := slot_resize h hlast
  refine ⟨⟨by simp [resize], hge, hle, h.last_ge, hlast, h.free_le, fun i hi => ?_⟩, ?_⟩
  · rw [hslot]
    exact h.used i hi
  · ext1 i
    simp [hslot]

theorem growHandleTable_spec {t t' : HandleTable} (h : t.Inv) (hg : growHandleTable t = some t') :
    t'.Inv ∧ t.count < t'.count ∧ t'.last = t.last ∧ t'.view = t.view := by
  unfold growHandleTable at hg
  dsimp only at hg
  split at hg
  · cases hg
  · cases hg
    have hge := h.count_ge
    have hle := h.count_le
    have hlt := h.last_lt
    unfold minHandleEntries at hge
    have hcount : t.count < min (t.count * 2) maxHandleEntries := by omega
    obtain ⟨hinv, hview⟩ := resize_spec h
      (show t.last < ((min (t.count * 2) maxHandleEntries : Nat) : Int) by omega)
      (le_trans h.count_ge hcount.le) (min_le_right _ _)
    exact ⟨hinv, hcount, rfl, hview⟩

/-! ### The free-entry scan of `alloc_entry` -/

/-- What the scan of the `n` entries from `i` finds: every entry it passes is in use, and it
stops either at an unused entry or after the last one. -/
structure FreeScan (entries : List HandleEntry) (i n : Nat) (r : Bool × Nat) : Prop where
  le : i ≤ r.2
  used : ∀ j, i ≤ j → j < r.2 → objAt entries j ≠ none
  found : r.1 = true → r.2 < i + n ∧ objAt entries r.2 = none
  notFound : r.1 = false → r.2 = i + n

theorem findFreeEntry_spec (entries : List HandleEntry) (n : Nat) :
    ∀ i, i + n ≤ entries.length → Returns (findFreeEntry entries i n) (FreeScan entries i n) := by
  induction n with
  | zero =>
    intro i _
    exact Returns.pure ⟨le_rfl, fun j h1 h2 => absurd h2 (by omega), (fun h => by cases h), fun _ => rfl⟩
  | succ n ih =>
    intro i hlen
    unfold findFreeEntry
    apply Returns.bind (returns_load (by omega) rfl)
    rintro e rfl
    by_cases hp : entries[i].ptr = none
    · rw [if_pos hp]
      refine Returns.pure ⟨le_rfl, fun j h1 h2 => absurd h2 (by omega), fun _ => ⟨by omega, ?_⟩,
        (fun h => by cases h)⟩
      show objAt entries i = none
      rw [objAt_of_lt (by omega), hp]
    · rw [if_neg hp]
      apply (ih (i + 1) (by omega)).mono
      intro r hr
      refine ⟨by have := hr.le; omega, fun j h1 h2 => ?_, fun hf => ?_, fun hf => ?_⟩
      · by_cases hj : j = i
        · subst hj
          rw [objAt_of_lt (by omega)]
          exact hp
        · exact hr.used j (by omega) h2
      · obtain ⟨hlt, hnone⟩ := hr.found hf
        exact ⟨by omega, hnone⟩
      · rw [hr.notFound hf]
        omega

theorem FreeScan.isLeastFree {t : HandleTable} (h : t.Inv) {r : Bool × Nat}
    (hr : FreeScan t.entries t.free (t.last + 1 - t.free).toNat r) : t.view.IsLeastFree r.2 := by
  have hfree := h.free_le
  apply h.free_isLeastFree_of_used
  · intro j hj hjr
    refine slot_ne_none_iff.mpr ⟨?_, hr.used j hj hjr⟩
    cases hb : r.1
    · have := hr.notFound hb
      omega
    · have := (hr.found hb).1
      omega
  · cases hb : r.1
    · exact slot_eq_none_of_lt (by have := hr.notFound hb; omega)
    · by_contra hne
      exact (slot_ne_none_iff.mp hne).2 (hr.found hb).2

theorem FreeScan.le_last {t : HandleTable} (h : t.Inv) {r : Bool × Nat}
    (hr : FreeScan t.entries t.free (t.last + 1 - t.free).toNat r) : (r.2 : Int) ≤ t.last + 1 ∧
      (r.1 = true → (r.2 : Int) ≤ t.last) ∧ (r.1 = false → (r.2 : Int) = t.last + 1) := by
  have hfree := h.free_le
  cases hb : r.1
  · have := hr.notFound hb
    exact ⟨by omega, (fun h => by cases h), fun _ => by omega⟩
  · have := (hr.found hb).1
    exact ⟨by omega, (fun _ => by omega), fun h => by cases h⟩

/-! ### Writing an entry -/

theorem slot_set {t : HandleTable} {i : Nat} {e : HandleEntry} {last : Int}
    (hi : (i : Int) ≤ t.last + 1) (hlen : i < t.entries.length) (hlast : last = max t.last i)
    (f : Nat) (j : Nat) :
    ({ t with last := last, free := f, entries := t.entries.set i e } : HandleTable).slot j =
      if j = i then (some e).filter (fun e => e.ptr.isSome) else t.slot j := by
  by_cases hj : j = i
  · subst hj
    rw [if_pos rfl, slot_of_le (by simp only; omega)]
    simp [hlen]
  · rw [if_neg hj]
    by_cases hjl : (j : Int) ≤ t.last
    · rw [slot_of_le (by simp only; omega), slot_of_le hjl]
      simp only
      rw [List.getElem?_set_ne (Ne.symm hj)]
    · rw [slot_eq_none_of_lt (by simp only; omega), slot_eq_none_of_lt (by omega)]

theorem view_set {t : HandleTable} {i : Nat} {e : HandleEntry} {last : Int}
    (hi : (i : Int) ≤ t.last + 1) (hlen : i < t.entries.length) (hlast : last = max t.last i)
    (f : Nat) :
    ({ t with last := last, free := f, entries := t.entries.set i e } : HandleTable).view =
      t.view.set i ((some e).filter fun e => e.ptr.isSome) := by
  ext1 j
  rw [view_get, slot_set hi hlen hlast, SlotMap.get_set]
  rfl

theorem inv_fill {t : HandleTable} (h : t.Inv) {i : Nat} (hleast : t.view.IsLeastFree i)
    (hi : (i : Int) ≤ t.last + 1) (hcount : i < t.count) {last : Int} (hlast : last = max t.last i)
    {e : HandleEntry} (he : e.ptr.isSome) :
    ({ t with last := last, free := i + 1, entries := t.entries.set i e } : HandleTable).Inv ∧
      ({ t with last := last, free := i + 1, entries := t.entries.set i e } : HandleTable).view =
        t.view.set i (some e) := by
  subst hlast
  have hlen : i < t.entries.length := h.length ▸ hcount
  have hview := view_set (e := e) hi hlen rfl (i + 1)
  rw [Option.filter_some, if_pos he] at hview
  refine ⟨⟨by simp [h.length], h.count_ge, h.count_le, ?_, ?_, ?_, fun j hj => ?_⟩, hview⟩
  · have := h.last_ge
    simp only
    omega
  · have := h.last_lt
    simp only
    omega
  · simp only
    omega
  · have hslot := congrArg (fun m => m.get j) hview
    simp only [view_get] at hslot
    rw [hslot, SlotMap.get_set]
    have hj' : j < i + 1 := hj
    by_cases hji : j = i
    · simp [hji]
    · rw [if_neg hji]
      exact hleast.2 j (by omega)

/-! ### Shrinking -/

theorem trimLast_spec (entries : List HandleEntry) (n : Nat) (h : n ≤ entries.length) :
    Returns (trimLast entries n) fun r =>
      -1 ≤ r ∧ r < n ∧ ∀ j : Nat, r < j → j < n → objAt entries j = none := by
  induction n with
  | zero => exact Returns.pure ⟨le_rfl, by omega, fun j _ hj => absurd hj (by omega)⟩
  | succ n ih =>
    unfold trimLast
    apply Returns.bind (returns_load (by omega) rfl)
    rintro e rfl
    by_cases hp : entries[n].ptr = none
    · rw [if_pos hp]
      apply (ih (by omega)).mono
      rintro r ⟨hge, hlt, hnone⟩
      refine ⟨hge, by omega, fun j hj1 hj2 => ?_⟩
      by_cases hjn : j = n
      · subst hjn
        rw [objAt_of_lt (by omega), hp]
      · exact hnone j hj1 (by omega)
    · rw [if_neg hp]
      exact Returns.pure ⟨by omega, by omega, fun j hj1 hj2 => absurd hj2 (by omega)⟩

theorem trim_spec {t : HandleTable} (h : t.Inv) {last : Int} (hge : -1 ≤ last) (hle : last ≤ t.last)
    (hnone : ∀ j : Nat, last < j → (j : Int) ≤ t.last → objAt t.entries j = none) :
    ({ t with last := last } : HandleTable).Inv ∧ ({ t with last := last } : HandleTable).view = t.view := by
  have hslot : ({ t with last := last } : HandleTable).slot = t.slot := by
    funext j
    by_cases hj : (j : Int) ≤ last
    · rw [slot_of_le hj, slot_of_le (by omega)]
    · rw [slot_eq_none_of_lt (by simp only; omega)]
      by_cases hjt : (j : Int) ≤ t.last
      · by_contra hne
        exact (slot_ne_none_iff.mp (Ne.symm hne)).2 (hnone j (by omega) hjt)
      · exact (slot_eq_none_of_lt (by omega)).symm
  have hfree : (t.free : Int) ≤ last + 1 := by
    by_contra hlt
    have hused := h.used (t.free - 1) (by omega)
    have hfl := h.free_le
    exact (slot_ne_none_iff.mp hused).2 (hnone _ (by omega) (by omega))
  refine ⟨⟨h.length, h.count_ge, h.count_le, hge, by have := h.last_lt; simp only; omega, hfree,
    fun i hi => hslot ▸ h.used i hi⟩, ?_⟩
  ext1 j
  simp [hslot]

theorem shrinkHandleTable_spec {t : HandleTable} (h : t.Inv) :
    Returns (shrinkHandleTable t) fun t' => t'.Inv ∧ t'.view = t.view := by
  unfold shrinkHandleTable
  have hlen := h.length
  have hlt := h.last_lt
  have hge := h.last_ge
  apply Returns.bind (trimLast_spec t.entries (t.last + 1).toNat (by omega))
  rintro last ⟨hr1, hr2, hr3⟩
  obtain ⟨hinv, hview⟩ := trim_spec h hr1 (by omega) fun j hj1 hj2 => hr3 j hj1 (by omega)
  dsimp only
  split
  · exact Returns.pure ⟨hinv, hview⟩
  · rename_i hq
    split
    · exact Returns.pure ⟨hinv, hview⟩
    · rename_i hsmall
      unfold minHandleEntries at hsmall
      have hle := h.count_le
      obtain ⟨hinv', hview'⟩ := resize_spec hinv
        (show last < ((t.count / 2 : Nat) : Int) by omega)
        (by unfold minHandleEntries; omega) (by omega)
      exact Returns.pure ⟨hinv', hview'.trans hview⟩

/-! ### Changing and clearing an entry -/

theorem slot_eq_some_iff {t : HandleTable} {i : Nat} {e : HandleEntry} :
    t.slot i = some e ↔ (i : Int) ≤ t.last ∧ t.entries[i]? = some e ∧ e.ptr.isSome := by
  unfold slot
  by_cases h : (i : Int) ≤ t.last
  · cases he : t.entries[i]? with
    | none => simp [h]
    | some e' =>
      by_cases hp : e'.ptr.isSome
      · simp only [h, hp, Option.filter, if_true, Option.some.injEq, true_and]
        constructor
        · rintro rfl
          exact ⟨rfl, hp⟩
        · exact fun h => h.1
      · simp [h, hp, Option.filter]
        rintro rfl
        simpa using hp
  · simp [h]

theorem setAccess_spec {t : HandleTable} (h : t.Inv) {i : Nat} {e : HandleEntry}
    (hslot : t.slot i = some e) (e' : HandleEntry) (hp : e'.ptr = e.ptr) :
    ({ t with entries := t.entries.set i e' } : HandleTable).Inv ∧
      ({ t with entries := t.entries.set i e' } : HandleTable).view = t.view.set i (some e') := by
  obtain ⟨hi, he, hsome⟩ := slot_eq_some_iff.mp hslot
  have hlen : i < t.entries.length := (List.getElem?_eq_some_iff.mp he).1
  have hview := view_set (e := e') (by omega) hlen (max_eq_left hi).symm t.free
  rw [Option.filter_some, if_pos (hp ▸ hsome)] at hview
  refine ⟨⟨by simp [h.length], h.count_ge, h.count_le, h.last_ge, h.last_lt, h.free_le,
    fun j hj => ?_⟩, hview⟩
  have hslot' := congrArg (fun m => m.get j) hview
  simp only [view_get] at hslot'
  rw [hslot', SlotMap.get_set]
  split
  · simp
  · exact h.used j hj

theorem clear_spec {t : HandleTable} (h : t.Inv) {i : Nat} (hi : (i : Int) ≤ t.last) {f : Nat}
    (hf : f ≤ t.free) (hfi : f ≤ i) (e : HandleEntry) (he : e.ptr = none) :
    ({ t with free := f, entries := t.entries.set i e } : HandleTable).Inv ∧
      ({ t with free := f, entries := t.entries.set i e } : HandleTable).view = t.view.set i none := by
  have hlen : i < t.entries.length := by
    have := h.last_lt
    rw [h.length]
    omega
  have hview := view_set (e := e) (by omega) hlen (max_eq_left hi).symm f
  rw [Option.filter_some, he] at hview
  refine ⟨⟨by simp [h.length], h.count_ge, h.count_le, h.last_ge, h.last_lt,
    by have := h.free_le; simp only; omega, fun j hj => ?_⟩, hview⟩
  have hj' : j < f := hj
  have hslot' := congrArg (fun m => m.get j) hview
  simp only [view_get] at hslot'
  rw [hslot', SlotMap.get_set, if_neg (by omega)]
  exact h.used j (by omega)

theorem shrinkIfLast_spec {t : HandleTable} (h : t.Inv) (index : Int) :
    Returns (if index = t.last then shrinkHandleTable t else pure t) fun t' =>
      t'.Inv ∧ t'.view = t.view := by
  split
  · exact shrinkHandleTable_spec h
  · exact Returns.pure ⟨h, rfl⟩

theorem removeEntry_spec {t : HandleTable} (h : t.Inv) {index : Int} (h0 : 0 ≤ index)
    (hle : index ≤ t.last) :
    Returns (removeEntry t index) fun t' => t'.Inv ∧ t'.view = t.view.set index.toNat none := by
  have hlt := h.last_lt
  have hlen := h.length
  have hi : (index.toNat : Int) ≤ t.last := by omega
  unfold removeEntry
  rw [if_neg (by omega)]
  apply Returns.bind (returns_load (by omega) rfl)
  rintro e rfl
  apply Returns.bind (returns_store (by omega) rfl)
  rintro entries rfl
  dsimp only
  by_cases hf : index < (t.free : Int)
  · rw [if_pos hf]
    obtain ⟨hinv, hview⟩ := clear_spec h hi (f := index.toNat) (by omega) le_rfl
      ⟨none, t.entries[index.toNat].access⟩ rfl
    exact (shrinkIfLast_spec hinv index).mono fun t' ⟨hi', hv'⟩ => ⟨hi', hv'.trans hview⟩
  · rw [if_neg hf]
    obtain ⟨hinv, hview⟩ := clear_spec h hi (f := t.free) le_rfl (by omega)
      ⟨none, t.entries[index.toNat].access⟩ rfl
    exact (shrinkIfLast_spec hinv index).mono fun t' ⟨hi', hv'⟩ => ⟨hi', hv'.trans hview⟩

end HandleTable

end Wine.Server
