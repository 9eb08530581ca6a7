import Mathlib
import Wine.Lib.BinarySearch

/-!
# Free address ranges (`dlls/ntdll/unix/virtual.c`)

`free_ranges` is the sorted array of the address ranges that no view occupies, kept at the
allocation granularity while the views themselves are only page-aligned. `register_view` and
`unregister_view` update it through `free_ranges_insert_view` and `free_ranges_remove_view`.

The views tree is the list of views sorted by base address, as `compare_view` orders them.
Addresses are 64-bit; the array's capacity (`view_block_size`) is not modelled. A result of
`none` is an `assert` of the code failing, which also guards every read past the array.
-/

namespace Wine.Ntdll.Virtual

set_option autoImplicit false

structure RangeEntry where
  base : Nat
  «end» : Nat
  deriving DecidableEq, Repr

structure FileView where
  base : Nat
  size : Nat
  deriving DecidableEq, Repr

def granularityMask : Nat := 0xffff

/-- `ROUND_ADDR( addr, granularity_mask )` -/
def roundAddr (addr : Nat) : Nat := addr / (granularityMask + 1) * (granularityMask + 1)

/-- The view's extent rounded outward to the granularity: `view_base` and `view_end`. -/
def FileView.roundedBase (view : FileView) : Nat := roundAddr view.base

def FileView.roundedEnd (view : FileView) : Nat :=
  roundAddr ((view.base + view.size + granularityMask) % 2 ^ 64)

/-- `free_ranges_lower_bound( addr )`: the first range whose end is not less than `addr`. -/
def freeRangesLowerBound (ranges : List RangeEntry) (addr : Nat) : Nat :=
  BinarySearch.lowerBound
    (fun i => match ranges[i]? with
      | some r => decide (r.«end» < addr)
      | none => false)
    ranges.length 0 ranges.length

/-- `free_ranges_insert_view( view )` -/
def freeRangesInsertView (ranges : List RangeEntry) (view : FileView) : Option (List RangeEntry) := do
  let i := freeRangesLowerBound ranges view.roundedBase
  let range ← ranges[i]?
  if ¬(view.roundedBase < range.«end» ∨ i + 1 < ranges.length) then none
  -- the view is clipped to the range
  let viewBase := if view.roundedBase < range.base then range.base else view.roundedBase
  let viewEnd := if range.«end» < view.roundedEnd then range.«end» else view.roundedEnd
  let viewEnd ← if range.«end» = viewBase then do
      let next ← ranges[i + 1]?
      pure (if viewEnd ≤ next.base then viewBase else viewEnd)
    else pure viewEnd
  if viewEnd ≤ viewBase then pure ranges
  else do
    if ¬(range.base ≤ viewBase ∧ viewEnd ≤ range.«end») then none
    if range.base < viewBase ∧ viewEnd < range.«end» then
      -- split the range in two
      pure (ranges.take i ++ ⟨range.base, viewBase⟩ :: ⟨viewEnd, range.«end»⟩ :: ranges.drop (i + 1))
    else do
      let range : RangeEntry :=
        if range.base < viewBase then ⟨range.base, viewBase⟩ else ⟨viewEnd, range.«end»⟩
      if range.base < range.«end» then pure (ranges.set i range)
      else do
        -- the range is now empty
        let ranges := ranges.eraseIdx i
        if ranges = [] then none
        pure ranges

/-- `rb_prev` and `rb_next` of a view in the views tree. -/
def prevView (views : List FileView) (view : FileView) : Option FileView :=
  (views.filter fun v => v.base < view.base).getLast?

def nextView (views : List FileView) (view : FileView) : Option FileView :=
  views.find? fun v => view.base < v.base

/-- `free_ranges_remove_view( view )`, with `view` still in the tree `views`. -/
def freeRangesRemoveView (ranges : List RangeEntry) (views : List FileView) (view : FileView) :
    Option (List RangeEntry) := do
  let i := freeRangesLowerBound ranges view.roundedBase
  -- a NULL neighbour reads as the address 0
  let prevBase := ((prevView views view).map FileView.roundedBase).getD 0
  let prevEnd := ((prevView views view).map FileView.roundedEnd).getD 0
  let nextBase := ((nextView views view).map FileView.roundedBase).getD 0
  let nextEnd := ((nextView views view).map FileView.roundedEnd).getD 0
  -- granules shared with a neighbouring view stay occupied
  let viewBase := if prevEnd ≠ 0 ∧ view.roundedBase < prevEnd ∧ prevBase < view.roundedEnd then
    prevEnd else view.roundedBase
  let viewEnd := if nextBase ≠ 0 ∧ nextBase < view.roundedEnd ∧ viewBase < nextEnd then
    nextBase else view.roundedEnd
  if viewEnd ≤ viewBase then pure ranges
  else do
    let range ← ranges[i]?
    if ¬(viewBase < range.«end» ∨ i + 1 < ranges.length) then none
    if range.base ≤ viewBase ∧ viewEnd ≤ range.«end» then pure ranges
    else do
      if ¬(range.«end» ≤ viewBase ∨ viewEnd ≤ range.base) then none
      let merge ← (if range.«end» = viewBase then do
          let next ← ranges[i + 1]?
          pure (decide (next.base = viewEnd))
        else pure false : Option Bool)
      if merge then do
        -- the view joins the range to the next one
        let next ← ranges[i + 1]?
        let ranges := (ranges.set i ⟨range.base, next.«end»⟩).eraseIdx (i + 1)
        if ranges = [] then none
        pure ranges
      else if range.«end» = viewBase then pure (ranges.set i ⟨range.base, viewEnd⟩)
      else if range.base = viewEnd then pure (ranges.set i ⟨viewBase, range.«end»⟩)
      else pure (ranges.take i ++ ⟨viewBase, viewEnd⟩ :: ranges.drop i)

/-- `wine_rb_put( &views_tree, view->base, &view->entry )` for a base not yet in the tree. -/
def insertView (views : List FileView) (view : FileView) : List FileView :=
  views.filter (fun v => v.base < view.base) ++ view :: views.filter (fun v => view.base < v.base)

structure VmState where
  views : List FileView
  ranges : List RangeEntry
  deriving DecidableEq, Repr

/-- `free_ranges` as `virtual_init` sets it: the whole address space. -/
def VmState.init : VmState := ⟨[], [⟨0, 2 ^ 64 - 1⟩]⟩

/-- `register_view( view )` -/
def registerView (st : VmState) (view : FileView) : Option VmState := do
  let ranges ← freeRangesInsertView st.ranges view
  pure ⟨insertView st.views view, ranges⟩

/-- `unregister_view( view )` -/
def unregisterView (st : VmState) (view : FileView) : Option VmState := do
  let ranges ← freeRangesRemoveView st.ranges st.views view
  pure ⟨st.views.filter (· ≠ view), ranges⟩

/-! ## What `free_ranges` should hold -/

/-- The addresses the ranges list as free. -/
def Covered (ranges : List RangeEntry) (a : Nat) : Prop := ∃ r ∈ ranges, r.base ≤ a ∧ a < r.«end»

/-- The granules a view takes from the free ranges: its extent rounded outward. -/
def FileView.Occupies (view : FileView) (a : Nat) : Prop :=
  view.roundedBase ≤ a ∧ a < view.roundedEnd

/-- Sorted, non-empty, disjoint and non-adjacent ranges. -/
def Valid (ranges : List RangeEntry) : Prop :=
  (∀ r ∈ ranges, r.base < r.«end») ∧ ranges.Pairwise fun r s => r.«end» < s.base

instance (ranges : List RangeEntry) : Decidable (Valid ranges) :=
  inferInstanceAs (Decidable ((∀ r ∈ ranges, r.base < r.«end») ∧
    ranges.Pairwise fun r s => r.«end» < s.base))

section Search

variable {ranges : List RangeEntry}

theorem Valid.end_lt_end (hv : Valid ranges) {i j : Nat} (hij : i < j) (hj : j < ranges.length) :
    ranges[i].«end» < ranges[j].«end» := by
  have hpair := List.pairwise_iff_getElem.mp hv.2 i j (by omega) hj hij
  have hbase := hv.1 _ (List.getElem_mem hj)
  omega

theorem freeRangesLowerBound_eq (hv : Valid ranges) {i addr : Nat} (hi : i < ranges.length)
    (hbelow : ∀ j (hj : j < i), ranges[j].«end» < addr) (hle : addr ≤ ranges[i].«end») :
    freeRangesLowerBound ranges addr = i := by
  let p : Nat → Bool := fun i => match ranges[i]? with
    | some r => decide (r.«end» < addr)
    | none => false
  have hp : ∀ j (hj : j < ranges.length), p j = decide (ranges[j].«end» < addr) := by
    intro j hj
    simp [p, List.getElem?_eq_getElem hj]
  have hnone : ∀ j, ranges.length ≤ j → p j = false := by
    intro j hj
    simp [p, List.getElem?_eq_none hj]
  have hdown : BinarySearch.Downward p := by
    intro j k hjk hk
    have hkl : k < ranges.length := by
      by_contra hkl
      rw [hnone k (by omega)] at hk
      cases hk
    rw [hp k hkl, decide_eq_true_iff] at hk
    rw [hp j (by omega), decide_eq_true_iff]
    rcases Nat.lt_or_eq_of_le hjk with hlt | rfl
    · exact Nat.lt_trans (hv.end_lt_end hlt hkl) hk
    · exact hk
  refine BinarySearch.lowerBound_eq hdown ⟨Nat.zero_le _, fun j hj => absurd hj (by omega), hnone⟩
    (by omega) ⟨Nat.le_refl i, fun j hj => ?_, fun j hj => ?_⟩
  · rw [hp j (by omega), decide_eq_true_iff]
    exact hbelow j hj
  · by_cases hjl : j < ranges.length
    · rw [hp j hjl, decide_eq_false_iff_not, Nat.not_lt]
      rcases Nat.lt_or_eq_of_le hj with hlt | rfl
      · exact Nat.le_trans hle (Nat.le_of_lt (hv.end_lt_end hlt hjl))
      · exact hle
    · exact hnone j (by omega)

end Search

/-! ## A view that straddles a used granule -/

theorem freeRangesInsertView_straddling {ranges : List RangeEntry} (hv : Valid ranges) {i : Nat}
    (hi : i + 1 < ranges.length) (view : FileView)
    (hend : ranges[i].«end» = view.roundedBase) (hnext : ranges[i + 1].base < view.roundedEnd) :
    freeRangesInsertView ranges view = some ranges := by
  have hpair := List.pairwise_iff_getElem.mp hv.2 i (i + 1) (by omega) hi (by omega)
  have hbase := hv.1 _ (List.getElem_mem (show i < ranges.length by omega))
  have hlb : freeRangesLowerBound ranges view.roundedBase = i := by
    refine freeRangesLowerBound_eq hv (by omega) (fun j hj => ?_) (Nat.le_of_eq hend.symm)
    rw [← hend]
    exact hv.end_lt_end hj (by omega)
  have hget : ranges[i]? = some ranges[i] := List.getElem?_eq_getElem (by omega)
  have hget' : ranges[i + 1]? = some ranges[i + 1] := List.getElem?_eq_getElem hi
  have hnb : ¬view.roundedBase < ranges[i].base := by omega
  have hlt : view.roundedBase < view.roundedEnd := by omega
  simp only [freeRangesInsertView, hlb, hget, hi, or_true, not_true_eq_false, ↓reduceIte,
    Option.bind_eq_bind, Option.bind_some, hend, hnb]
  rw [hget', Option.bind_some, if_pos hlt, ite_self, Option.pure_def, Option.bind_some,
    if_pos (Nat.le_refl _), Option.pure_def]

/-- Registering such a view keeps the start of the next range free although the view's
rounded extent covers it. -/
theorem registerView_leaves_view_free (st : VmState) (hv : Valid st.ranges) {i : Nat}
    (hi : i + 1 < st.ranges.length) (view : FileView)
    (hend : st.ranges[i].«end» = view.roundedBase)
    (hnext : st.ranges[i + 1].base < view.roundedEnd) :
    ∃ st', registerView st view = some st' ∧ view ∈ st'.views ∧
      Covered st'.ranges st.ranges[i + 1].base ∧ view.Occupies st.ranges[i + 1].base := by
  have hpair := List.pairwise_iff_getElem.mp hv.2 i (i + 1) (by omega) hi (by omega)
  refine ⟨⟨insertView st.views view, st.ranges⟩, ?_, ?_, ?_, ?_⟩
  · simp [registerView, freeRangesInsertView_straddling hv hi view hend hnext]
  · simp [insertView]
  · exact ⟨st.ranges[i + 1], List.getElem_mem hi, Nat.le_refl _, hv.1 _ (List.getElem_mem hi)⟩
  · exact ⟨by omega, hnext⟩

/-- A page at `0x10000` and then the 64K view at `0x11000`: the address `0x20000`, inside the
second view, is still listed as free. -/
theorem registerView_page_then_straddling_view :
    ∃ st₁ st₂, registerView VmState.init ⟨0x10000, 0x1000⟩ = some st₁ ∧
      registerView st₁ ⟨0x11000, 0x10000⟩ = some st₂ ∧ ⟨0x11000, 0x10000⟩ ∈ st₂.views ∧
      Covered st₂.ranges 0x20000 ∧ (⟨0x11000, 0x10000⟩ : FileView).Occupies 0x20000 := by
  obtain ⟨st₂, h2, hmem, hcov, hocc⟩ := registerView_leaves_view_free
    ⟨[⟨0x10000, 0x1000⟩], [⟨0, 0x10000⟩, ⟨0x20000, 2 ^ 64 - 1⟩]⟩ (by decide) (i := 0) (by decide)
    ⟨0x11000, 0x10000⟩ (by decide) (by decide)
  exact ⟨_, st₂, rfl, h2, hmem, hcov, hocc⟩

end Wine.Ntdll.Virtual
