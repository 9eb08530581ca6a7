import Wine.Status
import Wine.Lib.IntervalList

/-!
# Committed ranges of a mapping (`server/mapping.c`)

A mapping created with `SEC_RESERVE` keeps the file positions committed so far as a `struct
ranges`, shared by all its views: an array of `[start, end)` ranges in increasing order. Each
view reaches it through its own `start` offset and `size`. `add_committed_range` merges a
range of the view into the array, and `find_committed_range` tells whether an offset of the
view is committed and how far that lasts. The array is its list of ranges; `realloc` is assumed
to succeed, so `max` is left out.
-/

namespace Wine.Server.Committed

open IntervalList

set_option autoImplicit false

/-! ## The code -/

/-- `struct range`: the committed file positions `[start, end)`. -/
structure Range where
  start : Nat
  «end» : Nat
deriving DecidableEq, Repr

/-- The fields of `struct memory_view` the two functions read: the start offset in the mapping
and the size. -/
structure MemoryView where
  start : Nat
  size : Nat
deriving DecidableEq, Repr

def pageMask : Nat := 0xfff

/-- The loop `for (j = i + 1; j < committed->count; j++)` of `add_committed_range` over the
ranges after `i`: the end of the merged range, and the ranges from `j` on, which the `memmove`
brings up to `i + 1`. -/
def mergeUp : List Range → Nat → Nat × List Range
  | [], e => (e, [])
  | r :: rs, e =>
    if r.start > e then (e, r :: rs)
    else mergeUp rs (if r.«end» > e then r.«end» else e)

/-- The loop `for (i = 0; i < committed->count; i++)` of `add_committed_range` over the ranges
from `i` on, with `start` and `end` already moved by `view->start`; past the loop a new range is
inserted at `i`. -/
def addLoop (start «end» : Nat) : List Range → List Range
  | [] => [⟨start, «end»⟩]
  | r :: rs =>
    if r.start > «end» then ⟨start, «end»⟩ :: r :: rs
    else if r.«end» < start then r :: addLoop start «end» rs
    else
      -- extend downwards
      let r := if r.start > start then { r with start := start } else r
      if r.«end» < «end» then
        -- extend upwards and maybe merge with next
        let merged := mergeUp rs «end»
        { r with «end» := merged.1 } :: merged.2
      else r :: rs

/-- `add_committed_range( view, start, end )` on the ranges of the mapping, `none` when
everything is committed: the ranges after the call, and the error it sets. -/
def addCommittedRange (view : MemoryView) (committed : Option (List Range)) (start «end» : Nat) :
    Option (List Range) × Option NtStatus :=
  if start &&& pageMask ≠ 0 ∨ «end» &&& pageMask ≠ 0 ∨ view.size ≤ start ∨ view.size < «end» ∨
      «end» ≤ start then (committed, some .invalidParameter)
  else match committed with
    | none => (none, none)
    | some ranges => (some (addLoop (start + view.start) («end» + view.start) ranges), none)

/-- The loop of `find_committed_range` over the ranges from `i` on, for the position
`view->start + start` and the end of the view: the value returned and `*size`, once a range
decides them. -/
def findLoop (pos viewEnd : Nat) : List Range → Option (Bool × Nat)
  | [] => none
  | r :: rs =>
    if r.start > pos then some (false, min r.start viewEnd - pos)
    else if r.«end» > pos then some (true, min r.«end» viewEnd - pos)
    else findLoop pos viewEnd rs

/-- `find_committed_range( view, start, &size )`: whether `start` is committed and `*size`, or the
error it sets before it returns `0`. -/
def findCommittedRange (view : MemoryView) (committed : Option (List Range)) (start : Nat) :
    Except NtStatus (Bool × Nat) :=
  if start &&& pageMask ≠ 0 ∨ view.size ≤ start then .error .invalidParameter
  else match committed with
    | none => .ok (true, view.size - start)
    | some ranges =>
      .ok ((findLoop (view.start + start) (view.start + view.size) ranges).getD
        (false, view.size - start))

/-- The `add_mapping_committed_range` requests of a run, each through a view of the mapping with
its offset and size. -/
def addCommittedRanges (committed : Option (List Range)) :
    List (MemoryView × Nat × Nat) → Option (List Range)
  | [] => committed
  | (view, offset, size) :: calls =>
    addCommittedRanges (addCommittedRange view committed offset (offset + size)).1 calls

example : addCommittedRanges (some [])
    [(⟨0, 0x10000⟩, 0x3000, 0x1000), (⟨0, 0x10000⟩, 0x1000, 0x1000), (⟨0, 0x10000⟩, 0x2000, 0x1000)] =
      some [⟨0x1000, 0x4000⟩] := by decide

/-! ## Merging a range in -/

/-- Arguments `add_committed_range` accepts: page-aligned offsets of a non-empty range inside
the view. -/
def ArgsOk (view : MemoryView) (start «end» : Nat) : Prop :=
  start % 0x1000 = 0 ∧ «end» % 0x1000 = 0 ∧ start < view.size ∧ «end» ≤ view.size ∧ start < «end»

instance (view : MemoryView) (start «end» : Nat) : Decidable (ArgsOk view start «end») :=
  inferInstanceAs (Decidable (start % 0x1000 = 0 ∧ «end» % 0x1000 = 0 ∧ start < view.size ∧
    «end» ≤ view.size ∧ start < «end»))

theorem and_pageMask (x : Nat) : x &&& pageMask = x % 0x1000 :=
  Nat.and_two_pow_sub_one_eq_mod x 12

theorem mergeUp_spec {s : Nat} : ∀ (rs : List Range) (e : Nat), s ≤ e →
    (∀ r ∈ rs, s ≤ r.start) → Gapped Range.start Range.«end» rs →
    e ≤ (mergeUp rs e).1 ∧ (∃ pre, rs = pre ++ (mergeUp rs e).2) ∧
      (∀ r ∈ (mergeUp rs e).2, (mergeUp rs e).1 < r.start) ∧
      ∀ x, (s ≤ x ∧ x < (mergeUp rs e).1) ∨ Covered Range.start Range.«end» (mergeUp rs e).2 x ↔
        (s ≤ x ∧ x < e) ∨ Covered Range.start Range.«end» rs x
  | [], e, _, _, _ => by
    rw [mergeUp]
    exact ⟨le_rfl, ⟨[], rfl⟩, fun _ h => (nomatch h), fun _ => Iff.rfl⟩
  | r :: rs, e, hse, hlow, hg => by
    rw [mergeUp]
    by_cases hbr : r.start > e
    · rw [if_pos hbr]
      refine ⟨le_rfl, ⟨[], rfl⟩, fun b hb => ?_, fun _ => Iff.rfl⟩
      rcases List.mem_cons.mp hb with rfl | hb
      · exact hbr
      · have := hg.hi_lt_lo hb
        have := (gapped_cons.mp hg).1
        omega
    · rw [if_neg hbr]
      obtain ⟨h1, ⟨pre, hpre⟩, h3, h4⟩ := mergeUp_spec rs (if r.«end» > e then r.«end» else e)
        (by split <;> omega) (fun b hb => hlow b (List.mem_cons_of_mem r hb)) hg.tail
      have hr := hlow r List.mem_cons_self
      refine ⟨le_trans (by split <;> omega) h1, ⟨r :: pre, by rw [List.cons_append, ← hpre]⟩, h3,
        fun x => ?_⟩
      rw [h4 x, covered_cons, ← or_assoc]
      apply or_congr_left
      split <;> omega

theorem addLoop_meet {start «end» : Nat} {r : Range} {rs : List Range} (hle : ¬ r.start > «end»)
    (hge : ¬ r.«end» < start) :
    addLoop start «end» (r :: rs) =
      if r.«end» < «end» then ⟨min r.start start, (mergeUp rs «end»).1⟩ :: (mergeUp rs «end»).2
      else ⟨min r.start start, r.«end»⟩ :: rs := by
  rw [addLoop, if_neg hle, if_neg hge]
  by_cases hs : r.start > start
  · rw [if_pos hs, Nat.min_eq_right (by omega)]
  · rw [if_neg hs, Nat.min_eq_left (by omega)]

/-- Merging `[start, end)` into sorted, gapped ranges keeps them sorted and gapped, and covers
what they did and `[start, end)`; every range after starts at `start` or where a range did. -/
theorem addLoop_spec {start «end» : Nat} (hse : start < «end») : ∀ rs : List Range,
    Gapped Range.start Range.«end» rs →
    Gapped Range.start Range.«end» (addLoop start «end» rs) ∧
      (∀ x, Covered Range.start Range.«end» (addLoop start «end» rs) x ↔
        Covered Range.start Range.«end» rs x ∨ (start ≤ x ∧ x < «end»)) ∧
      ∀ b ∈ addLoop start «end» rs, b.start = start ∨ ∃ c ∈ rs, b.start = c.start
  | [], _ => by
    rw [addLoop]
    refine ⟨gapped_cons.mpr ⟨hse, fun _ h => (nomatch h), gapped_nil⟩, fun x => ?_, ?_⟩
    · simp
    · intro b hb
      rw [List.mem_singleton.mp hb]
      exact .inl rfl
  | r :: rs, hg => by
    have hr := (gapped_cons.mp hg).1
    by_cases hbr : r.start > «end»
    · rw [addLoop, if_pos hbr]
      refine ⟨gapped_cons.mpr ⟨hse, fun b hb => ?_, hg⟩, fun x => ?_, fun b hb => ?_⟩
      · rcases List.mem_cons.mp hb with rfl | hb
        · exact hbr
        · have := hg.hi_lt_lo hb
          show «end» < b.start
          omega
      · rw [covered_cons, or_comm]
      · rcases List.mem_cons.mp hb with rfl | hb
        · exact .inl rfl
        · exact .inr ⟨b, hb, rfl⟩
    by_cases hbl : r.«end» < start
    · rw [addLoop, if_neg hbr, if_pos hbl]
      obtain ⟨g, c, st⟩ := addLoop_spec hse rs hg.tail
      refine ⟨gapped_cons.mpr ⟨hr, fun b hb => ?_, g⟩, fun x => ?_, fun b hb => ?_⟩
      · rcases st b hb with h | ⟨c, hc, h⟩
        · omega
        · rw [h]
          exact hg.hi_lt_lo hc
      · rw [covered_cons, covered_cons, c x, or_assoc]
      · rcases List.mem_cons.mp hb with rfl | hb
        · exact .inr ⟨b, List.mem_cons_self, rfl⟩
        · rcases st b hb with h | ⟨c, hc, h⟩
          · exact .inl h
          · exact .inr ⟨c, List.mem_cons_of_mem r hc, h⟩
    rw [addLoop_meet hbr hbl]
    have hlow : ∀ b ∈ rs, min r.start start ≤ b.start := by
      intro b hb
      have := hg.hi_lt_lo hb
      omega
    split
    · rename_i hend
      obtain ⟨h1, ⟨pre, hpre⟩, h3, h4⟩ := mergeUp_spec rs «end» (by omega) hlow hg.tail
      refine ⟨gapped_cons.mpr ⟨by dsimp only; omega, h3, (hpre ▸ hg.tail).of_suffix⟩,
        fun x => ?_, fun b hb => ?_⟩
      · have key : (min r.start start ≤ x ∧ x < «end») ↔
            (r.start ≤ x ∧ x < r.«end») ∨ (start ≤ x ∧ x < «end») := by omega
        rw [covered_cons, h4 x, covered_cons, key, or_right_comm]
      · rcases List.mem_cons.mp hb with rfl | hb
        · rcases Nat.le_total r.start start with h | h
          · exact .inr ⟨r, List.mem_cons_self, Nat.min_eq_left h⟩
          · exact .inl (Nat.min_eq_right h)
        · exact .inr ⟨b, List.mem_cons_of_mem r (hpre ▸ List.mem_append_right pre hb), rfl⟩
    · rename_i hend
      refine ⟨gapped_cons.mpr ⟨by dsimp only; omega, fun b hb => hg.hi_lt_lo hb, hg.tail⟩,
        fun x => ?_, fun b hb => ?_⟩
      · have key : (min r.start start ≤ x ∧ x < r.«end») ↔
            (r.start ≤ x ∧ x < r.«end») ∨ (start ≤ x ∧ x < «end») := by omega
        rw [covered_cons, covered_cons, key, or_right_comm]
      · rcases List.mem_cons.mp hb with rfl | hb
        · rcases Nat.le_total r.start start with h | h
          · exact .inr ⟨r, List.mem_cons_self, Nat.min_eq_left h⟩
          · exact .inl (Nat.min_eq_right h)
        · exact .inr ⟨b, List.mem_cons_of_mem r hb, rfl⟩

/-! ## The search -/

/-- From `pos`, the `n` positions before `viewEnd` are committed exactly when `c` says so, and
the next one before `viewEnd`, if any, is not: a maximal run of one commitment status. -/
def IsRun (rs : List Range) (pos viewEnd : Nat) (c : Bool) (n : Nat) : Prop :=
  0 < n ∧ pos + n ≤ viewEnd ∧
    (∀ y, pos ≤ y → y < pos + n → (Covered Range.start Range.«end» rs y ↔ c = true)) ∧
    (pos + n < viewEnd → (Covered Range.start Range.«end» rs (pos + n) ↔ c = false))

theorem IsRun.cons_of_end_le {rs : List Range} {pos viewEnd n : Nat} {c : Bool} {r : Range}
    (hr : r.«end» ≤ pos) (h : IsRun rs pos viewEnd c n) : IsRun (r :: rs) pos viewEnd c n := by
  obtain ⟨h0, h1, h2, h3⟩ := h
  refine ⟨h0, h1, fun y hy1 hy2 => ?_, fun hn => ?_⟩
  · rw [covered_cons_of_hi_le (by omega)]
    exact h2 y hy1 hy2
  · rw [covered_cons_of_hi_le (by omega)]
    exact h3 hn

theorem findLoop_spec {pos viewEnd : Nat} (hpos : pos < viewEnd) : ∀ rs : List Range,
    Gapped Range.start Range.«end» rs →
    (∀ p, findLoop pos viewEnd rs = some p → IsRun rs pos viewEnd p.1 p.2) ∧
      (findLoop pos viewEnd rs = none → ∀ y, pos ≤ y → ¬ Covered Range.start Range.«end» rs y)
  | [], _ => ⟨fun _ h => (nomatch h), fun _ y _ => not_covered_nil y⟩
  | r :: rs, hg => by
    have hr := (gapped_cons.mp hg).1
    rw [findLoop]
    by_cases hstart : r.start > pos
    · rw [if_pos hstart]
      refine ⟨fun p hp => ?_, fun h => nomatch h⟩
      rw [← Option.some.inj hp]
      refine ⟨by dsimp only; omega, by dsimp only; omega, fun y hy1 hy2 => ?_, fun hn => ?_⟩
      · simp only [Bool.false_eq_true, iff_false]
        exact hg.not_covered_of_lt (by dsimp only at hy2; omega)
      · simp only [iff_true]
        rw [covered_cons]
        exact .inl (by dsimp only at hn ⊢; omega)
    by_cases hend : r.«end» > pos
    · rw [if_neg hstart, if_pos hend]
      refine ⟨fun p hp => ?_, fun h => nomatch h⟩
      rw [← Option.some.inj hp]
      refine ⟨by dsimp only; omega, by dsimp only; omega, fun y hy1 hy2 => ?_, fun hn => ?_⟩
      · simp only [iff_true]
        rw [covered_cons]
        exact .inl (by dsimp only at hy2; omega)
      · simp only [Bool.true_eq_false, iff_false]
        have hn' : pos + (min r.«end» viewEnd - pos) = r.«end» := by
          dsimp only at hn
          omega
        rw [hn', covered_cons_of_hi_le le_rfl]
        exact hg.not_covered_tail le_rfl
    · rw [if_neg hstart, if_neg hend]
      obtain ⟨hsome, hnone⟩ := findLoop_spec hpos rs hg.tail
      refine ⟨fun p hp => (hsome p hp).cons_of_end_le (by omega), fun h y hy => ?_⟩
      rw [covered_cons_of_hi_le (by omega)]
      exact hnone h y hy

theorem findCommittedRange_spec (view : MemoryView) {rs : List Range}
    (hg : Gapped Range.start Range.«end» rs) {offset : Nat} (halign : offset % 0x1000 = 0)
    (hoff : offset < view.size) :
    ∃ c n, findCommittedRange view (some rs) offset = .ok (c, n) ∧
      IsRun rs (view.start + offset) (view.start + view.size) c n := by
  have hpos : view.start + offset < view.start + view.size := by omega
  rw [findCommittedRange, if_neg (by rw [and_pageMask]; omega)]
  obtain ⟨hsome, hnone⟩ := findLoop_spec hpos rs hg
  cases hfind : findLoop (view.start + offset) (view.start + view.size) rs with
  | some p => exact ⟨p.1, p.2, rfl, hsome p hfind⟩
  | none =>
    refine ⟨false, view.size - offset, rfl, by omega, by omega, fun y hy _ => ?_,
      fun h => absurd h (by omega)⟩
    simp only [Bool.false_eq_true, iff_false]
    exact hnone hfind y hy

/-! ## Every call -/

theorem addCommittedRange_of_not_argsOk {view : MemoryView} {start «end» : Nat}
    (h : ¬ ArgsOk view start «end») (committed : Option (List Range)) :
    addCommittedRange view committed start «end» = (committed, some .invalidParameter) := by
  unfold ArgsOk at h
  unfold addCommittedRange
  rw [if_pos (by rw [and_pageMask, and_pageMask]; omega)]

theorem addCommittedRange_of_argsOk {view : MemoryView} {start «end» : Nat}
    (h : ArgsOk view start «end») (rs : List Range) :
    addCommittedRange view (some rs) start «end» =
      (some (addLoop (start + view.start) («end» + view.start) rs), none) := by
  unfold ArgsOk at h
  rw [addCommittedRange, if_neg (by rw [and_pageMask, and_pageMask]; omega)]

theorem addCommittedRange_gapped (view : MemoryView) (start «end» : Nat) {rs : List Range}
    (hg : Gapped Range.start Range.«end» rs) :
    ∃ rs', (addCommittedRange view (some rs) start «end»).1 = some rs' ∧
      Gapped Range.start Range.«end» rs' := by
  by_cases h : ArgsOk view start «end»
  · rw [addCommittedRange_of_argsOk h]
    exact ⟨_, rfl, (addLoop_spec (by unfold ArgsOk at h; omega) rs hg).1⟩
  · rw [addCommittedRange_of_not_argsOk h]
    exact ⟨rs, rfl, hg⟩

theorem addCommittedRanges_gapped : ∀ (calls : List (MemoryView × Nat × Nat)) (rs : List Range),
    Gapped Range.start Range.«end» rs →
    ∃ rs', addCommittedRanges (some rs) calls = some rs' ∧ Gapped Range.start Range.«end» rs'
  | [], rs, hg => ⟨rs, rfl, hg⟩
  | (view, offset, size) :: calls, rs, hg => by
    obtain ⟨rs₁, h₁, hg₁⟩ := addCommittedRange_gapped view offset (offset + size) hg
    rw [addCommittedRanges, h₁]
    exact addCommittedRanges_gapped calls rs₁ hg₁

/-- The committed ranges of a mapping, from the empty list of `create_ranges`, stay sorted,
non-empty and gapped over every run of `add_committed_range` calls through any of its views. From
such ranges a call with valid arguments commits exactly `[view->start + start, view->start + end)`
more, a call with invalid ones changes nothing and fails with `STATUS_INVALID_PARAMETER`, and
`find_committed_range` returns the status of the offset and the length of its run, clipped to the
view. -/
theorem committedRanges_spec :
    (∀ calls, ∃ rs, addCommittedRanges (some []) calls = some rs ∧
      Gapped Range.start Range.«end» rs) ∧
    (∀ rs : List Range, Gapped Range.start Range.«end» rs → ∀ view start «end»,
      (ArgsOk view start «end» → ∃ rs', addCommittedRange view (some rs) start «end» = (some rs', none) ∧
        Gapped Range.start Range.«end» rs' ∧
        ∀ x, Covered Range.start Range.«end» rs' x ↔ Covered Range.start Range.«end» rs x ∨
          (view.start + start ≤ x ∧ x < view.start + «end»)) ∧
      (¬ ArgsOk view start «end» →
        addCommittedRange view (some rs) start «end» = (some rs, some .invalidParameter))) ∧
    (∀ rs : List Range, Gapped Range.start Range.«end» rs → ∀ view offset,
      offset % 0x1000 = 0 → offset < view.size →
      ∃ c n, findCommittedRange view (some rs) offset = .ok (c, n) ∧
        (c = true ↔ Covered Range.start Range.«end» rs (view.start + offset)) ∧
        IsRun rs (view.start + offset) (view.start + view.size) c n) := by
  refine ⟨fun calls => addCommittedRanges_gapped calls [] gapped_nil, fun rs hg view start «end» =>
    ⟨fun h => ?_, fun h => addCommittedRange_of_not_argsOk h _⟩, fun rs hg view offset ha ho => ?_⟩
  · obtain ⟨g, c, -⟩ := @addLoop_spec (start + view.start) («end» + view.start)
      (by unfold ArgsOk at h; omega) rs hg
    refine ⟨_, addCommittedRange_of_argsOk h rs, g, fun x => ?_⟩
    rw [c x, Nat.add_comm start, Nat.add_comm «end»]
  · obtain ⟨c, n, hfind, hrun⟩ := findCommittedRange_spec view hg ha ho
    exact ⟨c, n, hfind, (hrun.2.2.1 _ le_rfl (by have := hrun.1; omega)).symm, hrun⟩

theorem committedRanges_two_pages :
    ArgsOk ⟨0x10000, 0x8000⟩ 0x1000 0x3000 ∧
    ∃ rs', addCommittedRange ⟨0x10000, 0x8000⟩ (some [⟨0x12000, 0x14000⟩]) 0x1000 0x3000 =
        (some rs', none) ∧ Gapped Range.start Range.«end» rs' ∧
      ∀ x, Covered Range.start Range.«end» rs' x ↔
        Covered Range.start Range.«end» [⟨0x12000, 0x14000⟩] x ∨
          (0x10000 + 0x1000 ≤ x ∧ x < 0x10000 + 0x3000) :=
  ⟨by decide, (committedRanges_spec.2.1 [⟨0x12000, 0x14000⟩]
    (gapped_cons.mpr ⟨by decide, fun _ h => (nomatch h), gapped_nil⟩) ⟨0x10000, 0x8000⟩ 0x1000
    0x3000).1 (by decide)⟩

end Wine.Server.Committed
