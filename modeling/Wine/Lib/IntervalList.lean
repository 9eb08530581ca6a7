import Mathlib.Data.List.Pairwise

/-!
# Lists of intervals

A list of half-open intervals `[lo r, hi r)` of natural numbers, sorted, non-empty and with a
gap between neighbours, stands for the set of points it covers. The lemmas are those an
insertion into such a list and a search through it need: how coverage and the ordering split
over a cons and over a suffix.
-/

namespace IntervalList

set_option autoImplicit false

variable {ι : Type} (lo hi : ι → Nat)

/-- The point `x` is in one of the intervals. -/
def Covered (rs : List ι) (x : Nat) : Prop := ∃ r ∈ rs, lo r ≤ x ∧ x < hi r

/-- Sorted, non-empty intervals with a gap between neighbours. -/
def Gapped (rs : List ι) : Prop := (∀ r ∈ rs, lo r < hi r) ∧ rs.Pairwise fun r s => hi r < lo s

variable {lo hi} {r : ι} {rs : List ι}

@[simp] theorem not_covered_nil (x : Nat) : ¬ Covered lo hi [] x := by
  rintro ⟨r, hr, -⟩
  cases hr

@[simp] theorem covered_cons (x : Nat) :
    Covered lo hi (r :: rs) x ↔ (lo r ≤ x ∧ x < hi r) ∨ Covered lo hi rs x := by
  simp only [Covered, List.mem_cons, exists_eq_or_imp]

theorem gapped_nil : Gapped lo hi ([] : List ι) := ⟨fun _ h => (nomatch h), List.Pairwise.nil⟩

theorem gapped_cons :
    Gapped lo hi (r :: rs) ↔ lo r < hi r ∧ (∀ s ∈ rs, hi r < lo s) ∧ Gapped lo hi rs := by
  simp only [Gapped, List.forall_mem_cons, List.pairwise_cons]
  constructor
  · rintro ⟨⟨h1, h2⟩, h3, h4⟩
    exact ⟨h1, h3, h2, h4⟩
  · rintro ⟨h1, h3, h2, h4⟩
    exact ⟨⟨h1, h2⟩, h3, h4⟩

theorem Gapped.tail (h : Gapped lo hi (r :: rs)) : Gapped lo hi rs := (gapped_cons.mp h).2.2

theorem Gapped.hi_lt_lo (h : Gapped lo hi (r :: rs)) {s : ι} (hs : s ∈ rs) : hi r < lo s :=
  (gapped_cons.mp h).2.1 s hs

theorem covered_cons_of_hi_le {x : Nat} (hx : hi r ≤ x) :
    Covered lo hi (r :: rs) x ↔ Covered lo hi rs x := by
  rw [covered_cons]
  constructor
  · rintro (⟨-, hlt⟩ | hc)
    · omega
    · exact hc
  · exact .inr

theorem Gapped.not_covered_of_lt (h : Gapped lo hi (r :: rs)) {x : Nat} (hx : x < lo r) :
    ¬ Covered lo hi (r :: rs) x := by
  rw [covered_cons]
  rintro (⟨hle, -⟩ | ⟨s, hs, hle, -⟩)
  · omega
  · have := h.hi_lt_lo hs
    have := (gapped_cons.mp h).1
    omega

theorem Gapped.not_covered_tail (h : Gapped lo hi (r :: rs)) {x : Nat} (hx : x ≤ hi r) :
    ¬ Covered lo hi rs x := by
  rintro ⟨s, hs, hle, -⟩
  have := h.hi_lt_lo hs
  omega

theorem Gapped.of_suffix {pre : List ι} (h : Gapped lo hi (pre ++ rs)) : Gapped lo hi rs :=
  ⟨fun s hs => h.1 s (List.mem_append_right pre hs), (List.pairwise_append.mp h.2).2.1⟩

end IntervalList
