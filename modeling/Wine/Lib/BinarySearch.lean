import Mathlib.Tactic.Common

/-!
# Binary search over a monotone predicate

The lower-bound search of a half-open interval `[lo, hi)` as C code writes it, with
`mid = lo + (hi - lo) / 2`: it keeps the part of the interval where the predicate may stop
holding. The predicate is on indices, so that a search over any array instantiates it with the
comparison of the element at that index.
-/

namespace BinarySearch

/-- The first index of `[lo, hi)` where `p` fails, for at most `fuel` halvings. -/
def lowerBound (p : Nat → Bool) : Nat → Nat → Nat → Nat
  | 0, lo, _ => lo
  | fuel + 1, lo, hi =>
    if lo < hi then
      if p (lo + (hi - lo) / 2) then lowerBound p fuel (lo + (hi - lo) / 2 + 1) hi
      else lowerBound p fuel lo (lo + (hi - lo) / 2)
    else lo

section LowerBound

variable {p : Nat → Bool}

/-- `p` holds below `lo` and fails from `hi` on. -/
def Bounds (p : Nat → Bool) (lo hi : Nat) : Prop :=
  lo ≤ hi ∧ (∀ i, i < lo → p i = true) ∧ (∀ i, hi ≤ i → p i = false)

/-- A predicate that holds at an index holds at every smaller one. -/
def Downward (p : Nat → Bool) : Prop := ∀ i j, i ≤ j → p j = true → p i = true

theorem Bounds.step (hp : Downward p) {lo hi : Nat} (h : Bounds p lo hi) (hlt : lo < hi) :
    (p (lo + (hi - lo) / 2) = true → Bounds p (lo + (hi - lo) / 2 + 1) hi) ∧
      (p (lo + (hi - lo) / 2) = false → Bounds p lo (lo + (hi - lo) / 2)) := by
  obtain ⟨_, hbelow, habove⟩ := h
  constructor
  · intro hmid
    refine ⟨by omega, fun i hi => ?_, habove⟩
    exact hp i _ (by omega) hmid
  · intro hmid
    refine ⟨by omega, hbelow, fun i hi => ?_⟩
    cases hpi : p i with
    | false => rfl
    | true => rw [hp _ i hi hpi] at hmid; cases hmid

theorem lowerBound_bounds (hp : Downward p) :
    ∀ fuel lo hi, Bounds p lo hi → hi - lo ≤ fuel →
      Bounds p (lowerBound p fuel lo hi) (lowerBound p fuel lo hi) := by
  intro fuel
  induction fuel with
  | zero =>
    intro lo hi h hfuel
    have heq : hi = lo := by have := h.1; omega
    subst heq
    exact h
  | succ fuel ih =>
    intro lo hi h hfuel
    rw [lowerBound]
    by_cases hlt : lo < hi
    · rw [if_pos hlt]
      obtain ⟨htrue, hfalse⟩ := h.step hp hlt
      cases hmid : p (lo + (hi - lo) / 2) with
      | true => exact ih _ _ (htrue hmid) (by omega)
      | false => exact ih _ _ (hfalse hmid) (by omega)
    · rw [if_neg hlt]
      have heq : hi = lo := by have := h.1; omega
      subst heq
      exact h

theorem Bounds.unique {r r' : Nat} (h : Bounds p r r) (h' : Bounds p r' r') : r = r' := by
  by_contra hne
  rcases Nat.lt_or_gt_of_ne hne with hlt | hlt
  · have h1 := h'.2.1 r hlt
    rw [h.2.2 r (Nat.le_refl r)] at h1
    cases h1
  · have h1 := h.2.1 r' hlt
    rw [h'.2.2 r' (Nat.le_refl r')] at h1
    cases h1

theorem lowerBound_eq (hp : Downward p) {fuel lo hi k : Nat} (h : Bounds p lo hi)
    (hfuel : hi - lo ≤ fuel) (hk : Bounds p k k) : lowerBound p fuel lo hi = k :=
  (lowerBound_bounds hp fuel lo hi h hfuel).unique hk

end LowerBound

end BinarySearch
