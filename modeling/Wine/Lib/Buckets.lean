import Mathlib.Order.Monotone.Basic

/-!
# Classes of sizes between increasing bounds

A classifier `idx` files each size `s` in a class `i` whose lower bound `bound i` is at most `s`
and whose successor's bound is above `s`, the class `top` being open above. Against a strictly
increasing sequence of bounds, such a classifier is monotone and its classes are the intervals
between consecutive bounds.
-/

namespace Buckets

set_option autoImplicit false

/-- `idx` files every size between the bound of its class and the next one, below `top`. -/
structure Files (bound : Nat → Nat) (top : Nat) (idx : Nat → Nat) : Prop where
  le_top : ∀ s, idx s ≤ top
  bound_le : ∀ s, bound (idx s) ≤ s
  lt_bound : ∀ s, idx s < top → s < bound (idx s + 1)

variable {bound idx : Nat → Nat} {top : Nat}

theorem Files.monotone (hf : Files bound top idx) (hb : StrictMono bound) : Monotone idx := by
  intro s s' hss'
  by_contra hlt
  rw [Nat.not_le] at hlt
  have h₁ : s' < bound (idx s' + 1) := hf.lt_bound s' (Nat.lt_of_lt_of_le hlt (hf.le_top s))
  have h₂ : bound (idx s' + 1) ≤ bound (idx s) := hb.monotone hlt
  have h₃ := hf.bound_le s
  omega

theorem Files.eq_iff (hf : Files bound top idx) (hb : StrictMono bound) {s i : Nat}
    (hi : i ≤ top) : idx s = i ↔ bound i ≤ s ∧ (i < top → s < bound (i + 1)) := by
  constructor
  · rintro rfl
    exact ⟨hf.bound_le s, hf.lt_bound s⟩
  · rintro ⟨hlow, hhigh⟩
    rcases Nat.lt_trichotomy (idx s) i with hlt | heq | hgt
    · have h₁ := hf.lt_bound s (Nat.lt_of_lt_of_le hlt hi)
      have h₂ : bound (idx s + 1) ≤ bound i := hb.monotone hlt
      omega
    · exact heq
    · have h₁ := hhigh (Nat.lt_of_lt_of_le hgt (hf.le_top s))
      have h₂ : bound (i + 1) ≤ bound (idx s) := hb.monotone hgt
      have h₃ := hf.bound_le s
      omega

end Buckets
