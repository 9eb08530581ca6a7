import Mathlib.Data.Nat.Digits.Defs
import Mathlib.Tactic.Ring
import Wine.Lib.BigEndian

/-!
# Multiplying and halving numbers held in limbs

A number in base `B` as its list of limbs. `mulCarry` multiplies it by `m` from the lowest limb
up, carrying into the next, and leaves the carry out of the top; `shrCarry` divides it by `2 ^ s`
from the top limb down, carrying each limb's remainder into the one below, and leaves what falls
out of the lowest. When `2 ^ s` divides `B` that remainder is itself a limb below the lowest, so
the division is exact. With every limb below `B`, the results are limbs again.
-/

namespace Limbs

set_option autoImplicit false

variable (B : Nat)

/-- Limbs the lowest first, multiplied by `m` with `c` carried in: the new limbs and the carry
out of the top. -/
def mulCarry (m : Nat) : List Nat → Nat → List Nat × Nat
  | [], c => ([], c)
  | d :: L, c => ((d * m + c) % B :: (mulCarry m L ((d * m + c) / B)).1,
      (mulCarry m L ((d * m + c) / B)).2)

/-- Limbs the highest first, divided by `2 ^ s` with `r` carried into the top: the new limbs and
what is carried out of the lowest. -/
def shrCarry (s : Nat) : List Nat → Nat → List Nat × Nat
  | [], r => ([], r)
  | d :: L, r => ((d / 2 ^ s + r) :: (shrCarry s L (B / 2 ^ s * (d % 2 ^ s))).1,
      (shrCarry s L (B / 2 ^ s * (d % 2 ^ s))).2)

variable {B}

@[simp] theorem length_mulCarry (m : Nat) : ∀ (L : List Nat) (c : Nat), (mulCarry B m L c).1.length = L.length
  | [], _ => rfl
  | _ :: L, _ => by simp [mulCarry, length_mulCarry m L _]

@[simp] theorem length_shrCarry (s : Nat) : ∀ (L : List Nat) (r : Nat), (shrCarry B s L r).1.length = L.length
  | [], _ => rfl
  | _ :: L, _ => by simp [shrCarry, length_shrCarry s L _]

theorem ofDigits_mulCarry (m : Nat) (L : List Nat) (c : Nat) :
    Nat.ofDigits B (mulCarry B m L c).1 + B ^ L.length * (mulCarry B m L c).2 =
      m * Nat.ofDigits B L + c := by
  induction L generalizing c with
  | nil => simp [mulCarry]
  | cons d L ih =>
    have hrec := ih ((d * m + c) / B)
    have hdiv := Nat.div_add_mod (d * m + c) B
    simp only [mulCarry, Nat.ofDigits_cons, List.length_cons, Nat.pow_succ]
    calc (d * m + c) % B + B * Nat.ofDigits B (mulCarry B m L ((d * m + c) / B)).1 +
          B ^ L.length * B * (mulCarry B m L ((d * m + c) / B)).2
        = (d * m + c) % B + B * (Nat.ofDigits B (mulCarry B m L ((d * m + c) / B)).1 +
          B ^ L.length * (mulCarry B m L ((d * m + c) / B)).2) := by ring
      _ = (d * m + c) % B + B * (m * Nat.ofDigits B L + (d * m + c) / B) := by rw [hrec]
      _ = (d * m + c) % B + B * ((d * m + c) / B) + m * (B * Nat.ofDigits B L) := by ring
      _ = m * (d + B * Nat.ofDigits B L) + c := by
        rw [Nat.add_comm ((d * m + c) % B), hdiv]
        ring

theorem mulCarry_lt (hB : 0 < B) (m : Nat) : ∀ (L : List Nat) (c : Nat), ∀ d ∈ (mulCarry B m L c).1, d < B
  | [], _ => by simp [mulCarry]
  | d :: L, c => by
    intro x hx
    rcases List.mem_cons.mp hx with rfl | hx
    · exact Nat.mod_lt _ hB
    · exact mulCarry_lt hB m L _ x hx

theorem mulCarry_carry_lt {m : Nat} (hm : m ≤ B) :
    ∀ (L : List Nat) (c : Nat), (∀ d ∈ L, d < B) → c < B → (mulCarry B m L c).2 < B
  | [], _, _, hc => hc
  | d :: L, c, hL, hc => by
    have hd := hL d List.mem_cons_self
    have hprod : d * m ≤ (B - 1) * B := Nat.mul_le_mul (by omega) hm
    have ht : (d * m + c) / B < B := by
      apply Nat.div_lt_of_lt_mul
      have : (B - 1) * B + B = B * B := by
        cases B with
        | zero => omega
        | succ B => rw [Nat.add_sub_cancel, Nat.succ_mul, Nat.mul_comm]
      omega
    exact mulCarry_carry_lt hm L _ (fun x hx => hL x (List.mem_cons_of_mem d hx)) ht

section Shr

variable {s : Nat} (hdvd : 2 ^ s ∣ B)
include hdvd

theorem value_shrCarry (L : List Nat) (r : Nat) :
    2 ^ s * (B * BigEndian.value B (shrCarry B s L r).1 + (shrCarry B s L r).2) =
      B * BigEndian.value B L + 2 ^ s * r * B ^ L.length := by
  induction L generalizing r with
  | nil => simp [shrCarry]
  | cons d L ih =>
    have hrec := ih (B / 2 ^ s * (d % 2 ^ s))
    have hB : 2 ^ s * (B / 2 ^ s) = B := Nat.mul_div_cancel' hdvd
    have hd := Nat.div_add_mod d (2 ^ s)
    simp only [shrCarry, BigEndian.value_cons, length_shrCarry, List.length_cons, Nat.pow_succ]
    calc 2 ^ s * (B * ((d / 2 ^ s + r) * B ^ L.length +
            BigEndian.value B (shrCarry B s L (B / 2 ^ s * (d % 2 ^ s))).1) +
          (shrCarry B s L (B / 2 ^ s * (d % 2 ^ s))).2)
        = 2 ^ s * B * (d / 2 ^ s + r) * B ^ L.length +
          2 ^ s * (B * BigEndian.value B (shrCarry B s L (B / 2 ^ s * (d % 2 ^ s))).1 +
            (shrCarry B s L (B / 2 ^ s * (d % 2 ^ s))).2) := by ring
      _ = 2 ^ s * B * (d / 2 ^ s + r) * B ^ L.length +
          (B * BigEndian.value B L + 2 ^ s * (B / 2 ^ s * (d % 2 ^ s)) * B ^ L.length) := by
        rw [hrec]
      _ = B * B ^ L.length * (2 ^ s * (d / 2 ^ s) + d % 2 ^ s) + B * BigEndian.value B L +
          2 ^ s * r * (B ^ L.length * B) := by
        rw [← Nat.mul_assoc (2 ^ s), hB]
        ring
      _ = B * (d * B ^ L.length + BigEndian.value B L) + 2 ^ s * r * (B ^ L.length * B) := by
        rw [hd]
        ring

theorem shrCarry_lt (hs : 0 < 2 ^ s) :
    ∀ (L : List Nat) (r : Nat), (∀ d ∈ L, d < B) → r + B / 2 ^ s ≤ B →
      (∀ d ∈ (shrCarry B s L r).1, d < B) ∧ (shrCarry B s L r).2 + B / 2 ^ s ≤ B
  | [], r, _, hr => ⟨by simp [shrCarry], hr⟩
  | d :: L, r, hL, hr => by
    have hB : 2 ^ s * (B / 2 ^ s) = B := Nat.mul_div_cancel' hdvd
    have hd := hL d List.mem_cons_self
    have hq : d / 2 ^ s < B / 2 ^ s := by
      apply Nat.div_lt_of_lt_mul
      rw [hB]
      exact hd
    have hmod : d % 2 ^ s + 1 ≤ 2 ^ s := Nat.mod_lt d hs
    have hc : B / 2 ^ s * (d % 2 ^ s) + B / 2 ^ s ≤ B := by
      calc B / 2 ^ s * (d % 2 ^ s) + B / 2 ^ s = B / 2 ^ s * (d % 2 ^ s + 1) := by ring
        _ ≤ B / 2 ^ s * 2 ^ s := Nat.mul_le_mul_left _ hmod
        _ = B := by rw [Nat.mul_comm, hB]
    obtain ⟨hrest, hout⟩ :=
      shrCarry_lt hs L _ (fun x hx => hL x (List.mem_cons_of_mem d hx)) hc
    refine ⟨fun x hx => ?_, hout⟩
    rcases List.mem_cons.mp hx with rfl | hx
    · omega
    · exact hrest x hx

end Shr

end Limbs
