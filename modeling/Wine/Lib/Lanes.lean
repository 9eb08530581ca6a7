import Mathlib.Data.Nat.Digits.Defs
import Mathlib.Data.Nat.Bitwise

/-!
# Words as lanes

A word read from memory is the little-endian value of its lanes of `w` bits,
`Nat.ofDigits (2 ^ w)` of them. A bitwise operation works on each lane by itself, so one
operation on words tests every lane at once, against a lane value repeated across the word.
-/

namespace Lanes

set_option autoImplicit false

variable {w : Nat}

theorem testBit_lane_add {a : Nat} (x : Nat) (ha : a < 2 ^ w) (i : Nat) :
    (a + 2 ^ w * x).testBit i = if i < w then a.testBit i else x.testBit (i - w) := by
  rw [Nat.add_comm]
  exact Nat.testBit_two_pow_mul_add x ha i

theorem xor_lane_add {a b : Nat} (x y : Nat) (ha : a < 2 ^ w) (hb : b < 2 ^ w) :
    (a + 2 ^ w * x) ^^^ (b + 2 ^ w * y) = (a ^^^ b) + 2 ^ w * (x ^^^ y) := by
  apply Nat.eq_of_testBit_eq
  intro i
  rw [Nat.testBit_xor, testBit_lane_add x ha, testBit_lane_add y hb,
    testBit_lane_add _ (Nat.xor_lt_two_pow ha hb)]
  split <;> rw [Nat.testBit_xor]

theorem and_lane_add {a b : Nat} (x y : Nat) (ha : a < 2 ^ w) (hb : b < 2 ^ w) :
    (a + 2 ^ w * x) &&& (b + 2 ^ w * y) = (a &&& b) + 2 ^ w * (x &&& y) := by
  apply Nat.eq_of_testBit_eq
  intro i
  rw [Nat.testBit_and, testBit_lane_add x ha, testBit_lane_add y hb,
    testBit_lane_add _ (Nat.and_lt_two_pow a hb)]
  split <;> rw [Nat.testBit_and]

theorem ofDigits_xor_and {v m : Nat} (hv : v < 2 ^ w) (hm : m < 2 ^ w) :
    ∀ xs : List Nat, (∀ x ∈ xs, x < 2 ^ w) →
      (Nat.ofDigits (2 ^ w) (List.replicate xs.length v) ^^^ Nat.ofDigits (2 ^ w) xs) &&&
          Nat.ofDigits (2 ^ w) (List.replicate xs.length m) =
        Nat.ofDigits (2 ^ w) (xs.map fun x => (v ^^^ x) &&& m)
  | [], _ => by simp
  | x :: xs, hxs => by
    have hx : x < 2 ^ w := hxs x List.mem_cons_self
    rw [List.length_cons, List.replicate_succ, List.replicate_succ, List.map_cons,
      Nat.ofDigits_cons, Nat.ofDigits_cons, Nat.ofDigits_cons, Nat.ofDigits_cons,
      xor_lane_add _ _ hv hx, and_lane_add _ _ (Nat.xor_lt_two_pow hv hx) hm,
      ofDigits_xor_and hv hm xs (fun y hy => hxs y (List.mem_cons_of_mem x hy))]

theorem ofDigits_eq_zero_iff {b : Nat} (hb : 0 < b) :
    ∀ xs : List Nat, Nat.ofDigits b xs = 0 ↔ ∀ x ∈ xs, x = 0
  | [] => by simp
  | x :: xs => by
    rw [Nat.ofDigits_cons, Nat.add_eq_zero_iff, Nat.mul_eq_zero, ofDigits_eq_zero_iff hb xs,
      List.forall_mem_cons]
    simp only [Nat.pos_iff_ne_zero.mp hb, false_or]

theorem xor_and_eq_zero_iff {v m : Nat} (hv : v < 2 ^ w) (hm : m < 2 ^ w) (xs : List Nat)
    (hxs : ∀ x ∈ xs, x < 2 ^ w) :
    (Nat.ofDigits (2 ^ w) (List.replicate xs.length v) ^^^ Nat.ofDigits (2 ^ w) xs) &&&
        Nat.ofDigits (2 ^ w) (List.replicate xs.length m) = 0 ↔
      ∀ x ∈ xs, (v ^^^ x) &&& m = 0 := by
  rw [ofDigits_xor_and hv hm xs hxs, ofDigits_eq_zero_iff (Nat.two_pow_pos w), List.forall_mem_map]

end Lanes
