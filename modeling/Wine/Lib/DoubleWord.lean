import Mathlib

/-! A double word as two words, and shifts of a double word built from shifts of its words,
as 32-bit code computes 64-bit shifts. C leaves a shift by the operand's width or more
undefined; the C shifts here return none for such a count. -/

namespace Wine.Lib.DoubleWord

set_option autoImplicit false

variable {w : Nat}

def hi (x : BitVec (w + w)) : BitVec w := x.extractLsb' w w

def lo (x : BitVec (w + w)) : BitVec w := x.extractLsb' 0 w

/-- x << n in C: a count of the width or more is undefined. -/
def shiftLeftC (x : BitVec w) (n : Nat) : Option (BitVec w) :=
  if n < w then some (x <<< n) else none

/-- x >> n in C on an unsigned operand. -/
def ushiftRightC (x : BitVec w) (n : Nat) : Option (BitVec w) :=
  if n < w then some (x >>> n) else none

/-- x >> n in C on a signed operand, which shifts in copies of the sign bit. -/
def sshiftRightC (x : BitVec w) (n : Nat) : Option (BitVec w) :=
  if n < w then some (x.sshiftRight n) else none

@[simp] theorem shiftLeftC_of_lt (x : BitVec w) {n : Nat} (h : n < w) :
    shiftLeftC x n = some (x <<< n) := if_pos h

@[simp] theorem ushiftRightC_of_lt (x : BitVec w) {n : Nat} (h : n < w) :
    ushiftRightC x n = some (x >>> n) := if_pos h

@[simp] theorem sshiftRightC_of_lt (x : BitVec w) {n : Nat} (h : n < w) :
    sshiftRightC x n = some (x.sshiftRight n) := if_pos h

@[simp] theorem ushiftRightC_width (x : BitVec w) : ushiftRightC x w = none :=
  if_neg (Nat.lt_irrefl w)

@[simp] theorem shiftLeftC_width (x : BitVec w) : shiftLeftC x w = none :=
  if_neg (Nat.lt_irrefl w)

theorem hi_append_lo (x : BitVec (w + w)) : hi x ++ lo x = x := by
  apply BitVec.eq_of_getLsbD_eq
  intro i hlt
  simp only [hi, lo, BitVec.getLsbD_append, BitVec.getLsbD_extractLsb']
  by_cases h : i < w
  · simp [h]
  · simp [h]
    grind

theorem shiftLeft_join (x : BitVec (w + w)) {n : Nat} (hn : n < w) :
    ((lo x >>> (w - n)) ||| (hi x <<< n)) ++ (lo x <<< n) = x <<< n := by
  apply BitVec.eq_of_getLsbD_eq
  intro i hlt
  simp only [hi, lo, BitVec.getLsbD_append, BitVec.getLsbD_extractLsb', BitVec.getLsbD_shiftLeft,
    BitVec.getLsbD_or, BitVec.getLsbD_ushiftRight]
  by_cases h1 : i < w
  · simp [h1]
    grind
  · by_cases h2 : i - w < n
    · simp [h1, h2, show i - n < w + w by omega]
      grind
    · simp [h1, h2]
      grind

theorem shiftLeft_join_of_le (x : BitVec (w + w)) {n : Nat} (hn : w ≤ n) :
    (lo x <<< (n - w)) ++ 0#w = x <<< n := by
  apply BitVec.eq_of_getLsbD_eq
  intro i hlt
  simp only [lo, BitVec.getLsbD_append, BitVec.getLsbD_extractLsb', BitVec.getLsbD_shiftLeft,
    BitVec.getLsbD_zero]
  by_cases h1 : i < w
  · simp [h1]
    grind
  · simp [h1]
    grind

theorem ushiftRight_join (x : BitVec (w + w)) {n : Nat} (hn : n < w) :
    (hi x >>> n) ++ ((hi x <<< (w - n)) ||| (lo x >>> n)) = x >>> n := by
  apply BitVec.eq_of_getLsbD_eq
  intro i hlt
  simp only [hi, lo, BitVec.getLsbD_append, BitVec.getLsbD_extractLsb', BitVec.getLsbD_shiftLeft,
    BitVec.getLsbD_or, BitVec.getLsbD_ushiftRight]
  by_cases h1 : i < w
  · simp [h1]
    grind
  · simp [h1]
    grind

theorem ushiftRight_join_of_le (x : BitVec (w + w)) {n : Nat} (hn : w ≤ n) :
    0#w ++ (hi x >>> (n - w)) = x >>> n := by
  apply BitVec.eq_of_getLsbD_eq
  intro i hlt
  simp only [hi, BitVec.getLsbD_append, BitVec.getLsbD_extractLsb', BitVec.getLsbD_ushiftRight,
    BitVec.getLsbD_zero]
  by_cases h1 : i < w
  · simp [h1]
    grind
  · simp [h1, BitVec.getLsbD_of_ge x (n + i) (by omega)]

theorem sshiftRight_join (x : BitVec (w + w)) {n : Nat} (hn : n < w) :
    (hi x).sshiftRight n ++ ((hi x <<< (w - n)) ||| (lo x >>> n)) = x.sshiftRight n := by
  apply BitVec.eq_of_getLsbD_eq
  intro i hlt
  simp only [hi, lo, BitVec.getLsbD_append, BitVec.getLsbD_extractLsb', BitVec.getLsbD_shiftLeft,
    BitVec.getLsbD_or, BitVec.getLsbD_ushiftRight, BitVec.getLsbD_sshiftRight]
  by_cases h1 : i < w
  · simp [h1]
    grind
  · simp [h1, BitVec.msb_eq_getLsbD_last]
    grind

theorem sshiftRight_join_of_le (x : BitVec (w + w)) {n : Nat} (hn : w ≤ n) :
    (hi x).sshiftRight (w - 1) ++ (hi x).sshiftRight (n - w) = x.sshiftRight n := by
  apply BitVec.eq_of_getLsbD_eq
  intro i hlt
  simp only [hi, BitVec.getLsbD_append, BitVec.getLsbD_extractLsb', BitVec.getLsbD_sshiftRight]
  by_cases h1 : i < w
  · simp [h1, BitVec.msb_eq_getLsbD_last]
    grind
  · simp [h1, BitVec.msb_eq_getLsbD_last]
    grind

theorem sshiftRight_sign (y : BitVec w) {m : Nat} (hm : w - 1 ≤ m) :
    y.sshiftRight m = y.sshiftRight (w - 1) := by
  apply BitVec.eq_of_getLsbD_eq
  intro i hlt
  simp only [BitVec.getLsbD_sshiftRight, BitVec.msb_eq_getLsbD_last]
  grind

end Wine.Lib.DoubleWord
