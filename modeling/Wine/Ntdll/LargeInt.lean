import Mathlib.Tactic.Ring
import Wine.Lib.DoubleWord

/-! The 64-bit arithmetic helpers of dlls/ntdll/large_int.c that 32-bit code calls for
LONGLONG operations: _allmul and the shifts __regs__allshl, __regs__allshr and
__regs__aullshr. A LARGE_INTEGER is its two 32-bit halves; the helpers compute on the halves
with 32-bit C arithmetic, where a shift count must stay below 32. A signed left shift is
taken as the compilers define it: the bits of the unsigned shift. -/

namespace Wine.Ntdll.LargeInt

open Wine.Lib.DoubleWord

set_option autoImplicit false

def lowPart (x : BitVec 64) : BitVec 32 := lo (w := 32) x

def highPart (x : BitVec 64) : BitVec 32 := hi (w := 32) x

/-- __regs__allshl: a << b. -/
def regsAllshl (a : BitVec 64) (b : UInt8) : Option (BitVec 64) :=
  if 32 ≤ b.toNat then
    if 64 ≤ b.toNat then some ((0 : BitVec 32) ++ (0 : BitVec 32))
    else (shiftLeftC (lowPart a) (b &&& 31).toNat).map fun high => high ++ (0 : BitVec 32)
  else
    (ushiftRightC (lowPart a) (32 - b.toNat)).bind fun h1 =>
    (shiftLeftC (highPart a) b.toNat).bind fun h2 =>
    (shiftLeftC (lowPart a) b.toNat).map fun low => (h1 ||| h2) ++ low

/-- __regs__allshr: the arithmetic a >> b. -/
def regsAllshr (a : BitVec 64) (b : UInt8) : Option (BitVec 64) :=
  if 32 ≤ b.toNat then
    (sshiftRightC (highPart a) 31).bind fun high =>
    (if 64 ≤ b.toNat then sshiftRightC (highPart a) 31
      else sshiftRightC (highPart a) (b &&& 31).toNat).map fun low => high ++ low
  else
    (sshiftRightC (highPart a) b.toNat).bind fun high =>
    (shiftLeftC (highPart a) (32 - b.toNat)).bind fun l1 =>
    (ushiftRightC (lowPart a) b.toNat).map fun l2 => high ++ (l1 ||| l2)

/-- __regs__aullshr: the logical a >> b. -/
def regsAullshr (a : BitVec 64) (b : UInt8) : Option (BitVec 64) :=
  if 32 ≤ b.toNat then
    if 64 ≤ b.toNat then some ((0 : BitVec 32) ++ (0 : BitVec 32))
    else (ushiftRightC (highPart a) (b &&& 31).toNat).map fun low => (0 : BitVec 32) ++ low
  else
    (ushiftRightC (highPart a) b.toNat).bind fun high =>
    (shiftLeftC (highPart a) (32 - b.toNat)).bind fun l1 =>
    (ushiftRightC (lowPart a) b.toNat).map fun l2 => high ++ (l1 ||| l2)

theorem and_31_toNat (b : UInt8) : (b &&& 31).toNat = b.toNat % 32 := by
  rw [UInt8.toNat_and]
  exact Nat.and_two_pow_sub_one_eq_mod b.toNat 5

/-- A count of zero takes the branch for counts below 32, where each helper shifts a 32-bit
half by 32 - 0 = 32. -/
theorem regs_shifts_by_zero_undefined (a : BitVec 64) :
    regsAllshl a 0 = none ∧ regsAllshr a 0 = none ∧ regsAullshr a 0 = none := by
  refine ⟨?_, ?_, ?_⟩
  · simp [regsAllshl]
  · simp [regsAllshr]
  · simp [regsAullshr]

theorem toNat_pos_of_ne_zero {b : UInt8} (hb : b ≠ 0) : 0 < b.toNat := by
  rcases Nat.eq_zero_or_pos b.toNat with h | h
  · exact absurd (UInt8.toNat_inj.1 h) hb
  · exact h

theorem regsAllshl_eq (a : BitVec 64) {b : UInt8} (hb : b ≠ 0) :
    regsAllshl a b = some (a <<< b.toNat) := by
  have hb0 := toNat_pos_of_ne_zero hb
  unfold regsAllshl
  split_ifs with h32 h64
  · rw [BitVec.shiftLeft_eq_zero (show 64 ≤ b.toNat from h64)]
    rfl
  · rw [and_31_toNat, shiftLeftC_of_lt _ (by omega), Option.map_some,
      show b.toNat % 32 = b.toNat - 32 by omega]
    exact congrArg some (shiftLeft_join_of_le (w := 32) a h32)
  · rw [ushiftRightC_of_lt _ (by omega), shiftLeftC_of_lt _ (by omega),
      shiftLeftC_of_lt _ (by omega)]
    exact congrArg some (shiftLeft_join (w := 32) a (by omega))

theorem regsAullshr_eq (a : BitVec 64) {b : UInt8} (hb : b ≠ 0) :
    regsAullshr a b = some (a >>> b.toNat) := by
  have hb0 := toNat_pos_of_ne_zero hb
  unfold regsAullshr
  split_ifs with h32 h64
  · rw [BitVec.ushiftRight_eq_zero (show 64 ≤ b.toNat from h64)]
    rfl
  · rw [and_31_toNat, ushiftRightC_of_lt _ (by omega), Option.map_some,
      show b.toNat % 32 = b.toNat - 32 by omega]
    exact congrArg some (ushiftRight_join_of_le (w := 32) a h32)
  · rw [ushiftRightC_of_lt _ (by omega), shiftLeftC_of_lt _ (by omega),
      ushiftRightC_of_lt _ (by omega)]
    exact congrArg some (ushiftRight_join (w := 32) a (by omega))

theorem regsAllshr_eq (a : BitVec 64) {b : UInt8} (hb : b ≠ 0) :
    regsAllshr a b = some (a.sshiftRight b.toNat) := by
  have hb0 := toNat_pos_of_ne_zero hb
  unfold regsAllshr
  split_ifs with h32 h64
  · rw [sshiftRightC_of_lt _ (by omega), Option.bind_some, Option.map_some,
      ← sshiftRight_join_of_le (w := 32) a h32,
      sshiftRight_sign (hi a) (show 32 - 1 ≤ b.toNat - 32 by omega)]
    rfl
  · rw [sshiftRightC_of_lt _ (by omega), Option.bind_some, and_31_toNat,
      sshiftRightC_of_lt _ (by omega), Option.map_some, show b.toNat % 32 = b.toNat - 32 by omega]
    exact congrArg some (sshiftRight_join_of_le (w := 32) a h32)
  · rw [sshiftRightC_of_lt _ (by omega), shiftLeftC_of_lt _ (by omega),
      ushiftRightC_of_lt _ (by omega)]
    exact congrArg some (sshiftRight_join (w := 32) a (by omega))

/-- For every count from 1 to 255 the three helpers compute the 64-bit shift. -/
theorem regs_shifts_of_ne_zero (a : BitVec 64) {b : UInt8} (hb : b ≠ 0) :
    regsAllshl a b = some (a <<< b.toNat) ∧ regsAllshr a b = some (a.sshiftRight b.toNat) ∧
      regsAullshr a b = some (a >>> b.toNat) :=
  ⟨regsAllshl_eq a hb, regsAllshr_eq a hb, regsAullshr_eq a hb⟩

theorem regs_shifts_by_one :
    regsAllshl 0x8000000000000001 1 = some (0x8000000000000001 <<< (1 : UInt8).toNat) ∧
      regsAllshr 0x8000000000000001 1 = some ((0x8000000000000001 : BitVec 64).sshiftRight
        (1 : UInt8).toNat) ∧
      regsAullshr 0x8000000000000001 1 = some (0x8000000000000001 >>> (1 : UInt8).toNat) :=
  regs_shifts_of_ne_zero 0x8000000000000001 (by decide)

/-- ~0u >> bits_in_word_2. -/
def lowerMask : BitVec 32 := ~~~(0 : BitVec 32) >>> 16

/-- The first part of _allmul: the product of the two low words, as the HighPart and the
LowPart of r, summed from 16-bit partial products. -/
def allmulLow (xl yl : BitVec 32) : BitVec 32 × BitVec 32 :=
  let rl := (xl &&& lowerMask) * (yl &&& lowerMask)
  let t := rl >>> 16
  let rl := rl &&& lowerMask
  let t := t + (xl >>> 16) * (yl &&& lowerMask)
  let rl := rl + ((t &&& lowerMask) <<< 16)
  let rh := t >>> 16
  let t := rl >>> 16
  let rl := rl &&& lowerMask
  let t := t + (yl >>> 16) * (xl &&& lowerMask)
  let rl := rl + ((t &&& lowerMask) <<< 16)
  let rh := rh + (t >>> 16)
  (rh + (xl >>> 16) * (yl >>> 16), rl)

/-- _allmul: the cross products of high and low words are added to the HighPart. -/
def allmul (a b : BitVec 64) : BitVec 64 :=
  let r := allmulLow (lowPart a) (lowPart b)
  (r.1 + (highPart a * lowPart b + lowPart a * highPart b)) ++ r.2

theorem toNat_and_lowerMask (x : BitVec 32) : (x &&& lowerMask).toNat = x.toNat % 2 ^ 16 := by
  have h : lowerMask = BitVec.ofNat 32 (2 ^ 16 - 1) := by decide
  rw [h, BitVec.toNat_and, BitVec.toNat_ofNat]
  exact Nat.and_two_pow_sub_one_eq_mod x.toNat 16

theorem mul_halves (X Y : Nat) :
    X * Y = X % 2 ^ 16 * (Y % 2 ^ 16) +
      2 ^ 16 * (X / 2 ^ 16 * (Y % 2 ^ 16) + Y / 2 ^ 16 * (X % 2 ^ 16)) +
      2 ^ 32 * (X / 2 ^ 16 * (Y / 2 ^ 16)) := by
  have hX : X = X / 2 ^ 16 * 2 ^ 16 + X % 2 ^ 16 := by omega
  have hY : Y = Y / 2 ^ 16 * 2 ^ 16 + Y % 2 ^ 16 := by omega
  conv_lhs => rw [hX, hY]
  ring

theorem mul_lt_of_halves {a b : Nat} (ha : a < 2 ^ 16) (hb : b < 2 ^ 16) :
    a * b ≤ (2 ^ 16 - 1) * (2 ^ 16 - 1) :=
  Nat.mul_le_mul (by omega) (by omega)

theorem allmulLow_toNat (xl yl : BitVec 32) :
    (allmulLow xl yl).1.toNat * 2 ^ 32 + (allmulLow xl yl).2.toNat = xl.toNat * yl.toNat := by
  have hx := xl.isLt
  have hy := yl.isLt
  simp only [allmulLow, BitVec.toNat_add, BitVec.toNat_mul, toNat_and_lowerMask,
    BitVec.toNat_ushiftRight, Nat.shiftRight_eq_div_pow, BitVec.toNat_shiftLeft, Nat.shiftLeft_eq]
  generalize xl.toNat = X at *
  generalize yl.toNat = Y at *
  have h00 := mul_lt_of_halves (Nat.mod_lt X (by decide : 0 < 2 ^ 16)) (Nat.mod_lt Y (by decide))
  have h10 := mul_lt_of_halves (show X / 2 ^ 16 < 2 ^ 16 by omega) (Nat.mod_lt Y (by decide))
  have h01 := mul_lt_of_halves (show Y / 2 ^ 16 < 2 ^ 16 by omega) (Nat.mod_lt X (by decide))
  have h11 := mul_lt_of_halves (show X / 2 ^ 16 < 2 ^ 16 by omega) (show Y / 2 ^ 16 < 2 ^ 16 by omega)
  rw [mul_halves X Y]
  generalize X % 2 ^ 16 * (Y % 2 ^ 16) = p00 at *
  generalize X / 2 ^ 16 * (Y % 2 ^ 16) = p10 at *
  generalize Y / 2 ^ 16 * (X % 2 ^ 16) = p01 at *
  generalize X / 2 ^ 16 * (Y / 2 ^ 16) = p11 at *
  omega

theorem toNat_lowPart (x : BitVec 64) : (lowPart x).toNat = x.toNat % 2 ^ 32 := by
  simp [lowPart, lo]

theorem toNat_highPart (x : BitVec 64) : (highPart x).toNat = x.toNat / 2 ^ 32 := by
  simp only [highPart, hi, BitVec.extractLsb'_toNat, Nat.shiftRight_eq_div_pow]
  have := x.isLt
  omega

theorem toNat_append_words (h l : BitVec 32) : (h ++ l).toNat = h.toNat * 2 ^ 32 + l.toNat := by
  rw [BitVec.toNat_append, ← Nat.shiftLeft_add_eq_or_of_lt l.isLt, Nat.shiftLeft_eq]

theorem allmul_eq (a b : BitVec 64) : allmul a b = a * b := by
  apply BitVec.eq_of_toNat_eq
  have hlow := allmulLow_toNat (lowPart a) (lowPart b)
  have hr := (allmulLow (lowPart a) (lowPart b)).2.isLt
  simp only [allmul]
  rw [toNat_append_words, BitVec.toNat_add, BitVec.toNat_add, BitVec.toNat_mul, BitVec.toNat_mul,
    BitVec.toNat_mul]
  rw [toNat_lowPart, toNat_lowPart, toNat_highPart, toNat_highPart] at *
  have ha : a.toNat = a.toNat / 2 ^ 32 * 2 ^ 32 + a.toNat % 2 ^ 32 := by omega
  have hb : b.toNat = b.toNat / 2 ^ 32 * 2 ^ 32 + b.toNat % 2 ^ 32 := by omega
  have hprod : a.toNat * b.toNat = a.toNat % 2 ^ 32 * (b.toNat % 2 ^ 32) +
      2 ^ 32 * (a.toNat / 2 ^ 32 * (b.toNat % 2 ^ 32) + a.toNat % 2 ^ 32 * (b.toNat / 2 ^ 32)) +
      2 ^ 64 * (a.toNat / 2 ^ 32 * (b.toNat / 2 ^ 32)) := by
    conv_lhs => rw [ha, hb]
    ring
  rw [hprod]
  generalize a.toNat % 2 ^ 32 * (b.toNat % 2 ^ 32) = p00 at *
  generalize a.toNat / 2 ^ 32 * (b.toNat % 2 ^ 32) = p10 at *
  generalize a.toNat % 2 ^ 32 * (b.toNat / 2 ^ 32) = p01 at *
  generalize a.toNat / 2 ^ 32 * (b.toNat / 2 ^ 32) = p11 at *
  generalize (allmulLow (lowPart a) (lowPart b)).1.toNat = r1 at *
  generalize (allmulLow (lowPart a) (lowPart b)).2.toNat = r2 at *
  -- the product of the high words falls out of the 64 bits, and the cross products and the
  -- high word of the low product wrap together in the HighPart
  have hsum : p00 + 2 ^ 32 * (p10 + p01) + 2 ^ 64 * p11 =
      r2 + 2 ^ 32 * (r1 + p10 + p01) + 2 ^ 64 * p11 := by omega
  have hhigh : (r2 + 2 ^ 32 * (r1 + p10 + p01)) % 2 ^ 64 =
      r2 + 2 ^ 32 * ((r1 + p10 + p01) % 2 ^ 32) := by omega
  have hwrap : (r1 + (p10 % 2 ^ 32 + p01 % 2 ^ 32) % 2 ^ 32) % 2 ^ 32 =
      (r1 + p10 + p01) % 2 ^ 32 := by omega
  rw [hsum, Nat.add_mul_mod_self_left, hhigh, hwrap]
  ring

end Wine.Ntdll.LargeInt
