import Mathlib.Algebra.Order.Field.Rat
import Mathlib.Algebra.GroupWithZero.Basic
import Mathlib.Tactic.LinearCombination
import Wine.Lib.Ring
import Wine.Lib.Limbs

/-!
# Numbers in base 10^9 limbs

`struct bnum`, `bnum_lshift`, `bnum_rshift` and `bnum_mult` (dlls/msvcrt/bnum.h). A bnum is a
real number with a fixed decimal point: limb `i` of the positions `[b, e)` weighs `10^(9 i)`,
and position `i` lives in cell `bnum_idx(b, i)` of a circular buffer of `size` cells.
`bnum_idx` is `idx & (size - 1)`, which for the power-of-two sizes the code uses is `idx` modulo
`size`. The cells are `DWORD`s read as `Nat`: the products in the loops stay below `2 ^ 64`
for `DWORD` limbs, and the carries are kept modulo `2 ^ 32` as the code stores them.
-/

namespace Wine.Msvcrt

set_option autoImplicit false

def limbDigits : Nat := 9
def limbMax : Nat := 1000000000

structure Bnum where
  b : Int
  e : Int
  size : Nat
  data : Nat → Nat

def bnumIdx (x : Bnum) (idx : Int) : Nat := Ring.slot x.size idx

namespace Bnum

/-- `b->data[bnum_idx(b, i)]`. -/
def get (x : Bnum) (i : Int) : Nat := x.data (bnumIdx x i)

/-- `b->data[bnum_idx(b, i)] = v`. -/
def set (x : Bnum) (i : Int) (v : Nat) : Bnum := { x with data := Ring.write x.data x.size i v }

/-- The limbs of the positions `[b, e)`, the lowest first. -/
def limbs (x : Bnum) : List Nat := Ring.window x.data x.size x.b (x.e - x.b).toNat

/-- The number a bnum stands for. -/
def value (x : Bnum) : ℚ := ((Nat.ofDigits limbMax x.limbs : Nat) : ℚ) * 10 ^ ((limbDigits : Int) * x.b)

end Bnum

/-- The loop of `bnum_lshift` and `bnum_mult` over `n` limbs from position `i` up: each limb
becomes the low limb of `mul` of it plus the carry, and a lowest limb that became zero is
dropped by moving `b`. -/
def mulLoop (mul : Nat → Nat) : Nat → Bnum → Int → Nat → Bnum × Nat
  | 0, x, _, rest => (x, rest)
  | n + 1, x, i, rest =>
    let tmp := mul (x.get i) + rest
    let x := x.set i (tmp % limbMax)
    let x := if i = x.b ∧ x.get i = 0 then { x with b := x.b + 1 } else x
    mulLoop mul n x (i + 1) (tmp / limbMax % 2 ^ 32)

/-- The end of `bnum_lshift` and `bnum_mult` when a carry is left: it becomes the new top limb,
and when that fills the buffer the lowest limb is dropped, recorded in bit 0 of the next. -/
def pushLimb (x : Bnum) (rest : Nat) : Bnum :=
  let x := { x.set x.e rest with e := x.e + 1 }
  if bnumIdx x x.b = bnumIdx x x.e then
    let x := if x.get x.b ≠ 0 then x.set (x.b + 1) (x.get (x.b + 1) ||| 1) else x
    { x with b := x.b + 1 }
  else x

def bnumLshift (x : Bnum) (shift : Nat) : Bnum × Bool :=
  match mulLoop (fun d => d <<< shift) (x.e - x.b).toNat x x.b 0 with
  | (x, rest) => if rest ≠ 0 then (pushLimb x rest, true) else (x, false)

def bnumMult (x : Bnum) (mult : Nat) : Bnum :=
  match mulLoop (fun d => d * mult) (x.e - x.b).toNat x x.b 0 with
  | (x, rest) => if rest ≠ 0 then pushLimb x rest else x

/-- The loop of `bnum_rshift` over `n` limbs from position `i` down: each limb is shifted right
with the bits shifted out of the one above put on top, and a top limb that became zero is
dropped by moving `e`. -/
def rshiftLoop (shift : Nat) : Nat → Bnum → Int → Nat → Bool → Bnum × Nat × Bool
  | 0, x, _, rest, ret => (x, rest, ret)
  | n + 1, x, i, rest, ret =>
    let tmp := x.get i &&& ((1 <<< shift) - 1)
    let x := x.set i ((x.get i >>> shift) + rest)
    let rest := (limbMax >>> shift) * tmp
    if i = x.e - 1 ∧ x.get i = 0 then rshiftLoop shift n { x with e := x.e - 1 } (i - 1) rest true
    else rshiftLoop shift n x (i - 1) rest ret

/-- The end of `bnum_rshift` when bits fell out of the lowest limb: a new lowest limb, or bit 0
of the lowest one when the buffer is full. -/
def shiftInLimb (x : Bnum) (rest : Nat) : Bnum :=
  if bnumIdx x (x.b - 1) = bnumIdx x x.e then
    if rest ≠ 0 then x.set x.b (x.get x.b ||| 1) else x
  else { x with b := x.b - 1 }.set (x.b - 1) rest

def bnumRshift (x : Bnum) (shift : Nat) : Bnum × Bool :=
  match rshiftLoop shift (x.e - x.b).toNat x (x.e - 1) 0 false with
  | (x, rest, ret) => (if rest ≠ 0 then shiftInLimb x rest else x, ret)

/-! ## Cells and the value -/

namespace Bnum

@[simp] theorem set_b (x : Bnum) (i : Int) (v : Nat) : (x.set i v).b = x.b := rfl
@[simp] theorem set_e (x : Bnum) (i : Int) (v : Nat) : (x.set i v).e = x.e := rfl
@[simp] theorem set_size (x : Bnum) (i : Int) (v : Nat) : (x.set i v).size = x.size := rfl
@[simp] theorem set_data (x : Bnum) (i : Int) (v : Nat) :
    (x.set i v).data = Ring.write x.data x.size i v := rfl

theorem get_set_self (x : Bnum) (i : Int) (v : Nat) : (x.set i v).get i = v := by
  simp [get, Ring.write, bnumIdx]

theorem get_set_of_ne {x : Bnum} (hsize : 0 < x.size) {i j : Int} (v : Nat) (hne : i ≠ j)
    (hij : i - j < x.size) (hji : j - i < x.size) : (x.set i v).get j = x.get j := by
  simp only [get, set_data, Ring.write, bnumIdx]
  exact Function.update_of_ne (fun h => hne (Ring.slot_inj hsize hji hij h).symm) _ _

theorem get_congr {x y : Bnum} (hdata : x.data = y.data) (hsize : x.size = y.size) (i : Int) :
    x.get i = y.get i := by
  simp only [get, bnumIdx, hdata, hsize]

theorem zpow_limb (lo : Int) (k : Nat) :
    (10 : ℚ) ^ ((limbDigits : Int) * (lo + k)) =
      10 ^ ((limbDigits : Int) * lo) * (limbMax : ℚ) ^ k := by
  have hk : (limbDigits : Int) * k = ((9 * k : Nat) : Int) := by simp [limbDigits]
  rw [Int.mul_add, zpow_add₀ (by norm_num), hk, zpow_natCast, pow_mul]
  norm_num [limbMax]

theorem value_of_zeros {x : Bnum} {lo : Int} {k : Nat} (hb : x.b = lo + k)
    (hzero : Ring.window x.data x.size lo k = List.replicate k 0) :
    x.value = ((Nat.ofDigits limbMax (Ring.window x.data x.size lo (k + (x.e - x.b).toNat)) : Nat) : ℚ) *
      10 ^ ((limbDigits : Int) * lo) := by
  rw [Ring.window_add, hzero, Nat.ofDigits_append, Nat.ofDigits_replicate_zero, Nat.zero_add,
    List.length_replicate, ← hb, value, limbs, hb, zpow_limb]
  push_cast
  ring

end Bnum

/-! ## The loop of `bnum_lshift` and `bnum_mult` -/

section MulLoop

variable {mul : Nat → Nat} {m : Nat}

@[simp] theorem mulLoop_size (n : Nat) (x : Bnum) (i : Int) (rest : Nat) :
    (mulLoop mul n x i rest).1.size = x.size := by
  induction n generalizing x i rest with
  | zero => rfl
  | succ n ih =>
    simp only [mulLoop]
    rw [ih]
    split <;> rfl

@[simp] theorem mulLoop_e (n : Nat) (x : Bnum) (i : Int) (rest : Nat) :
    (mulLoop mul n x i rest).1.e = x.e := by
  induction n generalizing x i rest with
  | zero => rfl
  | succ n ih =>
    simp only [mulLoop]
    rw [ih]
    split <;> rfl

theorem mulLoop_get_of_lt (n : Nat) (x : Bnum) (i : Int) (rest : Nat) (hsize : 0 < x.size)
    {p : Int} (hp : p < i) (hspan : i + n ≤ p + x.size) :
    (mulLoop mul n x i rest).1.get p = x.get p := by
  induction n generalizing x i rest with
  | zero => rfl
  | succ n ih =>
    simp only [mulLoop]
    rw [ih _ _ _ (by split <;> exact hsize) (by omega) (by split <;> simp <;> omega)]
    have hget : ∀ y : Bnum, (if i = y.b ∧ y.get i = 0 then { y with b := y.b + 1 } else y).get p =
        y.get p := fun y => by split <;> rfl
    rw [hget, Bnum.get_set_of_ne hsize _ (by omega) (by omega) (by omega)]

theorem mulLoop_b (n : Nat) (x : Bnum) (i : Int) (rest : Nat) (hsize : 0 < x.size)
    (hbi : x.b ≤ i) (hn : n ≤ x.size) :
    x.b ≤ (mulLoop mul n x i rest).1.b ∧ (mulLoop mul n x i rest).1.b ≤ i + n ∧
      ∀ p, x.b ≤ p → p < (mulLoop mul n x i rest).1.b → (mulLoop mul n x i rest).1.get p = 0 := by
  induction n generalizing x i rest with
  | zero =>
    refine ⟨le_refl _, show x.b ≤ i + 0 by omega, fun p hp hp' => ?_⟩
    exact absurd hp' (show ¬ p < x.b by omega)
  | succ n ih =>
    set v := (mul (x.get i) + rest) % limbMax
    set x₂ : Bnum := { x.set i v with b := x.b + 1 }
    have hx₂b : x₂.b = x.b + 1 := rfl
    have hx₂size : x₂.size = x.size := rfl
    have hx₂get : x₂.get i = v := Bnum.get_set_self x i v
    have hstep : mulLoop mul (n + 1) x i rest =
        mulLoop mul n (if i = x.b ∧ v = 0 then x₂ else x.set i v)
          (i + 1) ((mul (x.get i) + rest) / limbMax % 2 ^ 32) := by
      simp only [mulLoop, Bnum.set_b, Bnum.get_set_self]
      rfl
    rw [hstep]
    by_cases hs : i = x.b ∧ v = 0
    · rw [if_pos hs]
      obtain ⟨hb₁, hb₂, hzero⟩ := ih x₂ (i + 1) ((mul (x.get i) + rest) / limbMax % 2 ^ 32)
        (by rw [hx₂size]; exact hsize) (by rw [hx₂b]; omega) (by rw [hx₂size]; omega)
      rw [hx₂b] at hb₁ hzero
      refine ⟨by omega, by omega, fun p hp hp' => ?_⟩
      by_cases hpi : p = i
      · subst hpi
        rw [mulLoop_get_of_lt _ _ _ _ (by rw [hx₂size]; exact hsize) (by omega)
          (by rw [hx₂size]; omega), hx₂get]
        exact hs.2
      · exact hzero p (by omega) hp'
    · rw [if_neg hs]
      obtain ⟨hb₁, hb₂, hzero⟩ := ih (x.set i v) (i + 1)
        ((mul (x.get i) + rest) / limbMax % 2 ^ 32) hsize (by simp; omega) (by simp; omega)
      exact ⟨hb₁, by omega, hzero⟩

variable (hmul : ∀ d, mul d = d * m) (hm : m ≤ limbMax)
include hmul hm

theorem step_carry_lt {d rest : Nat} (hd : d < limbMax) (hrest : rest < limbMax) :
    (mul d + rest) / limbMax < limbMax := by
  rw [hmul]
  have hprod : d * m ≤ (limbMax - 1) * limbMax := Nat.mul_le_mul (by omega) hm
  apply Nat.div_lt_of_lt_mul
  have : (limbMax - 1) * limbMax + limbMax = limbMax * limbMax := by decide
  omega

/-- What the loop writes is the product of the limbs it goes over, and its carry the carry out
of it. -/
theorem mulLoop_window (n : Nat) (x : Bnum) (i : Int) (rest : Nat) (lo : Int) (hsize : 0 < x.size)
    (hlo : lo ≤ i) (hspan : (i - lo).toNat + n ≤ x.size)
    (hlt : ∀ d ∈ Ring.window x.data x.size i n, d < limbMax) (hrest : rest < limbMax) :
    Ring.window (mulLoop mul n x i rest).1.data x.size lo ((i - lo).toNat + n) =
      Ring.window x.data x.size lo (i - lo).toNat ++
        (Limbs.mulCarry limbMax m (Ring.window x.data x.size i n) rest).1 ∧
    (mulLoop mul n x i rest).2 = (Limbs.mulCarry limbMax m (Ring.window x.data x.size i n) rest).2 := by
  induction n generalizing x i rest with
  | zero => simp [mulLoop, Ring.window_zero, Limbs.mulCarry]
  | succ n ih =>
    rw [Ring.window_cons] at hlt ⊢
    have hd : x.get i < limbMax := hlt _ List.mem_cons_self
    have hcarry := step_carry_lt hmul hm hd hrest
    have hcarry32 : (mul (x.get i) + rest) / limbMax % 2 ^ 32 = (mul (x.get i) + rest) / limbMax :=
      Nat.mod_eq_of_lt (by unfold limbMax at hcarry ⊢; omega)
    set x₁ := x.set i ((mul (x.get i) + rest) % limbMax)
    set x₂ := if i = x₁.b ∧ x₁.get i = 0 then { x₁ with b := x₁.b + 1 } else x₁
    have hdata : x₂.data = x₁.data := by simp only [x₂]; split <;> rfl
    have hsize₂ : x₂.size = x.size := by simp only [x₂]; split <;> rfl
    have habove : Ring.window x₂.data x.size (i + 1) n = Ring.window x.data x.size (i + 1) n := by
      rw [hdata, Bnum.set_data]
      exact Ring.window_write_of_lt hsize (by omega) (by omega)
    have hbelow : Ring.window x₂.data x.size lo ((i - lo).toNat + 1) =
        Ring.window x.data x.size lo (i - lo).toNat ++ [(mul (x.get i) + rest) % limbMax] := by
      have hlast := @Ring.window_write_last ℕ x.data x.size hsize
        ((mul (x.get i) + rest) % limbMax) lo (i - lo).toNat (by omega)
      rw [show lo + ((i - lo).toNat : Int) = i by omega] at hlast
      rw [hdata, Bnum.set_data]
      exact hlast
    have hrec := ih x₂ (i + 1) ((mul (x.get i) + rest) / limbMax % 2 ^ 32)
      (by rw [hsize₂]; exact hsize) (by omega) (by rw [hsize₂]; omega)
      (by rw [hsize₂, habove]; exact fun d hd' => hlt d (List.mem_cons_of_mem _ hd'))
      (by rw [hcarry32]; exact hcarry)
    rw [hsize₂, habove, hcarry32, show (i + 1 - lo).toNat = (i - lo).toNat + 1 by omega,
      hbelow] at hrec
    have hstep : mulLoop mul (n + 1) x i rest =
        mulLoop mul n x₂ (i + 1) ((mul (x.get i) + rest) / limbMax) := by
      rw [← hcarry32]
      rfl
    rw [hstep, show (i - lo).toNat + (n + 1) = (i - lo).toNat + 1 + n by omega, hrec.1, hrec.2]
    simp only [Limbs.mulCarry, hmul, List.append_assoc, List.singleton_append]
    exact ⟨rfl, rfl⟩

end MulLoop

/-! ## `bnum_lshift` and `bnum_mult` -/

namespace Bnum

/-- Limbs below the base, in a buffer that holds them. -/
structure Wf (x : Bnum) : Prop where
  size_pos : 0 < x.size
  le : x.b ≤ x.e
  lt_size : x.e - x.b < x.size
  limbs_lt : ∀ d ∈ x.limbs, d < limbMax

end Bnum

section Mul

variable {mul : Nat → Nat} {m : Nat} {x : Bnum}

/-- The whole loop: the limbs it leaves and its carry out of the top are `m` times the number. -/
theorem mulLoop_spec (hmul : ∀ d, mul d = d * m) (hm : m ≤ limbMax) (hx : x.Wf) :
    (mulLoop mul (x.e - x.b).toNat x x.b 0).1.value +
        ((mulLoop mul (x.e - x.b).toNat x x.b 0).2 : ℚ) * 10 ^ ((limbDigits : Int) * x.e) =
      m * x.value ∧
    x.b ≤ (mulLoop mul (x.e - x.b).toNat x x.b 0).1.b ∧
    (mulLoop mul (x.e - x.b).toNat x x.b 0).1.b ≤ x.e ∧
    (mulLoop mul (x.e - x.b).toNat x x.b 0).1.e = x.e ∧
    (mulLoop mul (x.e - x.b).toNat x x.b 0).1.size = x.size ∧
    (∀ d ∈ (mulLoop mul (x.e - x.b).toNat x x.b 0).1.limbs, d < limbMax) ∧
    (mulLoop mul (x.e - x.b).toNat x x.b 0).2 < limbMax := by
  set n := (x.e - x.b).toNat
  have hn : (n : Int) = x.e - x.b := Int.toNat_of_nonneg (by have := hx.le; omega)
  have hnsize : n < x.size := by have := hx.lt_size; omega
  obtain ⟨hwin, hcarry⟩ := mulLoop_window hmul hm n x x.b 0 x.b hx.size_pos le_rfl
    (by simp only [sub_self, Int.toNat_zero]; omega) hx.limbs_lt (by decide)
  simp only [sub_self, Int.toNat_zero, Nat.zero_add, Ring.window_zero, List.nil_append] at hwin
  obtain ⟨hb₁, hb₂, hzero⟩ := @mulLoop_b mul n x x.b 0 hx.size_pos le_rfl (by omega)
  have hze := @mulLoop_e mul n x x.b 0
  have hzsize := @mulLoop_size mul n x x.b 0
  set z := mulLoop mul n x x.b 0
  have hk : z.1.b = x.b + ((z.1.b - x.b).toNat : Int) := by omega
  have hzeros : Ring.window z.1.data z.1.size x.b (z.1.b - x.b).toNat =
      List.replicate (z.1.b - x.b).toNat 0 :=
    Ring.window_eq_replicate fun k hk' => hzero (x.b + k) (by omega) (by omega)
  have hlen : (z.1.b - x.b).toNat + (z.1.e - z.1.b).toNat = n := by omega
  have hval := Bnum.value_of_zeros hk hzeros
  rw [hlen, hzsize, hwin] at hval
  have hlaw := @Limbs.ofDigits_mulCarry limbMax m (Ring.window x.data x.size x.b n) 0
  rw [Ring.length_window, Nat.add_zero] at hlaw
  refine ⟨?_, hb₁, by omega, hze, hzsize, fun d hd => ?_, ?_⟩
  · have hxval : x.value = ((Nat.ofDigits limbMax (Ring.window x.data x.size x.b n) : Nat) : ℚ) *
        10 ^ ((limbDigits : Int) * x.b) := rfl
    rw [hval, hcarry, show x.e = x.b + (n : Int) by omega, Bnum.zpow_limb, hxval]
    have hcast : ((Nat.ofDigits limbMax (Limbs.mulCarry limbMax m (Ring.window x.data x.size x.b n) 0).1 : Nat) : ℚ) +
        ((Limbs.mulCarry limbMax m (Ring.window x.data x.size x.b n) 0).2 : ℚ) * (limbMax : ℚ) ^ n =
        (m : ℚ) * (Nat.ofDigits limbMax (Ring.window x.data x.size x.b n) : Nat) := by
      exact_mod_cast (by rw [← hlaw]; ring)
    linear_combination (10 : ℚ) ^ ((limbDigits : Int) * x.b) * hcast
  · have hsplit := @Ring.window_add ℕ z.1.data z.1.size x.b (z.1.b - x.b).toNat
      (z.1.e - z.1.b).toNat
    rw [hlen, hzsize, hwin, ← hk] at hsplit
    have hmem : d ∈ (Limbs.mulCarry limbMax m (Ring.window x.data x.size x.b n) 0).1 := by
      rw [hsplit]
      exact List.mem_append_right _ (by simpa [Bnum.limbs, hzsize] using hd)
    exact Limbs.mulCarry_lt (by decide) m _ 0 d hmem
  · rw [hcarry]
    exact Limbs.mulCarry_carry_lt hm _ 0 hx.limbs_lt (by decide)

theorem modifyHead_self (l : List Nat) : l.modifyHead (fun d => d) = l := by
  cases l <;> rfl

theorem pushLimb_eq (z : Bnum) (r : Nat) :
    pushLimb z r =
      let y : Bnum := ⟨z.b, z.e + 1, z.size, Ring.write z.data z.size z.e r⟩
      if bnumIdx y y.b = bnumIdx y y.e then
        let w := if y.get y.b ≠ 0 then y.set (y.b + 1) (y.get (y.b + 1) ||| 1) else y
        { w with b := w.b + 1 }
      else y := rfl

theorem pushLimb_of_room {z : Bnum} (hsize : 0 < z.size) (hle : z.b ≤ z.e)
    (hroom : z.e - z.b + 1 < z.size) (r : Nat) :
    (pushLimb z r).b = z.b ∧ (pushLimb z r).e = z.e + 1 ∧ (pushLimb z r).size = z.size ∧
      (pushLimb z r).limbs = z.limbs ++ [r] ∧
      (pushLimb z r).value = z.value + (r : ℚ) * 10 ^ ((limbDigits : Int) * z.e) := by
  set y : Bnum := ⟨z.b, z.e + 1, z.size, Ring.write z.data z.size z.e r⟩
  have hne : ¬ bnumIdx y y.b = bnumIdx y y.e := fun h =>
    absurd (Ring.slot_inj hsize (by simp [y]; omega) (by simp [y]; omega) h) (by simp [y]; omega)
  have hpush : pushLimb z r = y := by rw [pushLimb_eq]; exact if_neg hne
  have hn : z.e = z.b + ((z.e - z.b).toNat : Int) := by omega
  have hlimbs : y.limbs = z.limbs ++ [r] := by
    have hlast := @Ring.window_write_last ℕ z.data z.size hsize r z.b (z.e - z.b).toNat (by omega)
    rw [← hn] at hlast
    simp only [Bnum.limbs, y]
    rw [show z.e + 1 - z.b = ((z.e - z.b).toNat + 1 : Nat) by omega, Int.toNat_natCast]
    exact hlast
  rw [hpush]
  refine ⟨rfl, rfl, rfl, hlimbs, ?_⟩
  rw [Bnum.value, hlimbs, Nat.ofDigits_append, show y.b = z.b from rfl, Bnum.value, hn,
    Bnum.zpow_limb]
  simp only [Bnum.limbs, Ring.length_window, Nat.ofDigits_singleton]
  push_cast
  ring

theorem pushLimb_of_full {z : Bnum} (hsize : 1 < z.size) (hfull : z.e - z.b + 1 = z.size)
    (r : Nat) :
    (pushLimb z r).b = z.b + 1 ∧ (pushLimb z r).e = z.e + 1 ∧
      (pushLimb z r).limbs =
        (z.limbs.tail ++ [r]).modifyHead fun d => if z.get z.b ≠ 0 then d ||| 1 else d := by
  set y : Bnum := ⟨z.b, z.e + 1, z.size, Ring.write z.data z.size z.e r⟩
  have hsize₀ : 0 < z.size := by omega
  have heq : bnumIdx y y.b = bnumIdx y y.e := by
    show Ring.slot z.size z.b = Ring.slot z.size (z.e + 1)
    rw [show z.e + 1 = z.b + (z.size : Int) by omega, Ring.slot, Ring.slot, ← Int.emod_eq_add_self_emod]
  have hget : y.get y.b = z.get z.b :=
    Bnum.get_set_of_ne (i := z.e) (j := z.b) hsize₀ r (by omega) (by omega) (by omega)
  set n := (z.e - z.b).toNat
  have hn : (n : Int) = z.e - z.b := Int.toNat_of_nonneg (by omega)
  have hkept : Ring.window y.data z.size (z.b + 1) n = z.limbs.tail ++ [r] := by
    have hlast := @Ring.window_write_last ℕ z.data z.size hsize₀ r (z.b + 1) (n - 1) (by omega)
    rw [show z.b + 1 + ((n - 1 : Nat) : Int) = z.e by omega, show n - 1 + 1 = n by omega] at hlast
    rw [show y.data = Ring.write z.data z.size z.e r from rfl, hlast, Bnum.limbs,
      show (z.e - z.b).toNat = n - 1 + 1 by omega, Ring.window_cons, List.tail_cons]
  have hlen : (z.e + 1 - (z.b + 1)).toNat = n := by omega
  rw [pushLimb_eq]
  simp only
  rw [if_pos heq]
  by_cases hz : z.get z.b = 0
  · rw [if_neg (by rw [hget]; exact not_not.mpr hz)]
    refine ⟨rfl, rfl, ?_⟩
    simp only [hz, ne_eq, not_true_eq_false, if_false, modifyHead_self]
    show Ring.window y.data z.size (z.b + 1) (z.e + 1 - (z.b + 1)).toNat = _
    rw [hlen, hkept]
  · rw [if_pos (by rw [hget]; exact hz)]
    refine ⟨rfl, rfl, ?_⟩
    simp only [ne_eq, hz, not_false_eq_true, if_true]
    show Ring.window (Ring.write y.data z.size (z.b + 1) (y.get (z.b + 1) ||| 1)) z.size (z.b + 1)
      (z.e + 1 - (z.b + 1)).toNat = _
    rw [hlen, ← hkept, show n = n - 1 + 1 by omega, Ring.window_write_first hsize₀ (by omega),
      Ring.window_cons]
    rfl

end Mul

/-! ## The loop of `bnum_rshift` -/

section RshiftLoop

variable {s : Nat}

theorem rshiftLoop_succ (n : Nat) (x : Bnum) (i : Int) (rest : Nat) (ret : Bool) :
    rshiftLoop s (n + 1) x i rest ret =
      if i = x.e - 1 ∧ x.get i / 2 ^ s + rest = 0 then
        rshiftLoop s n ⟨x.b, x.e - 1, x.size, Ring.write x.data x.size i (x.get i / 2 ^ s + rest)⟩
          (i - 1) (limbMax / 2 ^ s * (x.get i % 2 ^ s)) true
      else
        rshiftLoop s n (x.set i (x.get i / 2 ^ s + rest)) (i - 1)
          (limbMax / 2 ^ s * (x.get i % 2 ^ s)) ret := by
  simp only [rshiftLoop, Bnum.get_set_self, Bnum.set_e, Nat.shiftRight_eq_div_pow,
    Nat.one_shiftLeft, Nat.and_two_pow_sub_one_eq_mod]
  rfl

theorem rshiftLoop_succ_cases (n : Nat) (x : Bnum) (i : Int) (rest : Nat) (ret : Bool) :
    ∃ x₁ : Bnum, ∃ ret₁ : Bool, x₁.b = x.b ∧ x₁.size = x.size ∧
      x₁.data = Ring.write x.data x.size i (x.get i / 2 ^ s + rest) ∧
      rshiftLoop s (n + 1) x i rest ret =
        rshiftLoop s n x₁ (i - 1) (limbMax / 2 ^ s * (x.get i % 2 ^ s)) ret₁ := by
  rw [rshiftLoop_succ]
  split
  · exact ⟨⟨x.b, x.e - 1, x.size, Ring.write x.data x.size i (x.get i / 2 ^ s + rest)⟩, true,
      rfl, rfl, rfl, rfl⟩
  · exact ⟨x.set i (x.get i / 2 ^ s + rest), ret, rfl, rfl, rfl, rfl⟩

@[simp] theorem rshiftLoop_size (n : Nat) (x : Bnum) (i : Int) (rest : Nat) (ret : Bool) :
    (rshiftLoop s n x i rest ret).1.size = x.size := by
  induction n generalizing x i rest ret with
  | zero => rfl
  | succ n ih =>
    obtain ⟨x₁, ret₁, -, hsize₁, -, hstep⟩ := rshiftLoop_succ_cases (s := s) n x i rest ret
    rw [hstep, ih, hsize₁]

@[simp] theorem rshiftLoop_b (n : Nat) (x : Bnum) (i : Int) (rest : Nat) (ret : Bool) :
    (rshiftLoop s n x i rest ret).1.b = x.b := by
  induction n generalizing x i rest ret with
  | zero => rfl
  | succ n ih =>
    obtain ⟨x₁, ret₁, hb₁, -, -, hstep⟩ := rshiftLoop_succ_cases (s := s) n x i rest ret
    rw [hstep, ih, hb₁]

theorem rshiftLoop_get_of_gt (n : Nat) (x : Bnum) (i : Int) (rest : Nat) (ret : Bool)
    (hsize : 0 < x.size) {p : Int} (hp : i < p) (hspan : p + n < i + 1 + x.size) :
    (rshiftLoop s n x i rest ret).1.get p = x.get p := by
  induction n generalizing x i rest ret with
  | zero => rfl
  | succ n ih =>
    obtain ⟨x₁, ret₁, -, hsize₁, hdata₁, hstep⟩ := rshiftLoop_succ_cases (s := s) n x i rest ret
    rw [hstep, ih _ _ _ _ (by rw [hsize₁]; exact hsize) (by omega) (by rw [hsize₁]; omega),
      Bnum.get_congr (y := x.set i _) hdata₁ hsize₁]
    exact Bnum.get_set_of_ne hsize _ (by omega) (by omega) (by omega)

theorem rshiftLoop_window (n : Nat) (x : Bnum) (i : Int) (rest : Nat) (ret : Bool)
    (hsize : 0 < x.size) (hn : n ≤ x.size) :
    (Ring.window (rshiftLoop s n x i rest ret).1.data x.size (i + 1 - n) n).reverse =
      (Limbs.shrCarry limbMax s (Ring.window x.data x.size (i + 1 - n) n).reverse rest).1 ∧
    (rshiftLoop s n x i rest ret).2.1 =
      (Limbs.shrCarry limbMax s (Ring.window x.data x.size (i + 1 - n) n).reverse rest).2 := by
  induction n generalizing x i rest ret with
  | zero => exact ⟨rfl, rfl⟩
  | succ n ih =>
    have htop : ∀ data : Nat → Nat,
        (Ring.window data x.size (i + 1 - ((n + 1 : Nat) : Int)) (n + 1)).reverse =
          data (Ring.slot x.size i) :: (Ring.window data x.size (i - 1 + 1 - n) n).reverse := by
      intro data
      rw [Ring.window_succ, List.reverse_append,
        show i + 1 - ((n + 1 : Nat) : Int) + (n : Int) = i by omega,
        show i - 1 + 1 - (n : Int) = i + 1 - ((n + 1 : Nat) : Int) by omega]
      rfl
    obtain ⟨x₁, ret₁, -, hsize₁, hdata₁, hstep⟩ := rshiftLoop_succ_cases (s := s) n x i rest ret
    have hrec := ih x₁ (i - 1) (limbMax / 2 ^ s * (x.get i % 2 ^ s)) ret₁
      (by rw [hsize₁]; exact hsize) (by rw [hsize₁]; omega)
    have hbelow : Ring.window x₁.data x.size (i - 1 + 1 - n) n =
        Ring.window x.data x.size (i - 1 + 1 - n) n := by
      rw [hdata₁]
      exact Ring.window_write_of_ge hsize (by omega) (by omega)
    have hcell : (rshiftLoop s n x₁ (i - 1) (limbMax / 2 ^ s * (x.get i % 2 ^ s)) ret₁).1.data
        (Ring.slot x.size i) = x.get i / 2 ^ s + rest := by
      have h := rshiftLoop_get_of_gt (s := s) n x₁ (i - 1) (limbMax / 2 ^ s * (x.get i % 2 ^ s))
        ret₁ (by rw [hsize₁]; exact hsize) (p := i) (by omega) (by rw [hsize₁]; omega)
      rw [Bnum.get_congr (y := x.set i _) hdata₁ hsize₁, Bnum.get_set_self] at h
      simpa only [Bnum.get, bnumIdx, rshiftLoop_size, hsize₁] using h
    rw [hsize₁, hbelow] at hrec
    rw [hstep, htop, htop, hcell, hrec.1, hrec.2]
    exact ⟨rfl, rfl⟩

theorem rshiftLoop_e (n : Nat) (x : Bnum) (i : Int) (rest : Nat) (ret : Bool)
    (hsize : 0 < x.size) (hn : n ≤ x.size) (hi : i + 1 ≤ x.e) :
    (rshiftLoop s n x i rest ret).1.e ≤ x.e ∧ i + 1 - n ≤ (rshiftLoop s n x i rest ret).1.e ∧
      (i + 1 < x.e → (rshiftLoop s n x i rest ret).1.e = x.e) ∧
      (rshiftLoop s n x i rest ret).2.2 =
        (ret || decide ((rshiftLoop s n x i rest ret).1.e ≠ x.e)) ∧
      ∀ p, (rshiftLoop s n x i rest ret).1.e ≤ p → p < x.e →
        (rshiftLoop s n x i rest ret).1.get p = 0 := by
  induction n generalizing x i rest ret with
  | zero =>
    have he : (rshiftLoop s 0 x i rest ret).1.e = x.e := rfl
    refine ⟨he.le, by rw [he]; omega, fun _ => he, by rw [he]; simp [rshiftLoop], fun p hp hp' => ?_⟩
    exact absurd hp' (by omega)
  | succ n ih =>
    rw [rshiftLoop_succ]
    by_cases hs : i = x.e - 1 ∧ x.get i / 2 ^ s + rest = 0
    · rw [if_pos hs]
      set x₂ : Bnum := ⟨x.b, x.e - 1, x.size, Ring.write x.data x.size i (x.get i / 2 ^ s + rest)⟩
      have hx₂e : x₂.e = x.e - 1 := rfl
      obtain ⟨h₁, h₂, -, h₄, h₅⟩ := ih x₂ (i - 1) (limbMax / 2 ^ s * (x.get i % 2 ^ s)) true
        hsize (show n ≤ x.size by omega) (by rw [hx₂e]; omega)
      rw [hx₂e] at h₁ h₅
      refine ⟨by omega, by omega, fun h => absurd h (by omega), ?_, fun p hp hp' => ?_⟩
      · rw [h₄, Bool.true_or, decide_eq_true (by omega), Bool.or_true]
      · by_cases hpi : p = i
        · rw [hpi, rshiftLoop_get_of_gt n x₂ (i - 1) _ true hsize (by omega)
            (show i + n < i - 1 + 1 + x.size by omega)]
          exact (Bnum.get_set_self x i _).trans hs.2
        · exact h₅ p hp (by omega)
    · rw [if_neg hs]
      obtain ⟨h₁, h₂, h₃, h₄, -⟩ := ih (x.set i (x.get i / 2 ^ s + rest)) (i - 1)
        (limbMax / 2 ^ s * (x.get i % 2 ^ s)) ret hsize (by rw [Bnum.set_size]; omega)
        (by rw [Bnum.set_e]; omega)
      simp only [Bnum.set_e] at h₁ h₂ h₃ h₄
      have hye := h₃ (by omega)
      exact ⟨by omega, by omega, fun _ => hye, h₄, fun p hp hp' => absurd hp' (by omega)⟩

end RshiftLoop

/-! ## The end of `bnum_rshift` -/

theorem shiftInLimb_of_room {y : Bnum} (hsize : 0 < y.size) (hle : y.b ≤ y.e)
    (hroom : y.e - y.b + 1 < y.size) (r : Nat) :
    (shiftInLimb y r).b = y.b - 1 ∧ (shiftInLimb y r).e = y.e ∧ (shiftInLimb y r).size = y.size ∧
      (shiftInLimb y r).limbs = r :: y.limbs := by
  have hne : ¬ bnumIdx y (y.b - 1) = bnumIdx y y.e := fun h =>
    absurd (Ring.slot_inj hsize (by omega) (by omega) h) (by omega)
  unfold shiftInLimb
  rw [if_neg hne]
  refine ⟨rfl, rfl, rfl, ?_⟩
  show Ring.window (Ring.write y.data y.size (y.b - 1) r) y.size (y.b - 1) (y.e - (y.b - 1)).toNat =
    r :: Ring.window y.data y.size y.b (y.e - y.b).toNat
  rw [show (y.e - (y.b - 1)).toNat = (y.e - y.b).toNat + 1 by omega,
    Ring.window_write_first hsize (by omega), sub_add_cancel]

theorem shiftInLimb_of_full {y : Bnum} (hsize : 0 < y.size) (hfull : y.e - y.b + 1 = y.size)
    (r : Nat) :
    (shiftInLimb y r).b = y.b ∧ (shiftInLimb y r).e = y.e ∧ (shiftInLimb y r).size = y.size ∧
      (shiftInLimb y r).limbs = y.limbs.modifyHead fun d => if r ≠ 0 then d ||| 1 else d := by
  have heq : bnumIdx y (y.b - 1) = bnumIdx y y.e := by
    show Ring.slot y.size (y.b - 1) = Ring.slot y.size y.e
    rw [show y.e = y.b - 1 + (y.size : Int) by omega, Ring.slot, Ring.slot,
      ← Int.emod_eq_add_self_emod]
  unfold shiftInLimb
  rw [if_pos heq]
  by_cases hr : r = 0
  · rw [if_neg (not_not.mpr hr)]
    refine ⟨rfl, rfl, rfl, ?_⟩
    simp only [hr, ne_eq, not_true_eq_false, if_false, modifyHead_self]
  · rw [if_pos hr]
    refine ⟨rfl, rfl, rfl, ?_⟩
    simp only [ne_eq, hr, not_false_eq_true, if_true]
    show Ring.window (Ring.write y.data y.size y.b (y.get y.b ||| 1)) y.size y.b
      (y.e - y.b).toNat = (Ring.window y.data y.size y.b (y.e - y.b).toNat).modifyHead _
    -- a buffer of one cell holds no limb, and the bit goes to a cell outside the window
    obtain hzero | hpos := Nat.eq_zero_or_pos (y.e - y.b).toNat
    · rw [hzero]
      rfl
    · rw [show (y.e - y.b).toNat = (y.e - y.b).toNat - 1 + 1 by omega,
        Ring.window_write_first hsize (by omega), Ring.window_cons]
      rfl

/-! ## `bnum_rshift` -/

section Rshift

variable {x : Bnum} {s : Nat}

theorem two_pow_dvd_limbMax (hs : s ≤ 9) : 2 ^ s ∣ limbMax :=
  (Nat.pow_dvd_pow 2 hs).trans ⟨1953125, rfl⟩

/-- The whole loop: over the base, the limbs it leaves and what falls out of the lowest are the
number divided by `2 ^ s`; it moved `e` down only over zero limbs, and reports whether it did. -/
theorem rshiftLoop_spec (hx : x.Wf) (hs : s ≤ 9) :
    2 ^ s * (limbMax * Nat.ofDigits limbMax (rshiftLoop s (x.e - x.b).toNat x (x.e - 1) 0 false).1.limbs +
        (rshiftLoop s (x.e - x.b).toNat x (x.e - 1) 0 false).2.1) =
      limbMax * Nat.ofDigits limbMax x.limbs ∧
    (rshiftLoop s (x.e - x.b).toNat x (x.e - 1) 0 false).1.b = x.b ∧
    (rshiftLoop s (x.e - x.b).toNat x (x.e - 1) 0 false).1.size = x.size ∧
    x.b ≤ (rshiftLoop s (x.e - x.b).toNat x (x.e - 1) 0 false).1.e ∧
    (rshiftLoop s (x.e - x.b).toNat x (x.e - 1) 0 false).1.e ≤ x.e ∧
    (rshiftLoop s (x.e - x.b).toNat x (x.e - 1) 0 false).2.2 =
      decide ((rshiftLoop s (x.e - x.b).toNat x (x.e - 1) 0 false).1.e ≠ x.e) ∧
    (∀ d ∈ (rshiftLoop s (x.e - x.b).toNat x (x.e - 1) 0 false).1.limbs, d < limbMax) ∧
    (rshiftLoop s (x.e - x.b).toNat x (x.e - 1) 0 false).2.1 < limbMax := by
  set n := (x.e - x.b).toNat
  have hn : (n : Int) = x.e - x.b := Int.toNat_of_nonneg (by have := hx.le; omega)
  have hnsize : n ≤ x.size := by have := hx.lt_size; omega
  have hlo : x.e - 1 + 1 - (n : Int) = x.b := by omega
  obtain ⟨hwin, hrest⟩ := rshiftLoop_window (s := s) n x (x.e - 1) 0 false hx.size_pos hnsize
  obtain ⟨he₁, he₂, -, hret, hzero⟩ :=
    rshiftLoop_e (s := s) n x (x.e - 1) 0 false hx.size_pos hnsize (by omega)
  rw [hlo] at hwin hrest he₂
  have hyb := rshiftLoop_b (s := s) n x (x.e - 1) 0 false
  have hysize := rshiftLoop_size (s := s) n x (x.e - 1) 0 false
  set y := rshiftLoop s n x (x.e - 1) 0 false
  have hW : Ring.window y.1.data x.size x.b n =
      y.1.limbs ++ List.replicate (x.e - y.1.e).toNat 0 := by
    have hsplit := @Ring.window_add ℕ y.1.data x.size x.b (y.1.e - x.b).toNat
      (x.e - y.1.e).toNat
    rw [show (y.1.e - x.b).toNat + (x.e - y.1.e).toNat = n by omega] at hsplit
    rw [hsplit, Bnum.limbs, hyb, hysize]
    congr 1
    apply Ring.window_eq_replicate
    intro k hk
    have h := hzero (x.b + ((y.1.e - x.b).toNat : Int) + k) (by omega) (by omega)
    simpa only [Bnum.get, bnumIdx, hysize] using h
  have hdvd := two_pow_dvd_limbMax hs
  have hlaw := Limbs.value_shrCarry hdvd (Ring.window x.data x.size x.b n).reverse 0
  rw [← hwin, ← hrest, hW] at hlaw
  simp only [BigEndian.value, List.reverse_reverse, Nat.ofDigits_append_replicate_zero,
    Nat.mul_zero, Nat.zero_mul, Nat.add_zero] at hlaw
  obtain ⟨hlt, hout⟩ := Limbs.shrCarry_lt hdvd (by positivity)
    (Ring.window x.data x.size x.b n).reverse 0
    (fun d hd => hx.limbs_lt d (List.mem_reverse.mp hd)) (by rw [Nat.zero_add]; exact Nat.div_le_self _ _)
  rw [← hwin, hW] at hlt
  rw [← hrest] at hout
  have hquot : 0 < limbMax / 2 ^ s :=
    Nat.div_pos ((Nat.pow_le_pow_right (by decide) hs).trans (by decide)) (by positivity)
  refine ⟨hlaw, hyb, hysize, he₂, he₁, by rw [hret, Bool.false_or], fun d hd => hlt d ?_, by omega⟩
  exact List.mem_reverse.mpr (List.mem_append_left _ hd)

theorem bnumRshift_spec (hx : x.Wf) (hs : s ≤ 9) (hroom : x.e - x.b + 1 < x.size) :
    (bnumRshift x s).1.value * 2 ^ s = x.value ∧ (bnumRshift x s).1.Wf ∧
      x.b - 1 ≤ (bnumRshift x s).1.b ∧ (bnumRshift x s).1.b ≤ x.b ∧
      (bnumRshift x s).1.e ≤ x.e ∧ ((bnumRshift x s).2 = true ↔ (bnumRshift x s).1.e ≠ x.e) := by
  obtain ⟨hlaw, hyb, hysize, he₂, he₁, hret, hlt, hrest⟩ := rshiftLoop_spec hx hs
  set y := rshiftLoop s (x.e - x.b).toNat x (x.e - 1) 0 false
  have hfst : (bnumRshift x s).1 = if y.2.1 ≠ 0 then shiftInLimb y.1 y.2.1 else y.1 := rfl
  have hsnd : (bnumRshift x s).2 = y.2.2 := rfl
  have hB : (limbMax : ℚ) ≠ 0 := by norm_num [limbMax]
  have hq : (2 : ℚ) ^ s * ((limbMax : ℚ) * (Nat.ofDigits limbMax y.1.limbs : Nat) + y.2.1) =
      limbMax * (Nat.ofDigits limbMax x.limbs : Nat) := by exact_mod_cast hlaw
  have hxval : x.value =
      ((Nat.ofDigits limbMax x.limbs : Nat) : ℚ) * 10 ^ ((limbDigits : Int) * x.b) := rfl
  have hxsize := hx.lt_size
  rw [hfst, hsnd]
  by_cases hr : y.2.1 = 0
  · rw [if_neg (not_not.mpr hr)]
    refine ⟨?_, ⟨by rw [hysize]; exact hx.size_pos, by omega, by rw [hysize]; omega, hlt⟩,
      by omega, by omega, he₁, by rw [hret]; simp⟩
    apply mul_left_cancel₀ hB
    rw [Bnum.value, hyb, hxval]
    rw [hr, Nat.cast_zero, add_zero] at hq
    linear_combination (10 : ℚ) ^ ((limbDigits : Int) * x.b) * hq
  · rw [if_pos hr]
    obtain ⟨hb', he', hsize', hlimbs'⟩ := shiftInLimb_of_room (y := y.1)
      (by rw [hysize]; exact hx.size_pos) (by omega) (by rw [hysize]; omega) y.2.1
    have hpow : (10 : ℚ) ^ ((limbDigits : Int) * x.b) =
        10 ^ ((limbDigits : Int) * (x.b - 1)) * (limbMax : ℚ) ^ 1 := by
      have h := Bnum.zpow_limb (x.b - 1) 1
      rwa [show x.b - 1 + ((1 : Nat) : Int) = x.b by omega] at h
    refine ⟨?_, ⟨by rw [hsize', hysize]; exact hx.size_pos, by omega,
      by rw [hsize', hysize]; omega, ?_⟩, by omega, by omega, by omega, by rw [he', hret]; simp⟩
    · rw [Bnum.value, hlimbs', hb', hyb, Nat.ofDigits_cons, Nat.cast_add, Nat.cast_mul, hxval, hpow]
      linear_combination (10 : ℚ) ^ ((limbDigits : Int) * (x.b - 1)) * hq
    · rw [hlimbs']
      exact List.forall_mem_cons.mpr ⟨hrest, hlt⟩

theorem bnumRshift_eq {y : Bnum} {r : Nat} {ret : Bool}
    (hy : rshiftLoop s (x.e - x.b).toNat x (x.e - 1) 0 false = (y, r, ret)) :
    bnumRshift x s = (if r ≠ 0 then shiftInLimb y r else y, ret) := by
  unfold bnumRshift
  rw [hy]

theorem bnumRshift_of_full (hx : x.Wf) (hs : s ≤ 9) {y : Bnum} {r : Nat} {ret : Bool}
    (hy : rshiftLoop s (x.e - x.b).toNat x (x.e - 1) 0 false = (y, r, ret))
    (hfull : y.e - y.b + 1 = y.size) :
    ((Nat.ofDigits limbMax (r :: y.limbs) : Nat) : ℚ) * 10 ^ ((limbDigits : Int) * (y.b - 1)) *
        2 ^ s = x.value ∧
      (bnumRshift x s).1.b = y.b ∧
      (bnumRshift x s).1.limbs = y.limbs.modifyHead fun d => if r ≠ 0 then d ||| 1 else d := by
  have hspec := rshiftLoop_spec hx hs
  rw [hy] at hspec
  dsimp only at hspec
  obtain ⟨hlaw, hyb, hysize, -, -, -, -, -⟩ := hspec
  obtain ⟨hb', -, -, hlimbs'⟩ := shiftInLimb_of_full (y := y) (by rw [hysize]; exact hx.size_pos) hfull r
  have hq : (2 : ℚ) ^ s * ((limbMax : ℚ) * (Nat.ofDigits limbMax y.limbs : Nat) + r) =
      limbMax * (Nat.ofDigits limbMax x.limbs : Nat) := by exact_mod_cast hlaw
  have hpow : (10 : ℚ) ^ ((limbDigits : Int) * x.b) =
      10 ^ ((limbDigits : Int) * (x.b - 1)) * (limbMax : ℚ) ^ 1 := by
    have h := Bnum.zpow_limb (x.b - 1) 1
    rwa [show x.b - 1 + ((1 : Nat) : Int) = x.b by omega] at h
  refine ⟨?_, ?_⟩
  · rw [Nat.ofDigits_cons, Nat.cast_add, Nat.cast_mul, hyb, show x.value =
      ((Nat.ofDigits limbMax x.limbs : Nat) : ℚ) * 10 ^ ((limbDigits : Int) * x.b) from rfl, hpow]
    linear_combination (10 : ℚ) ^ ((limbDigits : Int) * (x.b - 1)) * hq
  · rw [bnumRshift_eq hy]
    by_cases hr : r = 0
    · rw [if_neg (not_not.mpr hr)]
      refine ⟨rfl, ?_⟩
      simp only [hr, ne_eq, not_true_eq_false, if_false, modifyHead_self]
    · rw [if_pos hr]
      exact ⟨hb', hlimbs'⟩

end Rshift

/-! ## The ends of `bnum_lshift` and `bnum_mult` -/

section MulPush

variable {mul : Nat → Nat} {m : Nat} {x z : Bnum} {r : Nat}

theorem mulPush_of_zero (hmul : ∀ d, mul d = d * m) (hm : m ≤ limbMax) (hx : x.Wf)
    (hz : mulLoop mul (x.e - x.b).toNat x x.b 0 = (z, 0)) :
    z.value = m * x.value ∧ z.Wf ∧ x.b ≤ z.b ∧ z.e = x.e := by
  have hspec := mulLoop_spec hmul hm hx
  rw [hz] at hspec
  dsimp only at hspec
  obtain ⟨hval, hb₁, hb₂, he, hsize, hlt, -⟩ := hspec
  rw [Nat.cast_zero, zero_mul, add_zero] at hval
  have hxsize := hx.lt_size
  exact ⟨hval, ⟨by rw [hsize]; exact hx.size_pos, by omega, by rw [hsize]; omega, hlt⟩, hb₁, he⟩

theorem mulPush_of_carry (hmul : ∀ d, mul d = d * m) (hm : m ≤ limbMax) (hx : x.Wf)
    (hroom : x.e - x.b + 1 < x.size) (hz : mulLoop mul (x.e - x.b).toNat x x.b 0 = (z, r)) :
    (pushLimb z r).value = m * x.value ∧ (pushLimb z r).Wf ∧ x.b ≤ (pushLimb z r).b ∧
      (pushLimb z r).e = x.e + 1 := by
  have hspec := mulLoop_spec hmul hm hx
  rw [hz] at hspec
  dsimp only at hspec
  obtain ⟨hval, hb₁, hb₂, he, hsize, hlt, hcarry⟩ := hspec
  obtain ⟨pb, pe, psize, plimbs, pval⟩ :=
    pushLimb_of_room (z := z) (by rw [hsize]; exact hx.size_pos) (by omega) (by rw [hsize]; omega) r
  refine ⟨by rw [pval, he, ← hval], ⟨by rw [psize, hsize]; exact hx.size_pos, by omega,
    by rw [psize, hsize]; omega, ?_⟩, by omega, by rw [pe, he]⟩
  rw [plimbs]
  intro d hd
  rcases List.mem_append.mp hd with hd | hd
  · exact hlt d hd
  · rw [List.mem_singleton.mp hd]
    exact hcarry

theorem mulPush_of_full (hmul : ∀ d, mul d = d * m) (hm : m ≤ limbMax) (hx : x.Wf)
    (hz : mulLoop mul (x.e - x.b).toNat x x.b 0 = (z, r)) (hr : r ≠ 0)
    (hfull : z.e - z.b + 1 = z.size) :
    ((Nat.ofDigits limbMax (z.limbs ++ [r]) : Nat) : ℚ) * 10 ^ ((limbDigits : Int) * z.b) =
        m * x.value ∧
      (pushLimb z r).b = z.b + 1 ∧
      (pushLimb z r).limbs =
        (z.limbs.tail ++ [r]).modifyHead fun d => if z.get z.b ≠ 0 then d ||| 1 else d := by
  have hspec := mulLoop_spec hmul hm hx
  rw [hz] at hspec
  dsimp only at hspec
  obtain ⟨hval, hb₁, hb₂, he, hsize, -, -⟩ := hspec
  have hpos : 0 < (x.e - x.b).toNat := by
    rcases Nat.eq_zero_or_pos (x.e - x.b).toNat with h | h
    · rw [h] at hz
      exact absurd (Prod.mk.inj hz).2.symm hr
    · exact h
  have hxsize := hx.lt_size
  obtain ⟨pb, -, plimbs⟩ := pushLimb_of_full (z := z) (by omega) hfull r
  refine ⟨?_, pb, plimbs⟩
  rw [← hval, Nat.ofDigits_append, Nat.ofDigits_singleton, Bnum.value, ← he,
    show z.e = z.b + ((z.e - z.b).toNat : Nat) by omega, Bnum.zpow_limb]
  simp only [Bnum.limbs, Ring.length_window]
  push_cast
  ring

end MulPush

/-! ## `bnum_lshift` and `bnum_mult` -/

section Lshift

variable {x : Bnum}

theorem shiftLeft_eq_mul (shift : Nat) : ∀ d, d <<< shift = d * 2 ^ shift := fun d =>
  Nat.shiftLeft_eq d shift

theorem two_pow_le_limbMax {shift : Nat} (hs : shift ≤ 29) : 2 ^ shift ≤ limbMax :=
  (Nat.pow_le_pow_right (by decide) hs).trans (by decide)

theorem bnumLshift_eq {shift : Nat} {z : Bnum} {r : Nat}
    (hz : mulLoop (fun d => d <<< shift) (x.e - x.b).toNat x x.b 0 = (z, r)) :
    bnumLshift x shift = if r ≠ 0 then (pushLimb z r, true) else (z, false) := by
  unfold bnumLshift
  rw [hz]

theorem bnumMult_eq {mult : Nat} {z : Bnum} {r : Nat}
    (hz : mulLoop (fun d => d * mult) (x.e - x.b).toNat x x.b 0 = (z, r)) :
    bnumMult x mult = if r ≠ 0 then pushLimb z r else z := by
  unfold bnumMult
  rw [hz]

theorem bnumLshift_spec (hx : x.Wf) {shift : Nat} (hs : shift ≤ 29) (hroom : x.e - x.b + 1 < x.size) :
    (bnumLshift x shift).1.value = 2 ^ shift * x.value ∧ (bnumLshift x shift).1.Wf ∧
      ((bnumLshift x shift).2 = true ↔ (bnumLshift x shift).1.e ≠ x.e) := by
  rcases h : mulLoop (fun d => d <<< shift) (x.e - x.b).toNat x x.b 0 with ⟨z, r⟩
  rw [bnumLshift_eq h]
  by_cases hr : r = 0
  · subst hr
    obtain ⟨hval, hwf, -, he⟩ := mulPush_of_zero (shiftLeft_eq_mul shift) (two_pow_le_limbMax hs) hx h
    rw [if_neg (not_not.mpr rfl)]
    refine ⟨by rw [hval]; push_cast; rfl, hwf, by simp [he]⟩
  · obtain ⟨hval, hwf, -, he⟩ :=
      mulPush_of_carry (shiftLeft_eq_mul shift) (two_pow_le_limbMax hs) hx hroom h
    rw [if_pos hr]
    refine ⟨by rw [hval]; push_cast; rfl, hwf, by simp [he]⟩

theorem bnumMult_spec (hx : x.Wf) {mult : Nat} (hk : mult ≤ limbMax) (hroom : x.e - x.b + 1 < x.size) :
    (bnumMult x mult).value = mult * x.value ∧ (bnumMult x mult).Wf := by
  rcases h : mulLoop (fun d => d * mult) (x.e - x.b).toNat x x.b 0 with ⟨z, r⟩
  rw [bnumMult_eq h]
  by_cases hr : r = 0
  · subst hr
    obtain ⟨hval, hwf, -, -⟩ := mulPush_of_zero (fun d => rfl) hk hx h
    rw [if_neg (not_not.mpr rfl)]
    exact ⟨hval, hwf⟩
  · obtain ⟨hval, hwf, -, -⟩ := mulPush_of_carry (fun d => rfl) hk hx hroom h
    rw [if_pos hr]
    exact ⟨hval, hwf⟩

/-- The three operations on well-formed bnums are exact in a buffer with room for one more limb,
and report whether `e` moved; in a full buffer, the lowest limb of the exact result is dropped
and recorded in bit 0 of the next. -/
theorem bnumOps_exact_sticky :
    (∀ (x : Bnum) (shift : Nat), x.Wf → x.e - x.b + 1 < x.size → shift ≤ 29 →
      (bnumLshift x shift).1.value = 2 ^ shift * x.value ∧ (bnumLshift x shift).1.Wf ∧
        ((bnumLshift x shift).2 = true ↔ (bnumLshift x shift).1.e ≠ x.e)) ∧
    (∀ (x : Bnum) (shift : Nat), x.Wf → x.e - x.b + 1 < x.size → shift ≤ 9 →
      (bnumRshift x shift).1.value = x.value / 2 ^ shift ∧ (bnumRshift x shift).1.Wf ∧
        x.b - 1 ≤ (bnumRshift x shift).1.b ∧
        ((bnumRshift x shift).2 = true ↔ (bnumRshift x shift).1.e ≠ x.e)) ∧
    (∀ (x : Bnum) (mult : Nat), x.Wf → x.e - x.b + 1 < x.size → mult ≤ limbMax →
      (bnumMult x mult).value = mult * x.value ∧ (bnumMult x mult).Wf) ∧
    (∀ (x : Bnum) (shift : Nat) (z : Bnum) (r : Nat), x.Wf → shift ≤ 29 →
      mulLoop (fun d => d <<< shift) (x.e - x.b).toNat x x.b 0 = (z, r) → r ≠ 0 →
      z.e - z.b + 1 = z.size →
      ((Nat.ofDigits limbMax (z.limbs ++ [r]) : Nat) : ℚ) * 10 ^ ((limbDigits : Int) * z.b) =
          2 ^ shift * x.value ∧
        (bnumLshift x shift).1.b = z.b + 1 ∧
        (bnumLshift x shift).1.limbs =
          (z.limbs.tail ++ [r]).modifyHead fun d => if z.get z.b ≠ 0 then d ||| 1 else d) ∧
    (∀ (x : Bnum) (mult : Nat) (z : Bnum) (r : Nat), x.Wf → mult ≤ limbMax →
      mulLoop (fun d => d * mult) (x.e - x.b).toNat x x.b 0 = (z, r) → r ≠ 0 →
      z.e - z.b + 1 = z.size →
      ((Nat.ofDigits limbMax (z.limbs ++ [r]) : Nat) : ℚ) * 10 ^ ((limbDigits : Int) * z.b) =
          mult * x.value ∧
        (bnumMult x mult).b = z.b + 1 ∧
        (bnumMult x mult).limbs =
          (z.limbs.tail ++ [r]).modifyHead fun d => if z.get z.b ≠ 0 then d ||| 1 else d) ∧
    (∀ (x : Bnum) (shift : Nat) (y : Bnum) (r : Nat) (ret : Bool), x.Wf → shift ≤ 9 →
      rshiftLoop shift (x.e - x.b).toNat x (x.e - 1) 0 false = (y, r, ret) →
      y.e - y.b + 1 = y.size →
      ((Nat.ofDigits limbMax (r :: y.limbs) : Nat) : ℚ) * 10 ^ ((limbDigits : Int) * (y.b - 1)) =
          x.value / 2 ^ shift ∧
        (bnumRshift x shift).1.b = y.b ∧
        (bnumRshift x shift).1.limbs = y.limbs.modifyHead fun d => if r ≠ 0 then d ||| 1 else d) := by
  refine ⟨fun x shift hx hroom hs => bnumLshift_spec hx hs hroom, fun x shift hx hroom hs => ?_,
    fun x mult hx hroom hk => bnumMult_spec hx hk hroom, fun x shift z r hx hs hz hr hfull => ?_,
    fun x mult z r hx hk hz hr hfull => ?_, fun x shift y r ret hx hs hy hfull => ?_⟩
  · obtain ⟨hval, hwf, hb, -, -, hret⟩ := bnumRshift_spec hx hs hroom
    exact ⟨eq_div_of_mul_eq (by positivity) hval, hwf, hb, hret⟩
  · obtain ⟨hval, hb, hlimbs⟩ :=
      mulPush_of_full (shiftLeft_eq_mul shift) (two_pow_le_limbMax hs) hx hz hr hfull
    rw [bnumLshift_eq hz, if_pos hr]
    exact ⟨by rw [hval]; push_cast; rfl, hb, hlimbs⟩
  · obtain ⟨hval, hb, hlimbs⟩ := mulPush_of_full (fun d => rfl) hk hx hz hr hfull
    rw [bnumMult_eq hz, if_pos hr]
    exact ⟨hval, hb, hlimbs⟩
  · obtain ⟨hval, hb, hlimbs⟩ := bnumRshift_of_full hx hs hy hfull
    exact ⟨eq_div_of_mul_eq (by positivity) hval, hb, hlimbs⟩

end Lshift

def ninesRoomy : Bnum := ⟨0, 1, 3, fun _ => 999999999⟩
def ninesFull : Bnum := ⟨0, 1, 2, fun _ => 999999999⟩
def threeFull : Bnum := ⟨0, 1, 2, fun _ => 3⟩

def ninesShifted : Bnum × Nat := mulLoop (fun d => d <<< 1) 1 ninesFull 0 0
def ninesDoubled : Bnum × Nat := mulLoop (fun d => d * 2) 1 ninesFull 0 0
def threeHalved : Bnum × Nat × Bool := rshiftLoop 1 1 threeFull 0 0 false

theorem bnumOps_exact_sticky_nines :
    ninesRoomy.Wf ∧ ninesFull.Wf ∧ threeFull.Wf ∧
      ((bnumLshift ninesRoomy 1).1.value = 2 ^ 1 * ninesRoomy.value ∧
        (bnumLshift ninesRoomy 1).1.Wf ∧
        ((bnumLshift ninesRoomy 1).2 = true ↔ (bnumLshift ninesRoomy 1).1.e ≠ ninesRoomy.e)) ∧
      ((bnumRshift ninesRoomy 1).1.value = ninesRoomy.value / 2 ^ 1 ∧
        (bnumRshift ninesRoomy 1).1.Wf ∧ ninesRoomy.b - 1 ≤ (bnumRshift ninesRoomy 1).1.b ∧
        ((bnumRshift ninesRoomy 1).2 = true ↔ (bnumRshift ninesRoomy 1).1.e ≠ ninesRoomy.e)) ∧
      ((bnumMult ninesRoomy 7).value = 7 * ninesRoomy.value ∧ (bnumMult ninesRoomy 7).Wf) ∧
      (ninesShifted.2 ≠ 0 ∧ ninesShifted.1.e - ninesShifted.1.b + 1 = ninesShifted.1.size ∧
        ((Nat.ofDigits limbMax (ninesShifted.1.limbs ++ [ninesShifted.2]) : Nat) : ℚ) *
            10 ^ ((limbDigits : Int) * ninesShifted.1.b) = 2 ^ 1 * ninesFull.value ∧
        (bnumLshift ninesFull 1).1.b = ninesShifted.1.b + 1 ∧
        (bnumLshift ninesFull 1).1.limbs = (ninesShifted.1.limbs.tail ++ [ninesShifted.2]).modifyHead
          fun d => if ninesShifted.1.get ninesShifted.1.b ≠ 0 then d ||| 1 else d) ∧
      (ninesDoubled.2 ≠ 0 ∧ ninesDoubled.1.e - ninesDoubled.1.b + 1 = ninesDoubled.1.size ∧
        ((Nat.ofDigits limbMax (ninesDoubled.1.limbs ++ [ninesDoubled.2]) : Nat) : ℚ) *
            10 ^ ((limbDigits : Int) * ninesDoubled.1.b) = 2 * ninesFull.value ∧
        (bnumMult ninesFull 2).b = ninesDoubled.1.b + 1 ∧
        (bnumMult ninesFull 2).limbs = (ninesDoubled.1.limbs.tail ++ [ninesDoubled.2]).modifyHead
          fun d => if ninesDoubled.1.get ninesDoubled.1.b ≠ 0 then d ||| 1 else d) ∧
      (threeHalved.1.e - threeHalved.1.b + 1 = threeHalved.1.size ∧
        ((Nat.ofDigits limbMax (threeHalved.2.1 :: threeHalved.1.limbs) : Nat) : ℚ) *
            10 ^ ((limbDigits : Int) * (threeHalved.1.b - 1)) = threeFull.value / 2 ^ 1 ∧
        (bnumRshift threeFull 1).1.b = threeHalved.1.b ∧
        (bnumRshift threeFull 1).1.limbs = threeHalved.1.limbs.modifyHead
          fun d => if threeHalved.2.1 ≠ 0 then d ||| 1 else d) := by
  have hroomy : ninesRoomy.Wf := ⟨by decide, by decide, by decide, by decide⟩
  have hfull : ninesFull.Wf := ⟨by decide, by decide, by decide, by decide⟩
  have hthree : threeFull.Wf := ⟨by decide, by decide, by decide, by decide⟩
  obtain ⟨hlshift, hrshift, hmult, hlfull, hmfull, hrfull⟩ := bnumOps_exact_sticky
  have hr₁ : ninesShifted.2 ≠ 0 := by decide
  have he₁ : ninesShifted.1.e - ninesShifted.1.b + 1 = ninesShifted.1.size := by decide
  have hr₂ : ninesDoubled.2 ≠ 0 := by decide
  have he₂ : ninesDoubled.1.e - ninesDoubled.1.b + 1 = ninesDoubled.1.size := by decide
  have he₃ : threeHalved.1.e - threeHalved.1.b + 1 = threeHalved.1.size := by decide
  exact ⟨hroomy, hfull, hthree, hlshift ninesRoomy 1 hroomy (by decide) (by decide),
    hrshift ninesRoomy 1 hroomy (by decide) (by decide),
    hmult ninesRoomy 7 hroomy (by decide) (by decide),
    ⟨hr₁, he₁, hlfull ninesFull 1 _ _ hfull (by decide) rfl hr₁ he₁⟩,
    ⟨hr₂, he₂, hmfull ninesFull 2 _ _ hfull (by decide) rfl hr₂ he₂⟩,
    ⟨he₃, hrfull threeFull 1 _ _ _ hthree (by decide) rfl he₃⟩⟩

end Wine.Msvcrt
