import Mathlib

/-! 32-bit masks as sets of bit positions. `Mask.bits` is injective and takes `&&&`, `|||`
and `~~~` to `⊓`, `⊔` and `ᶜ`, so what is proved about rights in a Boolean algebra holds of
the masks. -/

set_option autoImplicit false

namespace Mask

def bits (x : UInt32) : Finset (Fin 32) := Finset.univ.filter fun i => x.toBitVec.getLsbD i

variable {x y : UInt32}

@[simp] theorem mem_bits {i : Fin 32} : i ∈ bits x ↔ x.toBitVec.getLsbD i = true := by
  simp [bits]

theorem bits_injective : Function.Injective bits := by
  intro x y h
  apply UInt32.toBitVec_inj.mp
  apply BitVec.eq_of_getLsbD_eq
  intro i hi
  have hmem := congrArg ((⟨i, hi⟩ : Fin 32) ∈ ·) h
  simpa using hmem

@[simp] theorem bits_inj : bits x = bits y ↔ x = y := bits_injective.eq_iff

@[simp] theorem bits_and : bits (x &&& y) = bits x ⊓ bits y := by
  ext i
  simp

@[simp] theorem bits_or : bits (x ||| y) = bits x ⊔ bits y := by
  ext i
  simp

@[simp] theorem bits_not : bits (~~~x) = (bits x)ᶜ := by
  ext i
  simp

@[simp] theorem bits_zero : bits 0 = ⊥ := by
  ext i
  simp

theorem bits_eq_bot : bits x = ⊥ ↔ x = 0 := by
  rw [← bits_zero, bits_inj]

theorem bits_inf_eq_bot : bits x ⊓ bits y = ⊥ ↔ x &&& y = 0 := by
  rw [← bits_and, bits_eq_bot]

theorem bits_le_iff : bits y ≤ bits x ↔ x &&& y = y := by
  rw [← bits_inj, bits_and, inf_eq_right]

end Mask
