import Mathlib.Data.Nat.Bitwise
import Wine.Lib.Buckets

/-!
# The size classes of the heap's free lists

`get_free_list_block_size`, `get_free_list_index` and `find_free_list` (dlls/ntdll/heap.c) for
the 64-bit build: `BLOCK_ALIGN` is `2 * sizeof(void *)` and `block_size` of `struct block` is a
`WORD`, which gives `FREE_LIST_COUNT` lists. Sizes are `Nat`. The clamp at the top keeps
`block_size / BLOCK_ALIGN` below `2 ^ 17` wherever it is read, so the conversion of the mask
handed to `BitScanReverse` to a `DWORD` and the `int` shifts of the block size function never
lose a bit on the indices the code computes.
-/

namespace Wine.Ntdll.Heap

set_option autoImplicit false

def ptrSize : Nat := 8
def blockAlign : Nat := 2 * ptrSize
def fieldBitsBlockSize : Nat := 16
def freeListLinearBits : Nat := 2
def freeListLinearMask : Nat := (1 <<< freeListLinearBits) - 1
def freeListCount : Nat :=
  (fieldBitsBlockSize - freeListLinearBits + 1) * (1 <<< freeListLinearBits) + 1

example : freeListCount = 0x3d := by decide

/-- `BitScanReverse(&bit, mask)` on the `DWORD` the argument converts to: the highest set bit. -/
def bitScanReverse (mask : Nat) : Option Nat :=
  if mask % 2 ^ 32 = 0 then none else some (mask % 2 ^ 32).log2

def getFreeListBlockSize (index : Nat) : Nat :=
  let log := index >>> freeListLinearBits
  let linear := index &&& freeListLinearMask
  if log = 0 then index * blockAlign
  else (((1 <<< freeListLinearBits) + linear) <<< (log - 1)) * blockAlign

/-- The `log` and `linear` parts `get_free_list_index` takes from `block_size / BLOCK_ALIGN`. -/
def freeListParts (blockSize : Nat) : Nat × Nat :=
  match bitScanReverse blockSize with
  | some bit =>
    if bit < freeListLinearBits then (0, blockSize)
    else (bit - freeListLinearBits + 1,
      (blockSize >>> (bit - freeListLinearBits)) &&& freeListLinearMask)
  | none => (0, blockSize)

def getFreeListIndex (blockSize : Nat) : Nat :=
  if blockSize > getFreeListBlockSize (freeListCount - 1) then freeListCount - 1
  else
    let parts := freeListParts (blockSize / blockAlign)
    (parts.1 <<< freeListLinearBits) + parts.2

/-- The index of the list head `find_free_list` returns. -/
def findFreeList (blockSize : Nat) (last : Bool) : Nat :=
  let index := getFreeListIndex blockSize
  if last then (if index + 1 = freeListCount then 0 else index + 1) else index

/-! ## The block size of a class -/

theorem getFreeListBlockSize_eq (index : Nat) :
    getFreeListBlockSize index =
      (if index < 4 then index else (4 + index % 4) * 2 ^ (index / 4 - 1)) * blockAlign := by
  have hmask : index &&& freeListLinearMask = index % 4 :=
    Nat.and_two_pow_sub_one_eq_mod index 2
  have hlog : index >>> freeListLinearBits = index / 4 := Nat.shiftRight_eq_div_pow index 2
  simp only [getFreeListBlockSize, hmask, hlog, Nat.shiftLeft_eq]
  by_cases h : index < 4
  · rw [if_pos (by omega), if_pos h]
  · rw [if_neg (by omega), if_neg h]
    rfl

theorem getFreeListBlockSize_strictMono : StrictMono getFreeListBlockSize := by
  refine strictMono_nat_of_lt_succ fun i => ?_
  rw [getFreeListBlockSize_eq, getFreeListBlockSize_eq]
  refine Nat.mul_lt_mul_of_pos_right ?_ (by decide)
  by_cases hi : i + 1 < 4
  · rw [if_pos (by omega), if_pos hi]
    omega
  · rw [if_neg hi]
    by_cases hi' : i < 4
    · rw [if_pos hi', show i = 3 by omega]
      decide
    · rw [if_neg hi']
      have hq : (i + 1) / 4 - 1 = i / 4 - 1 ∨ (i + 1) / 4 - 1 = i / 4 - 1 + 1 := by omega
      rcases hq with hq | hq
      · rw [hq]
        exact Nat.mul_lt_mul_of_pos_right (by omega) (Nat.two_pow_pos _)
      · have hmod : (i + 1) % 4 = 0 := by omega
        rw [hq, hmod, Nat.pow_succ]
        have hlt : (4 + i % 4) * 2 ^ (i / 4 - 1) < 8 * 2 ^ (i / 4 - 1) :=
          Nat.mul_lt_mul_of_pos_right (by omega) (Nat.two_pow_pos _)
        omega

/-! ## The class of a size -/

theorem div_pow_log2_sub_two {q : Nat} (hq : 4 ≤ q) :
    4 ≤ q / 2 ^ (q.log2 - 2) ∧ q / 2 ^ (q.log2 - 2) < 8 := by
  have hq0 : q ≠ 0 := by omega
  have hlog : 2 ≤ q.log2 := (Nat.le_log2 hq0).mpr hq
  have hlow := Nat.log2_self_le hq0
  have hhigh := Nat.lt_log2_self (n := q)
  have hsplit : q.log2 = q.log2 - 2 + 2 := by omega
  rw [hsplit, Nat.pow_add] at hlow
  rw [hsplit, Nat.add_assoc, Nat.pow_add] at hhigh
  constructor
  · exact (Nat.le_div_iff_mul_le (Nat.two_pow_pos _)).mpr (by omega)
  · exact (Nat.div_lt_iff_lt_mul (Nat.two_pow_pos _)).mpr (by omega)

theorem freeListIndex_of_small {q : Nat} (hq : q < 2 ^ 32) :
    (freeListParts q).1 <<< freeListLinearBits + (freeListParts q).2 =
      if q < 4 then q else 4 * (q.log2 - 1) + q / 2 ^ (q.log2 - 2) % 4 := by
  have hbits : freeListLinearBits = 2 := rfl
  have hmask : freeListLinearMask = 2 ^ 2 - 1 := rfl
  unfold freeListParts bitScanReverse
  rw [Nat.mod_eq_of_lt hq, Nat.shiftLeft_eq, hbits, hmask]
  by_cases hq0 : q = 0
  · subst hq0
    rfl
  · rw [if_neg hq0]
    dsimp only
    by_cases hsmall : q < 4
    · have hlog : q.log2 < 2 := (Nat.log2_lt hq0).mpr hsmall
      rw [if_pos hlog, if_pos hsmall]
      simp
    · have hlog : ¬ q.log2 < 2 := fun h => hsmall ((Nat.log2_lt hq0).mp h)
      rw [if_neg hlog, if_neg hsmall, Nat.shiftRight_eq_div_pow, Nat.and_two_pow_sub_one_eq_mod]
      omega

theorem getFreeListBlockSize_last : getFreeListBlockSize (freeListCount - 1) = 65536 * blockAlign := by
  rw [getFreeListBlockSize_eq]
  decide

section Classes

variable {s : Nat}

theorem getFreeListIndex_of_le (hs : s ≤ getFreeListBlockSize (freeListCount - 1)) :
    getFreeListIndex s = if s / blockAlign < 4 then s / blockAlign
      else 4 * ((s / blockAlign).log2 - 1) + s / blockAlign / 2 ^ ((s / blockAlign).log2 - 2) % 4 := by
  have hq : s / blockAlign < 2 ^ 32 := by
    rw [getFreeListBlockSize_last] at hs
    have : s / blockAlign ≤ 65536 := Nat.div_le_of_le_mul hs
    omega
  rw [getFreeListIndex, if_neg (Nat.not_lt.mpr hs)]
  exact freeListIndex_of_small hq

theorem getFreeListIndex_le : getFreeListIndex s ≤ freeListCount - 1 := by
  by_cases hs : s ≤ getFreeListBlockSize (freeListCount - 1)
  · have hq : s / blockAlign ≤ 65536 := by
      rw [getFreeListBlockSize_last] at hs
      exact Nat.div_le_of_le_mul hs
    rw [getFreeListIndex_of_le hs]
    split
    · show _ ≤ 60
      omega
    · have hq4 : 4 ≤ s / blockAlign := by omega
      have hlog : (s / blockAlign).log2 ≤ 16 :=
        Nat.le_of_lt_succ ((Nat.log2_lt (by omega)).mpr (by omega))
      -- a size with its highest bit at 16 is `2 ^ 16` itself, whose class is the last one
      by_cases h16 : (s / blockAlign).log2 = 16
      · have heq : s / blockAlign = 65536 := by
          have := Nat.log2_self_le (n := s / blockAlign) (by omega)
          rw [h16] at this
          omega
        rw [heq]
        decide
      · have hmod := Nat.mod_lt (s / blockAlign / 2 ^ ((s / blockAlign).log2 - 2)) (by decide : 0 < 4)
        show _ ≤ 60
        omega
  · rw [getFreeListIndex, if_pos (Nat.lt_of_not_le hs)]

theorem getFreeListBlockSize_index_le : getFreeListBlockSize (getFreeListIndex s) ≤ s := by
  by_cases hs : s ≤ getFreeListBlockSize (freeListCount - 1)
  · rw [getFreeListIndex_of_le hs, getFreeListBlockSize_eq]
    have hdiv : s / blockAlign * blockAlign ≤ s := Nat.div_mul_le_self s blockAlign
    by_cases hsmall : s / blockAlign < 4
    · rw [if_pos hsmall, if_pos hsmall]
      exact hdiv
    · rw [if_neg hsmall]
      obtain ⟨h4, h8⟩ := div_pow_log2_sub_two (Nat.le_of_not_lt hsmall)
      have hlog : 2 ≤ (s / blockAlign).log2 := (Nat.le_log2 (by omega)).mpr (Nat.le_of_not_lt hsmall)
      set q := s / blockAlign
      set k := q.log2 - 2
      have hidx : (4 * (q.log2 - 1) + q / 2 ^ k % 4) / 4 - 1 = k := by omega
      have hmod : (4 * (q.log2 - 1) + q / 2 ^ k % 4) % 4 = q / 2 ^ k - 4 := by omega
      rw [if_neg (by omega), hidx, hmod]
      calc (4 + (q / 2 ^ k - 4)) * 2 ^ k * blockAlign = q / 2 ^ k * 2 ^ k * blockAlign := by
            rw [Nat.add_sub_cancel' h4]
        _ ≤ q * blockAlign := Nat.mul_le_mul_right _ (Nat.div_mul_le_self q _)
        _ ≤ s := hdiv
  · have hlt := Nat.lt_of_not_le hs
    rw [getFreeListIndex, if_pos hlt]
    exact Nat.le_of_lt hlt

/-- Below the last class, a size is below the block size of the class after its own. -/
theorem lt_getFreeListBlockSize_index_succ (hidx : getFreeListIndex s < freeListCount - 1) :
    s < getFreeListBlockSize (getFreeListIndex s + 1) := by
  have hs : s ≤ getFreeListBlockSize (freeListCount - 1) := by
    by_contra hs
    rw [getFreeListIndex, if_pos (Nat.lt_of_not_le hs)] at hidx
    exact Nat.lt_irrefl _ hidx
  have hup : s < (s / blockAlign + 1) * blockAlign := by
    rw [Nat.mul_comm]
    exact Nat.lt_mul_div_succ s (show 0 < blockAlign by decide)
  rw [getFreeListIndex_of_le hs, getFreeListBlockSize_eq]
  by_cases hsmall : s / blockAlign < 4
  · rw [if_pos hsmall]
    by_cases hnext : s / blockAlign + 1 < 4
    · rw [if_pos hnext]
      exact hup
    · have h3 : s / blockAlign = 3 := by omega
      rw [if_neg hnext, h3]
      rw [h3] at hup
      exact hup
  · rw [if_neg hsmall]
    obtain ⟨h4, h8⟩ := div_pow_log2_sub_two (Nat.le_of_not_lt hsmall)
    have hlog : 2 ≤ (s / blockAlign).log2 := (Nat.le_log2 (by omega)).mpr (Nat.le_of_not_lt hsmall)
    set q := s / blockAlign
    set k := q.log2 - 2
    have hnext : (q / 2 ^ k + 1) * 2 ^ k ≤ (4 + (4 * (q.log2 - 1) + q / 2 ^ k % 4 + 1) % 4) *
        2 ^ ((4 * (q.log2 - 1) + q / 2 ^ k % 4 + 1) / 4 - 1) := by
      by_cases h7 : q / 2 ^ k = 7
      · have hi : (4 * (q.log2 - 1) + q / 2 ^ k % 4 + 1) / 4 - 1 = k + 1 := by omega
        have hm : (4 * (q.log2 - 1) + q / 2 ^ k % 4 + 1) % 4 = 0 := by omega
        rw [hi, hm, h7, Nat.pow_succ]
        omega
      · have hi : (4 * (q.log2 - 1) + q / 2 ^ k % 4 + 1) / 4 - 1 = k := by omega
        have hm : (4 * (q.log2 - 1) + q / 2 ^ k % 4 + 1) % 4 = q / 2 ^ k - 3 := by omega
        rw [hi, hm]
        exact Nat.mul_le_mul_right _ (by omega)
    rw [if_neg (by omega)]
    have hq1 : q + 1 ≤ (q / 2 ^ k + 1) * 2 ^ k := by
      have := Nat.lt_div_mul_add (a := q) (Nat.two_pow_pos k)
      rw [Nat.add_mul, Nat.one_mul]
      omega
    calc s < (q + 1) * blockAlign := hup
      _ ≤ _ := Nat.mul_le_mul_right _ (Nat.le_trans hq1 hnext)

theorem getFreeListIndex_files :
    Buckets.Files getFreeListBlockSize (freeListCount - 1) getFreeListIndex where
  le_top _ := getFreeListIndex_le
  bound_le _ := getFreeListBlockSize_index_le
  lt_bound _ := lt_getFreeListBlockSize_index_succ

end Classes

/-- The size classes of the free lists, as the heap files and searches blocks by them: the
block size of its class is at most every size and the next class's is above it; hence the
index is monotone and each class is the interval between consecutive block sizes. -/
theorem freeList_classes :
    (∀ s, getFreeListBlockSize (getFreeListIndex s) ≤ s ∧
      (getFreeListIndex s < freeListCount - 1 → s < getFreeListBlockSize (getFreeListIndex s + 1))) ∧
    Monotone getFreeListIndex ∧
    (∀ s i, i ≤ freeListCount - 1 → (getFreeListIndex s = i ↔
      getFreeListBlockSize i ≤ s ∧ (i < freeListCount - 1 → s < getFreeListBlockSize (i + 1)))) := by
  refine ⟨fun s => ⟨getFreeListBlockSize_index_le, lt_getFreeListBlockSize_index_succ⟩,
    getFreeListIndex_files.monotone getFreeListBlockSize_strictMono, fun s i hi => ?_⟩
  exact getFreeListIndex_files.eq_iff getFreeListBlockSize_strictMono hi

theorem findFreeList_le_of_le {s b : Nat} (h : s ≤ b) : findFreeList s false ≤ getFreeListIndex b :=
  getFreeListIndex_files.monotone getFreeListBlockSize_strictMono h

end Wine.Ntdll.Heap
