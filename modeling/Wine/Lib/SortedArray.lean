import Mathlib.Logic.Function.Basic
import Mathlib.Data.Nat.Find
import Mathlib.Tactic.Common

/-!
# Sorted C arrays

The loops a C program writes to keep an array sorted: the shift that opens a cell before an
insertion, the shift that closes one after a removal, the linear scan for an element, and the
binary search over an inclusive window `[min, max]` of `int`s that answers either the index of
an equal element or the index where one would be inserted. An array is a function from
indices to cells; its first `n` cells are the elements.
-/

namespace SortedArray

set_option autoImplicit false

variable {α : Type}

/-- `for (i = hi; i > lo; i--) a[i] = a[i - 1];` -/
def shiftUp (a : Nat → α) (lo : Nat) : Nat → Nat → α
  | 0 => a
  | i + 1 => if lo < i + 1 then shiftUp (Function.update a (i + 1) (a i)) lo i else a

/-- `for (i = lo; i < hi; i++) a[i] = a[i + 1];`, for at most `n` passes. -/
def shiftDown (a : Nat → α) (hi : Nat) : Nat → Nat → Nat → α
  | 0, _ => a
  | n + 1, i => if i < hi then shiftDown (Function.update a i (a (i + 1))) hi n (i + 1) else a

/-- `for (i = lo; i <= last; i++) if (a[i] == x) break;`, for at most `n` passes: the index the
loop stops at. -/
def indexOf [DecidableEq α] (a : Nat → α) (x : α) : Nat → Nat → Nat
  | 0, i => i
  | n + 1, i => if a i = x then i else indexOf a x n (i + 1)

/-- The search of an inclusive window `[min, max]`; `res i` is the sign of the comparison of
element `i` with the one sought. The element found, and the index the search ends at. -/
def search3 (res : Nat → Int) : Nat → Int → Int → Option Nat × Int
  | 0, min, _ => (none, min)
  | fuel + 1, min, max =>
    if min ≤ max then
      if res ((min + max) / 2).toNat = 0 then (some ((min + max) / 2).toNat, (min + max) / 2)
      else if 0 < res ((min + max) / 2).toNat then search3 res fuel min ((min + max) / 2 - 1)
      else search3 res fuel ((min + max) / 2 + 1) max
    else (none, min)

/-- The first `n` cells are ordered by `r`. -/
def SortedUpTo (r : α → α → Prop) (a : Nat → α) (n : Nat) : Prop :=
  ∀ i j, i < j → j < n → r (a i) (a j)

section Shift

theorem shiftUp_apply (lo : Nat) :
    ∀ (hi : Nat) (a : Nat → α) (j : Nat),
      shiftUp a lo hi j = if lo < j ∧ j ≤ hi then a (j - 1) else a j := by
  intro hi
  induction hi with
  | zero =>
    intro a j
    simp only [shiftUp]
    rw [if_neg (by omega)]
  | succ i ih =>
    intro a j
    simp only [shiftUp]
    split
    · rw [ih]
      by_cases hj : j ≤ i
      · by_cases hlo : lo < j
        · rw [if_pos ⟨hlo, hj⟩, if_pos ⟨hlo, by omega⟩, Function.update_of_ne (by omega)]
        · rw [if_neg (by omega), if_neg (by omega), Function.update_of_ne (by omega)]
      · rw [if_neg (by omega)]
        by_cases hji : j = i + 1
        · subst hji
          rw [Function.update_self, if_pos ⟨by omega, Nat.le_refl _⟩]
          rfl
        · rw [Function.update_of_ne hji, if_neg (by omega)]
    · rw [if_neg (by omega)]

theorem shiftDown_apply (hi : Nat) :
    ∀ (n : Nat) (a : Nat → α) (i j : Nat),
      shiftDown a hi n i j = if i ≤ j ∧ j < hi ∧ j < i + n then a (j + 1) else a j := by
  intro n
  induction n with
  | zero =>
    intro a i j
    simp only [shiftDown]
    rw [if_neg (by omega)]
  | succ n ih =>
    intro a i j
    simp only [shiftDown]
    split
    · rw [ih]
      by_cases hj : i + 1 ≤ j ∧ j < hi ∧ j < i + 1 + n
      · rw [if_pos hj, if_pos (by omega), Function.update_of_ne (by omega)]
      · rw [if_neg hj]
        by_cases hji : j = i
        · subst hji
          rw [Function.update_self, if_pos (by omega)]
        · rw [Function.update_of_ne hji, if_neg (by omega)]
    · rw [if_neg (by omega)]

theorem insert_apply (a : Nat → α) {idx n : Nat} (x : α) (j : Nat) :
    Function.update (shiftUp a idx n) idx x j =
      if j < idx then a j else if j = idx then x else if j ≤ n then a (j - 1) else a j := by
  by_cases hj : j = idx
  · subst hj
    simp
  · rw [Function.update_of_ne hj, shiftUp_apply]
    by_cases hlt : j < idx
    · rw [if_neg (by omega), if_pos hlt]
    · rw [if_neg hlt, if_neg hj]
      by_cases hn : j ≤ n
      · rw [if_pos ⟨by omega, hn⟩, if_pos hn]
      · rw [if_neg (by omega), if_neg hn]

theorem remove_apply (a : Nat → α) {idx n : Nat} (hidx : idx ≤ n) (j : Nat) :
    shiftDown a n (n - idx) idx j = if idx ≤ j ∧ j < n then a (j + 1) else a j := by
  rw [shiftDown_apply]
  by_cases h : idx ≤ j ∧ j < n
  · rw [if_pos ⟨h.1, h.2, by omega⟩, if_pos h]
  · rw [if_neg (by omega), if_neg h]

end Shift

section Cells

variable {a : Nat → α} {idx n : Nat}

theorem insert_cases (hidx : idx ≤ n) (x : α) {j : Nat} (hj : j < n + 1) :
    Function.update (shiftUp a idx n) idx x j = x ∨
      ∃ i < n, Function.update (shiftUp a idx n) idx x j = a i := by
  rw [insert_apply]
  by_cases hlt : j < idx
  · rw [if_pos hlt]
    exact Or.inr ⟨j, Nat.lt_of_lt_of_le hlt hidx, rfl⟩
  · rw [if_neg hlt]
    by_cases heq : j = idx
    · rw [if_pos heq]
      exact Or.inl rfl
    · rw [if_neg heq, if_pos (by omega)]
      exact Or.inr ⟨j - 1, by omega, rfl⟩

theorem exists_insert_eq (x : α) {i : Nat} (hi : i < n) :
    ∃ j < n + 1, Function.update (shiftUp a idx n) idx x j = a i := by
  by_cases hlt : i < idx
  · refine ⟨i, by omega, ?_⟩
    rw [insert_apply, if_pos hlt]
  · refine ⟨i + 1, by omega, ?_⟩
    rw [insert_apply, if_neg (by omega), if_neg (by omega), if_pos (by omega), Nat.add_sub_cancel]

theorem remove_cases (hidx : idx ≤ n) {j : Nat} (hj : j < n) :
    ∃ i < n + 1, i ≠ idx ∧ shiftDown a n (n - idx) idx j = a i := by
  rw [remove_apply a hidx]
  by_cases h : idx ≤ j ∧ j < n
  · rw [if_pos h]
    exact ⟨j + 1, by omega, by omega, rfl⟩
  · rw [if_neg h]
    exact ⟨j, by omega, by omega, rfl⟩

theorem exists_remove_eq (hidx : idx ≤ n) {i : Nat} (hi : i < n + 1) (hne : i ≠ idx) :
    ∃ j < n, shiftDown a n (n - idx) idx j = a i := by
  by_cases hlt : i < idx
  · refine ⟨i, by omega, ?_⟩
    rw [remove_apply a hidx, if_neg (by omega)]
  · refine ⟨i - 1, by omega, ?_⟩
    rw [remove_apply a hidx, if_pos (by omega), Nat.sub_add_cancel (by omega)]

theorem move_eq {cur last : Nat} (hcur : cur ≤ last) (hidx : idx ≤ last + 1) (x : α) :
    (if cur < idx then Function.update (shiftDown a (idx - 1) (idx - 1 - cur) cur) (idx - 1) x
      else if idx < cur then Function.update (shiftUp a idx cur) idx x
      else Function.update a idx x) =
    Function.update (shiftUp (shiftDown a last (last - cur) cur) (if cur < idx then idx - 1 else idx)
      last) (if cur < idx then idx - 1 else idx) x := by
  funext j
  rw [insert_apply, remove_apply a hcur, remove_apply a hcur]
  by_cases hlt : cur < idx
  · rw [if_pos hlt, if_pos hlt, Function.update_apply, remove_apply a (by omega : cur ≤ idx - 1)]
    split_ifs <;> first | rfl | omega | (congr 1; omega)
  · rw [if_neg hlt, if_neg hlt]
    by_cases hgt : idx < cur
    · rw [if_pos hgt, insert_apply]
      split_ifs <;> first | rfl | omega | (congr 1; omega)
    · have hcx : cur = idx := by omega
      subst hcx
      rw [if_neg hgt, Function.update_apply]
      split_ifs <;> first | rfl | omega | (congr 1; omega)

end Cells

section Order

variable {r : α → α → Prop}

theorem SortedUpTo.insert {a : Nat → α} {n idx : Nat} {x : α} (h : SortedUpTo r a n)
    (hidx : idx ≤ n) (hlo : ∀ i < idx, r (a i) x) (hhi : ∀ i, idx ≤ i → i < n → r x (a i)) :
    SortedUpTo r (Function.update (shiftUp a idx n) idx x) (n + 1) := by
  intro i j hij hj
  rw [insert_apply, insert_apply]
  by_cases hi : i < idx
  · rw [if_pos hi]
    by_cases hj' : j < idx
    · rw [if_pos hj']
      exact h i j hij (by omega)
    · rw [if_neg hj']
      by_cases hjx : j = idx
      · rw [if_pos hjx]
        exact hlo i hi
      · have hjn : j ≤ n := by omega
        rw [if_neg hjx, if_pos hjn]
        exact h i (j - 1) (by omega) (by omega)
  · have hj' : ¬j < idx := by omega
    have hjx : ¬j = idx := by omega
    have hjn : j ≤ n := by omega
    rw [if_neg hi, if_neg hj', if_neg hjx, if_pos hjn]
    by_cases hix : i = idx
    · rw [if_pos hix]
      exact hhi (j - 1) (by omega) (by omega)
    · have hin : i ≤ n := by omega
      rw [if_neg hix, if_pos hin]
      exact h (i - 1) (j - 1) (by omega) (by omega)

theorem SortedUpTo.remove {a : Nat → α} {n idx : Nat} (h : SortedUpTo r a (n + 1))
    (hidx : idx ≤ n) : SortedUpTo r (shiftDown a n (n - idx) idx) n := by
  intro i j hij hj
  rw [remove_apply a hidx, remove_apply a hidx]
  by_cases hi : idx ≤ i
  · rw [if_pos ⟨hi, by omega⟩, if_pos ⟨by omega, hj⟩]
    exact h (i + 1) (j + 1) (by omega) (by omega)
  · rw [if_neg (by omega)]
    by_cases hj' : idx ≤ j
    · rw [if_pos ⟨hj', hj⟩]
      exact h i (j + 1) (by omega) (by omega)
    · rw [if_neg (by omega)]
      exact h i j hij (by omega)

end Order

section Scan

variable [DecidableEq α]

theorem indexOf_spec (a : Nat → α) (x : α) :
    ∀ (n i : Nat), (∀ j, i ≤ j → j < indexOf a x n i → a j ≠ x) ∧ i ≤ indexOf a x n i ∧
      indexOf a x n i ≤ i + n ∧ (indexOf a x n i < i + n → a (indexOf a x n i) = x) := by
  intro n
  induction n with
  | zero =>
    intro i
    simp only [indexOf]
    exact ⟨fun j h1 h2 => absurd h2 (by omega), Nat.le_refl i, by omega, fun h => absurd h (by omega)⟩
  | succ n ih =>
    intro i
    simp only [indexOf]
    split
    · rename_i hx
      exact ⟨fun j h1 h2 => absurd h2 (by omega), Nat.le_refl i, by omega, fun _ => hx⟩
    · rename_i hx
      obtain ⟨hbefore, hge, hle, hat⟩ := ih (i + 1)
      refine ⟨fun j h1 h2 => ?_, by omega, by omega, fun h => hat (by omega)⟩
      by_cases hji : j = i
      · subst hji
        exact hx
      · exact hbefore j (by omega) h2

theorem indexOf_eq {a : Nat → α} {x : α} {n k : Nat} (hk : k < n) (hak : a k = x)
    (huniq : ∀ j, j < n → a j = x → j = k) : indexOf a x n 0 = k := by
  obtain ⟨hbefore, _, hle, hat⟩ := indexOf_spec a x n 0
  by_cases hlt : indexOf a x n 0 < k
  · exact absurd (huniq _ (by omega) (hat (by omega))) (by omega)
  · by_cases hgt : k < indexOf a x n 0
    · exact absurd hak (hbefore k (Nat.zero_le k) hgt)
    · omega

end Scan

section Search

variable {res : Nat → Int} {n k : Nat}

/-- What the comparisons with a strictly sorted array look like: the elements below `k` are
smaller than the one sought, the one at `k` is not, and those above it are greater. -/
structure Split (res : Nat → Int) (n k : Nat) : Prop where
  le : k ≤ n
  below : ∀ i, i < k → res i < 0
  at_k : k < n → 0 ≤ res k
  above : ∀ i, k < i → i < n → 0 < res i

theorem exists_split (hmono : ∀ i j, i < j → j < n → 0 ≤ res i → 0 < res j) :
    ∃ k, Split res n k := by
  classical
  by_cases hex : ∃ i, i < n ∧ 0 ≤ res i
  · have hspec := Nat.find_spec hex
    refine ⟨Nat.find hex, ⟨Nat.le_of_lt hspec.1, fun i hi => ?_, fun _ => hspec.2,
      fun i hi hin => hmono _ i hi hin hspec.2⟩⟩
    have hnot := Nat.find_min hex hi
    have hin : i < n := Nat.lt_trans hi hspec.1
    by_contra hge
    exact hnot ⟨hin, by omega⟩
  · refine ⟨n, ⟨Nat.le_refl n, fun i hi => ?_, fun h => absurd h (Nat.lt_irrefl n),
      fun i hi hin => absurd hin (by omega)⟩⟩
    by_contra hge
    exact hex ⟨i, hi, by omega⟩

/-- The window still holds every element that may equal the one sought. -/
structure Window (res : Nat → Int) (n : Nat) (min max : Int) : Prop where
  min_nonneg : 0 ≤ min
  min_le : min ≤ max + 1
  max_lt : max < n
  below : ∀ i : Nat, (i : Int) < min → res i < 0
  above : ∀ i : Nat, max < i → i < n → 0 < res i

theorem Split.eq_of_zero (h : Split res n k) {i : Nat} (hi : i < n) (h0 : res i = 0) : i = k := by
  by_contra hne
  rcases Nat.lt_or_gt_of_ne hne with hlt | hgt
  · have := h.below i hlt
    omega
  · have := h.above i hgt hi
    omega

theorem Window.eq_of_empty (hs : Split res n k) {min max : Int} (hw : Window res n min max)
    (hempty : max < min) : min = k ∧ ¬(k < n ∧ res k = 0) := by
  have hmin0 := hw.min_nonneg
  have hmin : min = max + 1 := by have := hw.min_le; omega
  have hk_ge : (min : Int) ≤ k := by
    by_contra hlt
    have hbelow := hw.below k (by omega)
    rcases Nat.lt_or_ge k n with hn | hn
    · have := hs.at_k hn
      omega
    · have := hw.max_lt
      omega
  have hk_le : (k : Int) ≤ min := by
    by_contra hgt
    have hmin_n : min.toNat < n := by have := hs.le; omega
    have := hs.below min.toNat (by omega)
    have := hw.above min.toNat (by omega) hmin_n
    omega
  refine ⟨by omega, fun ⟨hkn, hk0⟩ => ?_⟩
  have := hw.above k (by omega) hkn
  omega

/-- The search from any window that keeps the split, with a pass for every cell of it. -/
theorem search3_window (hs : Split res n k) :
    ∀ (fuel : Nat) (min max : Int), Window res n min max → max + 1 - min ≤ fuel →
      search3 res fuel min max = if k < n ∧ res k = 0 then (some k, (k : Int)) else (none, (k : Int)) := by
  intro fuel
  induction fuel with
  | zero =>
    intro min max hw hfuel
    obtain ⟨hmin, hno⟩ := hw.eq_of_empty hs (by omega)
    simp only [search3]
    rw [if_neg hno, hmin]
  | succ fuel ih =>
    intro min max hw hfuel
    have hmin0 := hw.min_nonneg
    simp only [search3]
    by_cases hle : min ≤ max
    · rw [if_pos hle]
      have hmid_lo : min ≤ (min + max) / 2 := by omega
      have hmid_hi : (min + max) / 2 ≤ max := by omega
      have hmid_n : ((min + max) / 2).toNat < n := by have := hw.max_lt; omega
      have hcast : (((min + max) / 2).toNat : Int) = (min + max) / 2 := by
        have := hw.min_nonneg; omega
      by_cases h0 : res ((min + max) / 2).toNat = 0
      · rw [if_pos h0]
        have hk := hs.eq_of_zero hmid_n h0
        rw [if_pos ⟨by omega, by rw [← hk]; exact h0⟩, hk, ← hcast, hk]
      · rw [if_neg h0]
        by_cases hpos : 0 < res ((min + max) / 2).toNat
        · rw [if_pos hpos]
          have hkmid : k ≤ ((min + max) / 2).toNat := by
            by_contra hlt
            have := hs.below ((min + max) / 2).toNat (by omega)
            omega
          refine ih min ((min + max) / 2 - 1) ⟨hw.min_nonneg, by omega, by omega, hw.below,
            fun i hi hin => ?_⟩ (by omega)
          by_cases hi_mid : i = ((min + max) / 2).toNat
          · rw [hi_mid]
            exact hpos
          · exact hs.above i (by omega) hin
        · rw [if_neg hpos]
          have hkmid : ((min + max) / 2).toNat < k := by
            by_contra hge
            rcases Nat.lt_or_eq_of_le (Nat.le_of_not_lt hge) with hlt | heq
            · have := hs.above _ hlt hmid_n
              omega
            · have := hs.at_k (by omega)
              rw [heq] at this
              omega
          refine ih ((min + max) / 2 + 1) max ⟨by omega, by omega, hw.max_lt,
            fun i hi => ?_, hw.above⟩ (by omega)
          exact hs.below i (by omega)
    · rw [if_neg hle]
      obtain ⟨hmin, hno⟩ := hw.eq_of_empty hs (by omega)
      rw [if_neg hno, hmin]

theorem search3_eq (hs : Split res n k) {fuel : Nat} (hfuel : n ≤ fuel) :
    search3 res fuel 0 ((n : Int) - 1) = if k < n ∧ res k = 0 then (some k, (k : Int)) else (none, (k : Int)) := by
  refine search3_window hs fuel 0 ((n : Int) - 1) ⟨Int.le_refl 0, by omega, by omega,
    fun i hi => absurd hi (by omega), fun i hi hin => absurd hin (by omega)⟩ (by omega)

end Search

end SortedArray
