import Mathlib.Data.Int.Init
import Mathlib.Data.List.Basic
import Mathlib.Logic.Function.Basic

/-!
# Circular buffers

A buffer of `size` cells holds the positions of an integer interval `[lo, lo + n)`, position `i`
in cell `i % size`. Read from `lo` on, the cells are a list, the window; while the interval is
shorter than the buffer, distinct positions have distinct cells, so a write outside the window
leaves it as it was and a write just past either end extends it by that cell.
-/

namespace Ring

set_option autoImplicit false

variable {α : Type}

/-- The cell of position `i`. -/
def slot (size : Nat) (i : Int) : Nat := (i % size).toNat

/-- The `n` cells from position `lo` on, the lowest first. -/
def window (data : Nat → α) (size : Nat) (lo : Int) (n : Nat) : List α :=
  (List.range n).map fun k : Nat => data (slot size (lo + k))

/-- A write of `v` at position `i`. -/
def write (data : Nat → α) (size : Nat) (i : Int) (v : α) : Nat → α :=
  Function.update data (slot size i) v

variable {data : Nat → α} {size : Nat}

theorem slot_inj (hsize : 0 < size) {i j : Int} (hij : i - j < size) (hji : j - i < size)
    (h : slot size i = slot size j) : i = j := by
  have hne : (size : Int) ≠ 0 := by omega
  have hmod : i % size = j % size := by
    have hi := Int.emod_nonneg i hne
    have hj := Int.emod_nonneg j hne
    unfold slot at h
    omega
  by_cases hle : 0 ≤ i - j
  · have h₁ := Int.emod_eq_of_lt hle hij
    rw [Int.emod_eq_emod_iff_emod_sub_eq_zero.mp hmod] at h₁
    omega
  · have h₁ := Int.emod_eq_of_lt (by omega : 0 ≤ j - i) hji
    rw [Int.emod_eq_emod_iff_emod_sub_eq_zero.mp hmod.symm] at h₁
    omega

@[simp] theorem length_window (lo : Int) (n : Nat) : (window data size lo n).length = n := by
  simp [window]

theorem window_zero (lo : Int) : window data size lo 0 = [] := rfl

theorem window_succ (lo : Int) (n : Nat) :
    window data size lo (n + 1) = window data size lo n ++ [data (slot size (lo + n))] := by
  simp [window, List.range_succ]

theorem window_add (lo : Int) (m n : Nat) :
    window data size lo (m + n) = window data size lo m ++ window data size (lo + m) n := by
  induction n with
  | zero => rw [Nat.add_zero, window_zero, List.append_nil]
  | succ n ih =>
    rw [← Nat.add_assoc, window_succ, ih, window_succ, List.append_assoc]
    have hpos : lo + ((m + n : Nat) : Int) = lo + (m : Int) + (n : Int) := by push_cast; omega
    rw [hpos]

theorem window_cons (lo : Int) (n : Nat) :
    window data size lo (n + 1) = data (slot size lo) :: window data size (lo + 1) n := by
  rw [Nat.add_comm, window_add]
  simp [window]

theorem window_write_of_ne {p : Int} {v : α} {lo : Int} {n : Nat}
    (hne : ∀ k < n, slot size (lo + k) ≠ slot size p) :
    window (write data size p v) size lo n = window data size lo n := by
  unfold window
  refine List.map_congr_left fun k hk => ?_
  exact Function.update_of_ne (hne k (List.mem_range.mp hk)) _ _

theorem window_write_of_lt (hsize : 0 < size) {p : Int} {v : α} {lo : Int} {n : Nat}
    (hp : p < lo) (hspan : lo + n ≤ p + size) :
    window (write data size p v) size lo n = window data size lo n :=
  window_write_of_ne fun k hk h => by
    have := slot_inj hsize (by omega) (by omega) h
    omega

theorem window_write_of_ge (hsize : 0 < size) {p : Int} {v : α} {lo : Int} {n : Nat}
    (hp : lo + n ≤ p) (hspan : p < lo + size) :
    window (write data size p v) size lo n = window data size lo n :=
  window_write_of_ne fun k hk h => by
    have := slot_inj hsize (by omega) (by omega) h
    omega

theorem window_write_last (hsize : 0 < size) {v : α} {lo : Int} {n : Nat} (hn : n < size) :
    window (write data size (lo + n) v) size lo (n + 1) = window data size lo n ++ [v] := by
  rw [window_succ, window_write_of_ge hsize (by omega) (by omega), write, Function.update_self]

theorem window_write_first (hsize : 0 < size) {v : α} {lo : Int} {n : Nat} (hn : n < size) :
    window (write data size lo v) size lo (n + 1) = v :: window data size (lo + 1) n := by
  rw [window_cons, window_write_of_lt hsize (by omega) (by omega), write, Function.update_self]

theorem window_eq_replicate {lo : Int} {n : Nat} {a : α}
    (h : ∀ k < n, data (slot size (lo + k)) = a) : window data size lo n = List.replicate n a := by
  refine List.eq_replicate_iff.mpr ⟨length_window lo n, fun x hx => ?_⟩
  obtain ⟨k, hk, rfl⟩ := List.mem_map.mp hx
  exact h k (List.mem_range.mp hk)

end Ring
