import Mathlib.Data.Nat.Digits.Defs

/-!
# Big-endian digit strings

A list of digits in base `b`, the most significant first, and the number it stands for. A coder
that shifts `w`-bit words into an accumulator and takes `v`-bit groups out of it turns one such
string into another of the same value, up to padding; the lemmas here are what such a proof
needs: the value of a concatenation, the fixed-length digits of a number, and how the bits of an
accumulator split into a window and what is below it.
-/

namespace BigEndian

set_option autoImplicit false

variable {b : Nat}

/-- The number the digits `l` stand for in base `b`, the first digit the most significant. -/
def value (b : Nat) (l : List Nat) : Nat := Nat.ofDigits b l.reverse

/-- The `n` lowest digits of `v` in base `b`, the most significant first. -/
def digits (b : Nat) : Nat → Nat → List Nat
  | 0, _ => []
  | n + 1, v => digits b n (v / b) ++ [v % b]

example : digits 64 3 0x1234 = [1, 8, 52] := by decide

@[simp] theorem value_nil : value b [] = 0 := rfl

@[simp] theorem value_append_singleton (l : List Nat) (d : Nat) :
    value b (l ++ [d]) = value b l * b + d := by
  rw [value, List.reverse_append, List.reverse_singleton, List.singleton_append,
    Nat.ofDigits_cons, Nat.add_comm, Nat.mul_comm]
  rfl

theorem value_append (l₁ l₂ : List Nat) :
    value b (l₁ ++ l₂) = value b l₁ * b ^ l₂.length + value b l₂ := by
  rw [value, List.reverse_append, Nat.ofDigits_append, List.length_reverse, Nat.add_comm,
    Nat.mul_comm]
  rfl

theorem value_cons (d : Nat) (l : List Nat) : value b (d :: l) = d * b ^ l.length + value b l := by
  rw [← List.singleton_append, value_append, ← List.nil_append [d], value_append_singleton,
    value_nil, Nat.zero_mul, Nat.zero_add]

theorem value_lt (hb : 1 < b) {l : List Nat} (hl : ∀ d ∈ l, d < b) : value b l < b ^ l.length := by
  rw [value, ← List.length_reverse]
  exact Nat.ofDigits_lt_base_pow_length hb fun d hd => hl d (List.mem_reverse.mp hd)

theorem eq_of_value_eq (hb : 1 < b) {l₁ l₂ : List Nat} (hlen : l₁.length = l₂.length)
    (h₁ : ∀ d ∈ l₁, d < b) (h₂ : ∀ d ∈ l₂, d < b) (h : value b l₁ = value b l₂) : l₁ = l₂ :=
  List.reverse_inj.mp (Nat.ofDigits_inj_of_len_eq hb (by rw [List.length_reverse,
    List.length_reverse, hlen]) (fun d hd => h₁ d (List.mem_reverse.mp hd))
    (fun d hd => h₂ d (List.mem_reverse.mp hd)) h)

@[simp] theorem length_digits (n v : Nat) : (digits b n v).length = n := by
  induction n generalizing v with
  | zero => rfl
  | succ n ih => rw [digits, List.length_append, ih, List.length_singleton]

theorem digits_lt (hb : 0 < b) (n v : Nat) : ∀ d ∈ digits b n v, d < b := by
  induction n generalizing v with
  | zero => exact fun _ h => (nomatch h)
  | succ n ih =>
    intro d hd
    rcases List.mem_append.mp hd with hd | hd
    · exact ih (v / b) d hd
    · rw [List.mem_singleton.mp hd]
      exact Nat.mod_lt v hb

theorem value_digits (n v : Nat) : value b (digits b n v) = v % b ^ n := by
  induction n generalizing v with
  | zero => rw [digits, value_nil, Nat.pow_zero, Nat.mod_one]
  | succ n ih =>
    rw [digits, value_append_singleton, ih, Nat.pow_succ', Nat.mod_mul, Nat.add_comm,
      Nat.mul_comm]

theorem digits_value (hb : 1 < b) {l : List Nat} (hl : ∀ d ∈ l, d < b) :
    digits b l.length (value b l) = l :=
  eq_of_value_eq hb (length_digits _ _) (digits_lt (Nat.lt_trans Nat.zero_lt_one hb) _ _) hl
    (by rw [value_digits, Nat.mod_eq_of_lt (value_lt hb hl)])

/-! ## Windows of an accumulator -/

theorem mod_two_pow_add (x k w : Nat) : x % 2 ^ (k + w) = x / 2 ^ k % 2 ^ w * 2 ^ k + x % 2 ^ k := by
  rw [Nat.pow_add, Nat.mod_mul, Nat.add_comm, Nat.mul_comm]

theorem eq_of_mul_add_eq_mul {a r c k : Nat} (hr : r < k) (h : a * k + r = c * k) : a = c := by
  have hk : 0 < k := Nat.lt_of_le_of_lt (Nat.zero_le r) hr
  have h1 : (a * k + r) / k = a := by
    rw [Nat.add_comm, Nat.add_mul_div_right _ _ hk, Nat.div_eq_of_lt hr, Nat.zero_add]
  rw [← h1, h, Nat.mul_div_cancel _ hk]

theorem shift_in_mod (a u o w : Nat) (hu : u < 2 ^ w) :
    (a * 2 ^ w + u) % 2 ^ (o + w) = a % 2 ^ o * 2 ^ w + u := by
  have hlow : a % 2 ^ o * 2 ^ w + u < 2 ^ o * 2 ^ w := by
    have h2 : (a % 2 ^ o + 1) * 2 ^ w ≤ 2 ^ o * 2 ^ w :=
      Nat.mul_le_mul_right _ (Nat.mod_lt a (Nat.two_pow_pos o))
    rw [Nat.add_mul, Nat.one_mul] at h2
    omega
  have hsplit : a * 2 ^ w + u = a / 2 ^ o * (2 ^ o * 2 ^ w) + (a % 2 ^ o * 2 ^ w + u) := by
    have h1 : a / 2 ^ o * (2 ^ o * 2 ^ w) + a % 2 ^ o * 2 ^ w =
        (a / 2 ^ o * 2 ^ o + a % 2 ^ o) * 2 ^ w := by
      rw [Nat.add_mul, Nat.mul_assoc]
    rw [Nat.div_add_mod'] at h1
    omega
  rw [Nat.pow_add, hsplit, Nat.mul_comm (a / 2 ^ o), Nat.mul_add_mod, Nat.mod_eq_of_lt hlow]

end BigEndian
