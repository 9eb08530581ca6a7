import Mathlib

/-!
# Printed numbers and the readers that take them back

What `printf` prints for an unsigned conversion in base `b` with a zero-padded minimum width
(`%x`, `%04x`, `%o`, `%03o`), as a list of digit values, and the C idiom that reads at most a
fixed number of digits of a number back, one `if (isdigit(*p))` after the other. The digit
classifier and the characters of the digits are parameters, so that any base and alphabet
instantiate them.
-/

namespace Digits

set_option autoImplicit false

/-- The digits of `n` in base `b`, least significant first, for at most `fuel` places. -/
def rev (b : Nat) : Nat → Nat → List Nat
  | 0, _ => []
  | fuel + 1, n => if n = 0 then [] else n % b :: rev b fuel (n / b)

/-- The digits `printf` prints for `n` with minimum width `w`: at least one, zero padded. -/
def format (b w n : Nat) : List Nat :=
  let ds := if n = 0 then [0] else (rev b n n).reverse
  List.replicate (w - ds.length) 0 ++ ds

/-- The number a list of digits denotes, most significant first. -/
def value (b : Nat) (ds : List Nat) : Nat := ds.foldl (fun acc d => acc * b + d) 0

/-- Reads at most `k` more digits into `acc`; `digit c` is the value of the digit `c`. -/
def readUpTo (digit : Nat → Option Nat) (b : Nat) : Nat → Nat → List Nat → Nat × List Nat
  | 0, acc, p => (acc, p)
  | _ + 1, acc, [] => (acc, [])
  | k + 1, acc, c :: p =>
    match digit c with
    | some d => readUpTo digit b k (acc * b + d) p
    | none => (acc, c :: p)

/-- Reads every digit that follows into `acc`, as `strtoul` does: past `max` the value stays at
`max`. -/
def readAll (digit : Nat → Option Nat) (b max : Nat) : Nat → List Nat → Nat × List Nat
  | acc, [] => (acc, [])
  | acc, c :: p =>
    match digit c with
    | some d => readAll digit b max (min max (acc * b + d)) p
    | none => (acc, c :: p)

section Rev

variable {b : Nat}

theorem rev_lt (hb : 0 < b) : ∀ fuel n, ∀ d ∈ rev b fuel n, d < b := by
  intro fuel
  induction fuel with
  | zero => intro n d hd; simp [rev] at hd
  | succ fuel ih =>
    intro n d hd
    simp only [rev] at hd
    split at hd
    · simp at hd
    · rcases List.mem_cons.mp hd with rfl | hmem
      · exact Nat.mod_lt _ hb
      · exact ih _ d hmem

theorem value_reverse_rev (hb : 2 ≤ b) :
    ∀ fuel n, n ≤ fuel → value b (rev b fuel n).reverse = n := by
  intro fuel
  induction fuel with
  | zero => intro n hn; simp [rev, value]; omega
  | succ fuel ih =>
    intro n hn
    simp only [rev]
    split
    · simp [value, *]
    · rename_i hn0
      have hdiv : n / b ≤ fuel := by
        have : n / b < n := Nat.div_lt_self (by omega) (by omega)
        omega
      have hrest := ih (n / b) hdiv
      simp only [value, List.reverse_cons, List.foldl_append, List.foldl_cons,
        List.foldl_nil] at hrest ⊢
      rw [hrest]
      exact Nat.div_add_mod' n b

theorem length_rev_le (hb : 2 ≤ b) : ∀ fuel n k, n < b ^ k → (rev b fuel n).length ≤ k := by
  intro fuel
  induction fuel with
  | zero => intro n k _; simp [rev]
  | succ fuel ih =>
    intro n k hn
    simp only [rev]
    split
    · simp
    · rename_i hn0
      cases k with
      | zero => simp at hn; omega
      | succ k =>
        have hdiv : n / b < b ^ k := by
          rw [Nat.div_lt_iff_lt_mul (by omega), ← Nat.pow_succ]
          exact hn
        simpa using ih (n / b) k hdiv

end Rev

section Format

variable {b : Nat}

theorem format_lt (hb : 0 < b) (w n : Nat) : ∀ d ∈ format b w n, d < b := by
  intro d hd
  simp only [format, List.mem_append, List.mem_replicate] at hd
  rcases hd with ⟨_, rfl⟩ | hd
  · exact hb
  · split at hd
    · simp at hd; omega
    · exact rev_lt hb n n d (List.mem_reverse.mp hd)

theorem value_replicate_zero (ds : List Nat) (m : Nat) :
    value b (List.replicate m 0 ++ ds) = value b ds := by
  have hzero : ∀ m, (List.replicate m 0).foldl (fun acc d => acc * b + d) 0 = 0 := by
    intro m
    induction m with
    | zero => rfl
    | succ m ih => simpa [List.replicate_succ] using ih
  simp only [value, List.foldl_append, hzero]

theorem value_format (hb : 2 ≤ b) (w n : Nat) : value b (format b w n) = n := by
  simp only [format, value_replicate_zero]
  split
  · simp [value, *]
  · exact value_reverse_rev hb n n (Nat.le_refl n)

theorem length_format (w n : Nat) :
    (format b w n).length = max w (if n = 0 then [0] else (rev b n n).reverse).length := by
  simp only [format, List.length_append, List.length_replicate]
  omega

theorem length_format_pos (w n : Nat) : 0 < (format b w n).length := by
  rw [length_format]
  split
  · rw [List.length_singleton]
    omega
  · rename_i hn
    cases n with
    | zero => exact absurd rfl hn
    | succ n =>
      rw [List.length_reverse, rev, if_neg (Nat.succ_ne_zero n), List.length_cons]
      omega

theorem length_format_le (hb : 2 ≤ b) {w n k : Nat} (hn : n < b ^ k) (hk : 1 ≤ k) (hw : w ≤ k) :
    (format b w n).length ≤ k := by
  rw [length_format]
  split
  · rw [List.length_singleton]
    omega
  · have := length_rev_le hb n n k hn
    simp only [List.length_reverse]
    omega

theorem le_length_format (w n : Nat) : w ≤ (format b w n).length := by
  rw [length_format]
  exact Nat.le_max_left _ _

end Format

section Read

variable {digit : Nat → Option Nat} {b : Nat}

theorem readUpTo_append {char : Nat → Nat} (hdigit : ∀ d, d < b → digit (char d) = some d)
    (rest : List Nat) :
    ∀ (ds : List Nat) (k acc : Nat), (∀ d ∈ ds, d < b) → ds.length ≤ k →
      (ds.length < k → ∀ c, rest.head? = some c → digit c = none) →
      readUpTo digit b k acc (ds.map char ++ rest) = (ds.foldl (fun a d => a * b + d) acc, rest) := by
  intro ds
  induction ds with
  | nil =>
    intro k acc _ _ hstop
    cases k with
    | zero => rfl
    | succ k =>
      cases rest with
      | nil => rfl
      | cons c rest =>
        have hc := hstop (by simp) c rfl
        simp [readUpTo, hc]
  | cons d ds ih =>
    intro k acc hlt hlen hstop
    cases k with
    | zero => simp at hlen
    | succ k =>
      have hd := hdigit d (hlt d (by simp))
      simp only [List.map_cons, List.cons_append, readUpTo, hd, List.foldl_cons]
      exact ih k _ (fun x hx => hlt x (by simp [hx])) (by simpa using hlen)
        (fun h => hstop (by simpa using h))

theorem readUpTo_format {char : Nat → Nat} (hb : 2 ≤ b)
    (hdigit : ∀ d, d < b → digit (char d) = some d) {w n k : Nat} (hn : n < b ^ (k + 1))
    (hw : w ≤ k + 1) (tail : List Nat)
    (hstop : (format b w n).length < k + 1 → ∀ c, tail.head? = some c → digit c = none) :
    ∃ d ds, format b w n = d :: ds ∧ readUpTo digit b k d (ds.map char ++ tail) = (n, tail) := by
  obtain ⟨d, ds, hds⟩ : ∃ d ds, format b w n = d :: ds := by
    cases h : format b w n with
    | nil =>
      have := length_format_pos (b := b) w n
      rw [h] at this
      simp at this
    | cons d ds => exact ⟨d, ds, rfl⟩
  have hlen : (format b w n).length ≤ k + 1 := length_format_le hb hn (by omega) hw
  have hlt : ∀ x ∈ format b w n, x < b := format_lt (by omega) w n
  have hval := value_format hb w n
  rw [hds] at hlen hlt hstop hval
  refine ⟨d, ds, hds, ?_⟩
  rw [readUpTo_append hdigit tail ds k d (fun x hx => hlt x (by simp [hx])) (by simpa using hlen)
    (fun h => hstop (by simpa using h))]
  simpa [value] using hval

theorem le_foldl_digits (hb : 1 ≤ b) :
    ∀ (ds : List Nat) (acc : Nat), acc ≤ ds.foldl (fun a d => a * b + d) acc := by
  intro ds
  induction ds with
  | nil => intro acc; exact Nat.le_refl acc
  | cons d ds ih =>
    intro acc
    have hstep : acc ≤ acc * b + d :=
      Nat.le_trans (Nat.le_mul_of_pos_right acc hb) (Nat.le_add_right _ _)
    exact Nat.le_trans hstep (ih _)

theorem readAll_append {char : Nat → Nat} (hb : 1 ≤ b)
    (hdigit : ∀ d, d < b → digit (char d) = some d) {max : Nat} {rest : List Nat}
    (hstop : ∀ c, rest.head? = some c → digit c = none) :
    ∀ (ds : List Nat) (acc : Nat), (∀ d ∈ ds, d < b) →
      ds.foldl (fun a d => a * b + d) acc ≤ max →
      readAll digit b max acc (ds.map char ++ rest) = (ds.foldl (fun a d => a * b + d) acc, rest) := by
  intro ds
  induction ds with
  | nil =>
    intro acc _ _
    cases rest with
    | nil => rfl
    | cons c rest => simp [readAll, hstop c rfl]
  | cons d ds ih =>
    intro acc hlt hmax
    have hle : acc * b + d ≤ max := Nat.le_trans (le_foldl_digits hb ds _) hmax
    simp only [List.map_cons, List.cons_append, readAll, hdigit d (hlt d (by simp)),
      Nat.min_eq_right hle, List.foldl_cons]
    exact ih _ (fun x hx => hlt x (by simp [hx])) hmax

theorem readAll_format {char : Nat → Nat} (hb : 2 ≤ b)
    (hdigit : ∀ d, d < b → digit (char d) = some d) {max w n : Nat} (hn : n ≤ max)
    {rest : List Nat} (hstop : ∀ c, rest.head? = some c → digit c = none) :
    readAll digit b max 0 ((format b w n).map char ++ rest) = (n, rest) := by
  have hval : (format b w n).foldl (fun a d => a * b + d) 0 = n := value_format hb w n
  rw [readAll_append (by omega) hdigit hstop _ 0 (format_lt (by omega) w n) (by rw [hval]; exact hn),
    hval]

end Read

end Digits
