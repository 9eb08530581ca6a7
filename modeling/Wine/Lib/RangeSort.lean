import Mathlib

/-! In-place sorting of an array by ranges, as a quicksort with an explicit stack does it.
`PermOn lo hi a b` says that `b` is `a` with only the cells of `[lo, hi]` rearranged.
`Separated le a rs` says that two cells that do not lie in one range of `rs` are in order:
once the stack of ranges is empty the array is sorted. `Halving n l` bounds a stack of range
sizes that grows by pushing the larger part of a split below the smaller one. -/

namespace Wine.Lib.RangeSort

set_option autoImplicit false

variable {α : Type}

/-- `x` goes no later than `y` by the three-way comparator `cmp`. -/
def CmpLe (cmp : α → α → Int) (x y : α) : Prop := cmp x y ≤ 0

/-- A three-way comparator that orders by a total preorder: exchanging the arguments exchanges
the sign, and `CmpLe` is transitive. -/
structure TotalPreorderCmp (cmp : α → α → Int) : Prop where
  pos_iff_neg : ∀ x y, 0 < cmp x y ↔ cmp y x < 0
  trans : ∀ x y z, cmp x y ≤ 0 → cmp y z ≤ 0 → cmp x z ≤ 0

section CmpLe

variable {cmp : α → α → Int} {x y z : α}

theorem cmpLe_of_not_pos (h : ¬ 0 < cmp x y) : CmpLe cmp x y := by
  unfold CmpLe
  omega

variable (hc : TotalPreorderCmp cmp)
include hc

theorem TotalPreorderCmp.refl (x : α) : CmpLe cmp x x := by
  have h := hc.pos_iff_neg x x
  unfold CmpLe
  omega

theorem TotalPreorderCmp.le_trans (hxy : CmpLe cmp x y) (hyz : CmpLe cmp y z) : CmpLe cmp x z :=
  hc.trans x y z hxy hyz

theorem TotalPreorderCmp.le_of_pos (h : 0 < cmp x y) : CmpLe cmp y x := by
  have h' := (hc.pos_iff_neg x y).mp h
  unfold CmpLe
  omega

theorem TotalPreorderCmp.le_of_eq_zero (h : cmp x y = 0) : CmpLe cmp y x := by
  have h' := hc.pos_iff_neg y x
  unfold CmpLe
  omega

end CmpLe

theorem forall_of_getElem? {P : α → Prop} {a : List α} {p : Nat} {y : α} (h : a[p]? = some y)
    (hP : P y) : ∀ x, a[p]? = some x → P x :=
  fun _ hx => Option.some.inj (h.symm.trans hx) ▸ hP

/-- Every cell of `[lo, hi)` holds a value that satisfies `P`. -/
def AllIn (P : α → Prop) (a : List α) (lo hi : Nat) : Prop :=
  ∀ p x, lo ≤ p → p < hi → a[p]? = some x → P x

namespace AllIn

variable {P : α → Prop} {a : List α} {lo hi : Nat}

theorem empty (P : α → Prop) (a : List α) (lo : Nat) : AllIn P a lo lo :=
  fun _ _ h1 h2 _ => absurd h2 (by omega)

theorem mono {lo' hi' : Nat} (h : AllIn P a lo hi) (hlo : lo ≤ lo') (hhi : hi' ≤ hi) :
    AllIn P a lo' hi' :=
  fun p x h1 h2 hx => h p x (by omega) (by omega) hx

theorem snoc (h : AllIn P a lo hi) (hhi : ∀ x, a[hi]? = some x → P x) : AllIn P a lo (hi + 1) := by
  intro p x h1 h2 hx
  rcases Nat.lt_or_ge p hi with hlt | hge
  · exact h p x h1 hlt hx
  · obtain rfl : p = hi := by omega
    exact hhi x hx

theorem cons (h : AllIn P a (lo + 1) hi) (hlo : ∀ x, a[lo]? = some x → P x) : AllIn P a lo hi := by
  intro p x h1 h2 hx
  rcases Nat.lt_or_ge lo p with hlt | hge
  · exact h p x hlt h2 hx
  · obtain rfl : p = lo := by omega
    exact hlo x hx

theorem append {mid : Nat} (h₁ : AllIn P a lo mid) (h₂ : AllIn P a mid hi) : AllIn P a lo hi := by
  intro p x h1 h2 hx
  rcases Nat.lt_or_ge p mid with hlt | hge
  · exact h₁ p x h1 hlt hx
  · exact h₂ p x hge h2 hx

theorem imp {Q : α → Prop} (h : AllIn P a lo hi) (hPQ : ∀ x, P x → Q x) : AllIn Q a lo hi :=
  fun p x h1 h2 hx => hPQ x (h p x h1 h2 hx)

theorem congr {b : List α} (h : AllIn P a lo hi) (hab : ∀ p, lo ≤ p → p < hi → b[p]? = a[p]?) :
    AllIn P b lo hi :=
  fun p x h1 h2 hx => h p x h1 h2 ((hab p h1 h2).symm.trans hx)

end AllIn

theorem getElem?_swap {a : List α} {i j : Nat} (hia : i < a.length) (hja : j < a.length) (k : Nat) :
    ((a.set i a[j]).set j a[i])[k]? = if k = j then a[i]? else if k = i then a[j]? else a[k]? := by
  rw [List.getElem?_set, List.getElem?_set]
  by_cases hjk : j = k
  · subst hjk
    simp [hia, hja]
  · by_cases hik : i = k
    · subst hik
      simp [hjk, Ne.symm hjk, hia, List.getElem?_eq_getElem hja]
    · simp [hjk, hik, Ne.symm hjk, Ne.symm hik]

/-- `b` is a permutation of `a` that agrees with it outside `[lo, hi]`; each cell inside holds
a value of a cell of `a` inside. -/
structure PermOn (lo hi : Nat) (a b : List α) : Prop where
  perm : b.Perm a
  outside : ∀ k, (k < lo ∨ hi < k) → b[k]? = a[k]?
  inside : ∀ p x, lo ≤ p → p ≤ hi → b[p]? = some x → ∃ q, lo ≤ q ∧ q ≤ hi ∧ a[q]? = some x

namespace PermOn

variable {lo hi : Nat} {a b c : List α}

theorem refl (lo hi : Nat) (a : List α) : PermOn lo hi a a :=
  ⟨.refl a, fun _ _ => rfl, fun p _ h1 h2 hx => ⟨p, h1, h2, hx⟩⟩

theorem trans (hab : PermOn lo hi a b) (hbc : PermOn lo hi b c) : PermOn lo hi a c := by
  refine ⟨hbc.perm.trans hab.perm, fun k hk => (hbc.outside k hk).trans (hab.outside k hk), ?_⟩
  intro p x h1 h2 hx
  obtain ⟨q, hq1, hq2, hq⟩ := hbc.inside p x h1 h2 hx
  exact hab.inside q x hq1 hq2 hq

theorem length_eq (h : PermOn lo hi a b) : b.length = a.length := h.perm.length_eq

theorem mono {lo' hi' : Nat} (h : PermOn lo hi a b) (hlo : lo' ≤ lo) (hhi : hi ≤ hi') :
    PermOn lo' hi' a b := by
  refine ⟨h.perm, fun k hk => h.outside k (by omega), ?_⟩
  intro p x h1 h2 hx
  by_cases hin : lo ≤ p ∧ p ≤ hi
  · obtain ⟨q, hq1, hq2, hq⟩ := h.inside p x hin.1 hin.2 hx
    exact ⟨q, by omega, by omega, hq⟩
  · exact ⟨p, h1, h2, (h.outside p (by omega)).symm.trans hx⟩

theorem swap {i j : Nat} (hia : i < a.length) (hja : j < a.length) (hli : lo ≤ i) (hil : i ≤ hi)
    (hlj : lo ≤ j) (hjl : j ≤ hi) : PermOn lo hi a ((a.set i a[j]).set j a[i]) := by
  refine ⟨List.set_set_perm hia hja, fun k hk => ?_, ?_⟩
  · rw [List.getElem?_set, if_neg (by omega), List.getElem?_set, if_neg (by omega)]
  · intro p x h1 h2 hx
    rw [List.getElem?_set, List.getElem?_set] at hx
    by_cases hjp : j = p
    · subst hjp
      simp only [if_true, List.length_set, hja] at hx
      exact ⟨i, hli, hil, by rw [← hx, List.getElem?_eq_getElem hia]⟩
    · by_cases hip : i = p
      · subst hip
        simp only [hjp, if_false, if_true, hia] at hx
        exact ⟨j, hlj, hjl, by rw [← hx, List.getElem?_eq_getElem hja]⟩
      · simp only [hjp, hip, if_false] at hx
        exact ⟨p, h1, h2, hx⟩

end PermOn

theorem AllIn.permOn {P : α → Prop} {a b : List α} {lo hi lo' hi' : Nat} (h : AllIn P a lo' hi')
    (hp : PermOn lo hi a b) (hlo : lo' ≤ lo) (hhi : hi < hi') : AllIn P b lo' hi' := by
  intro p x h1 h2 hx
  by_cases hin : lo ≤ p ∧ p ≤ hi
  · obtain ⟨q, hq1, hq2, hq⟩ := hp.inside p x hin.1 hin.2 hx
    exact h q x (by omega) (by omega) hq
  · exact h p x h1 h2 ((hp.outside p (by omega)).symm.trans hx)

/-- The cells of `[lo, hi)` are in order. -/
def SortedOn (le : α → α → Prop) (a : List α) (lo hi : Nat) : Prop :=
  ∀ i j x y, lo ≤ i → i < j → j < hi → a[i]? = some x → a[j]? = some y → le x y

theorem SortedOn.of_le_succ {le : α → α → Prop} (a : List α) {lo hi : Nat} (h : hi ≤ lo + 1) :
    SortedOn le a lo hi :=
  fun _ _ _ _ h1 h2 h3 _ _ => absurd h3 (by omega)

theorem SortedOn.snoc {le : α → α → Prop} {a : List α} {lo hi : Nat} (h : SortedOn le a lo hi)
    {y : α} (hy : a[hi]? = some y) (hall : AllIn (fun x => le x y) a lo hi) :
    SortedOn le a lo (hi + 1) := by
  intro i j x y' h1 h2 h3 hx hy'
  rcases Nat.lt_or_ge j hi with hlt | hge
  · exact h i j x y' h1 h2 hlt hx hy'
  · obtain rfl : j = hi := by omega
    obtain rfl : y' = y := Option.some.inj (hy'.symm.trans hy)
    exact hall i x h1 h2 hx

/-- Cells `i < j` that lie in no common range of `rs` are in order. -/
def Separated (le : α → α → Prop) (a : List α) (rs : List (Nat × Nat)) : Prop :=
  ∀ i j x y, i < j → a[i]? = some x → a[j]? = some y → (∀ r ∈ rs, ¬ (r.1 ≤ i ∧ j ≤ r.2)) →
    le x y

/-- The ranges of a stack do not overlap. -/
def Apart (r s : Nat × Nat) : Prop := r.2 < s.1 ∨ s.2 < r.1

theorem Apart.symm {r s : Nat × Nat} (h : Apart r s) : Apart s r := Or.symm h

theorem Apart.of_le {q r s : Nat × Nat} (h : Apart r s) (h1 : r.1 ≤ q.1) (h2 : q.2 ≤ r.2) :
    Apart q s := by
  unfold Apart at h ⊢
  omega

section Separated

variable {le : α → α → Prop} {a b : List α} {r : Nat × Nat} {rs : List (Nat × Nat)}

theorem separated_whole (le : α → α → Prop) (a : List α) :
    Separated le a [(0, a.length - 1)] := by
  intro i j x y hij hi hj hr
  have hjl : j < a.length := (List.getElem?_eq_some_iff.mp hj).1
  exact absurd ⟨Nat.zero_le i, by omega⟩ (hr _ List.mem_cons_self)

theorem Separated.pairwise (h : Separated le a []) : a.Pairwise le := by
  rw [List.pairwise_iff_getElem]
  intro i j hi hj hij
  exact h i j _ _ hij (List.getElem?_eq_getElem hi) (List.getElem?_eq_getElem hj)
    (fun _ hr => absurd hr List.not_mem_nil)

theorem Separated.perm {rs' : List (Nat × Nat)} (h : Separated le a rs) (hp : rs.Perm rs') :
    Separated le a rs' :=
  fun i j x y hij hi hj hr => h i j x y hij hi hj fun s hs => hr s (hp.mem_iff.mp hs)

theorem Separated.permOn (h : Separated le a (r :: rs)) (hapart : ∀ s ∈ rs, Apart r s)
    (hp : PermOn r.1 r.2 a b) : Separated le b (r :: rs) := by
  intro i j x y hij hi hj hr
  have hnot : ¬ (r.1 ≤ i ∧ j ≤ r.2) := hr r List.mem_cons_self
  have hcross : ∀ k q, ¬ (r.1 ≤ k ∧ k ≤ r.2) → r.1 ≤ q → q ≤ r.2 →
      ∀ s ∈ rs, ¬ ((s.1 ≤ k ∧ k ≤ s.2) ∧ s.1 ≤ q ∧ q ≤ s.2) := by
    intro k q hk hq1 hq2 s hs hks
    rcases hapart s hs with hlt | hlt <;> omega
  by_cases hiIn : r.1 ≤ i ∧ i ≤ r.2
  · have hjOut : r.2 < j := by omega
    obtain ⟨q, hq1, hq2, hq⟩ := hp.inside i x hiIn.1 hiIn.2 hi
    rw [hp.outside j (.inr hjOut)] at hj
    refine h q j x y (by omega) hq hj fun s hs hsq => ?_
    rcases List.mem_cons.mp hs with rfl | hs
    · omega
    · exact hcross j q (by omega) hq1 hq2 s hs ⟨⟨by omega, hsq.2⟩, hsq.1, by omega⟩
  · rw [hp.outside i (by omega)] at hi
    by_cases hjIn : r.1 ≤ j ∧ j ≤ r.2
    · obtain ⟨q, hq1, hq2, hq⟩ := hp.inside j y hjIn.1 hjIn.2 hj
      refine h i q x y (by omega) hi hq fun s hs hsq => ?_
      rcases List.mem_cons.mp hs with rfl | hs
      · omega
      · exact hcross i q hiIn hq1 hq2 s hs ⟨⟨hsq.1, by omega⟩, by omega, hsq.2⟩
    · rw [hp.outside j (by omega)] at hj
      exact h i j x y hij hi hj hr

theorem Separated.finish (h : Separated le a (r :: rs)) (hapart : ∀ s ∈ rs, Apart r s)
    (hp : PermOn r.1 r.2 a b)
    (hsorted : SortedOn le b r.1 (r.2 + 1)) : Separated le b rs := by
  intro i j x y hij hi hj hr
  by_cases hin : r.1 ≤ i ∧ j ≤ r.2
  · exact hsorted i j x y hin.1 hij (by omega) hi hj
  · exact h.permOn hapart hp i j x y hij hi hj (List.forall_mem_cons.mpr ⟨hin, hr⟩)

variable (htrans : ∀ x y z, le x y → le y z → le x z)
include htrans

theorem Separated.split {h₁ l₂ : Nat} (h : Separated le b (r :: rs)) (v : α)
    (hpivot : ∀ p x, b[p]? = some x → r.1 ≤ p → p ≤ r.2 →
      (p ≤ h₁ → le x v) ∧ (h₁ < p → p < l₂ → le x v ∧ le v x) ∧ (l₂ ≤ p → le v x)) :
    Separated le b ((r.1, h₁) :: (l₂, r.2) :: rs) := by
  intro i j x y hij hi hj hr
  by_cases hin : r.1 ≤ i ∧ j ≤ r.2
  · have hx := hpivot i x hi hin.1 (by omega)
    have hy := hpivot j y hj (by omega) hin.2
    have hnot₁ : ¬ (r.1 ≤ i ∧ j ≤ h₁) := hr _ List.mem_cons_self
    have hnot₂ : ¬ (l₂ ≤ i ∧ j ≤ r.2) := hr _ (List.mem_cons_of_mem _ List.mem_cons_self)
    have hxv : le x v := by
      by_cases hi₁ : i ≤ h₁
      · exact hx.1 hi₁
      · exact (hx.2.1 (by omega) (by omega)).1
    have hvy : le v y := by
      by_cases hj₂ : l₂ ≤ j
      · exact hy.2.2 hj₂
      · exact (hy.2.1 (by omega) (by omega)).2
    exact htrans x v y hxv hvy
  · refine h i j x y hij hi hj fun s hs => ?_
    rcases List.mem_cons.mp hs with rfl | hs
    · exact hin
    · exact hr s (List.mem_cons_of_mem _ (List.mem_cons_of_mem _ hs))

end Separated

/-- Sizes on a stack, bottom first: the entry at depth `i` is at most `n / 2 ^ i`. -/
def Halving (n : Nat) (l : List Nat) : Prop := ∀ i (hi : i < l.length), 2 ^ i * l[i] ≤ n

namespace Halving

variable {n m : Nat} {l : List Nat}

theorem single (h : m ≤ n) : Halving n [m] := by
  intro i hi
  simp only [List.length_cons, List.length_nil] at hi
  obtain rfl : i = 0 := by omega
  simpa using h

theorem pop (h : Halving n (l ++ [m])) : Halving n l := by
  intro i hi
  have := h i (by simp; omega)
  rwa [List.getElem_append_left hi] at this

theorem push {b s : Nat} (h : Halving n (l ++ [m])) (hbs : b + s < m) (hsb : s ≤ b) :
    Halving n (l ++ [b, s]) := by
  have hm : 2 ^ l.length * m ≤ n := by
    simpa using h l.length (by simp)
  intro i hi
  simp only [List.length_append, List.length_cons, List.length_nil] at hi
  rcases Nat.lt_or_ge i l.length with hlt | hge
  · have := h i (by simp; omega)
    rw [List.getElem_append_left hlt] at this
    rwa [List.getElem_append_left hlt]
  · rw [List.getElem_append_right hge]
    rcases Nat.lt_or_ge i (l.length + 1) with hlt | hge'
    · obtain rfl : i = l.length := by omega
      simp only [Nat.sub_self, List.getElem_cons_zero]
      calc 2 ^ l.length * b ≤ 2 ^ l.length * m := Nat.mul_le_mul_left _ (by omega)
        _ ≤ n := hm
    · obtain rfl : i = l.length + 1 := by omega
      simp only [Nat.add_sub_cancel_left, List.getElem_cons_succ, List.getElem_cons_zero]
      calc 2 ^ (l.length + 1) * s = 2 ^ l.length * (2 * s) := by rw [Nat.pow_succ, Nat.mul_assoc]
        _ ≤ 2 ^ l.length * m := Nat.mul_le_mul_left _ (by omega)
        _ ≤ n := hm

end Halving

end Wine.Lib.RangeSort
