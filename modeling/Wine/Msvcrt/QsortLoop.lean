import Wine.Msvcrt.Qsort

/-! quick_sort's outer loop over its explicit stack, and qsort_s. The ranges on the stack are a
list of pairs, bottom first. The loop keeps the array a permutation of the input whose cells are
in order except within one range still on the stack, the ranges apart, and their sizes halving
from the bottom up, which keeps the stack within its `8 * sizeof(size_t)` entries. Each pass
lowers the sum of `2 * (hi - lo) + 1` over the ranges, which bounds the passes. -/

namespace Wine.Msvcrt

open Mem Wine.Lib.RangeSort

set_option autoImplicit false

variable {α : Type}

/-- The stack arrays of `s` have `w` entries and hold the ranges `st`, bottom first. -/
structure StackHolds (w : Nat) (s : QsortState α) (st : List (Nat × Nat)) : Prop where
  pos : s.stackPos + 1 = st.length
  lenLo : s.stackLo.length = w
  lenHi : s.stackHi.length = w
  cells : ∀ k (hk : k < st.length), s.stackLo[k]? = some st[k].1 ∧ s.stackHi[k]? = some st[k].2

namespace StackHolds

variable {w : Nat} {s : QsortState α} {st : List (Nat × Nat)}

theorem with_base (h : StackHolds w s st) (b : List α) : StackHolds w { s with base := b } st :=
  ⟨h.pos, h.lenLo, h.lenHi, h.cells⟩

theorem push_spec (h : StackHolds w s st) (hw : st.length < w) (l hh : Nat) :
    ∃ s', push s l hh = .ok s' ∧ s'.base = s.base ∧ StackHolds w s' (st ++ [(l, hh)]) := by
  have hpos : (s.stackPos + 1).toNat = st.length := by have := h.pos; omega
  have hlo : (s.stackPos + 1).toNat < s.stackLo.length := by rw [hpos, h.lenLo]; exact hw
  have hhi : (s.stackPos + 1).toNat < s.stackHi.length := by rw [hpos, h.lenHi]; exact hw
  refine ⟨⟨s.base, s.stackLo.set (s.stackPos + 1).toNat l, s.stackHi.set (s.stackPos + 1).toNat hh,
    s.stackPos + 1⟩, ?_, rfl, ?_⟩
  · simp only [push, storeInt_of_lt (by have := h.pos; omega) hlo,
      storeInt_of_lt (by have := h.pos; omega) hhi, ok_bind]
    rfl
  · refine ⟨by simp [h.pos], by simp [h.lenLo], by simp [h.lenHi], fun k hk => ?_⟩
    simp only [List.length_append, List.length_cons, List.length_nil] at hk
    simp only [List.getElem?_set, hpos]
    rcases Nat.lt_or_ge k st.length with hlt | hge
    · rw [List.getElem_append_left hlt, if_neg (by omega), if_neg (by omega)]
      exact h.cells k hlt
    · obtain rfl : k = st.length := by omega
      simp [h.lenLo, h.lenHi, hw]

theorem pop_spec {r : Nat × Nat} (h : StackHolds w s (st ++ [r])) :
    loadInt s.stackLo s.stackPos = .ok r.1 ∧ loadInt s.stackHi s.stackPos = .ok r.2 ∧
      StackHolds w { s with stackPos := s.stackPos - 1 } st := by
  have hpos : s.stackPos.toNat = st.length := by have := h.pos; simp at this; omega
  have htop := h.cells st.length (by simp)
  simp only [List.getElem_append_right (Nat.le_refl _), Nat.sub_self, List.getElem_cons_zero]
    at htop
  obtain ⟨hlo, hr1⟩ := List.getElem?_eq_some_iff.mp htop.1
  obtain ⟨hhi, hr2⟩ := List.getElem?_eq_some_iff.mp htop.2
  have h0 : 0 ≤ s.stackPos := by have := h.pos; simp at this; omega
  refine ⟨?_, ?_, ⟨?_, h.lenLo, h.lenHi, fun k hk => ?_⟩⟩
  · rw [loadInt_of_lt h0 (by rw [hpos]; exact hlo)]
    simp only [hpos, hr1]
  · rw [loadInt_of_lt h0 (by rw [hpos]; exact hhi)]
    simp only [hpos, hr2]
  · have := h.pos
    simp at this ⊢
    omega
  · have := h.cells k (by simp; omega)
    rwa [List.getElem_append_left hk] at this

theorem exists_top (h : StackHolds w s st) (h0 : 0 ≤ s.stackPos) : ∃ st' r, st = st' ++ [r] := by
  have hne : st ≠ [] := by
    rintro rfl
    have := h.pos
    simp at this
    omega
  exact ⟨st.dropLast, st.getLast hne, (List.dropLast_append_getLast hne).symm⟩

theorem eq_nil_of_neg (h : StackHolds w s st) (h0 : ¬ 0 ≤ s.stackPos) : st = [] := by
  have := h.pos
  exact List.eq_nil_of_length_eq_zero (by omega)

theorem length_le (h : StackHolds w s st) : st.length ≤ w := by
  rcases Nat.eq_zero_or_pos st.length with h0 | hpos
  · omega
  · obtain ⟨hk, -⟩ := List.getElem?_eq_some_iff.mp (h.cells (st.length - 1) (by omega)).1
    rw [h.lenLo] at hk
    omega

end StackHolds

/-- The stack after the two parts are pushed by `pushParts`, the larger first. -/
def partsPushed (st : List (Nat × Nat)) (beg hi lo last : Nat) : List (Nat × Nat) :=
  st ++ if last - lo ≤ hi - beg then [(beg, hi), (lo, last)] else [(lo, last), (beg, hi)]

theorem pushParts_spec {w : Nat} {s : QsortState α} {st : List (Nat × Nat)}
    (h : StackHolds w s st) (hw : st.length + 2 ≤ w) (beg hi lo last : Nat) :
    ∃ s', pushParts s beg hi lo last = .ok s' ∧ s'.base = s.base ∧
      StackHolds w s' (partsPushed st beg hi lo last) := by
  unfold pushParts partsPushed
  split
  · obtain ⟨s₁, h₁, hb₁, hs₁⟩ := h.push_spec (by omega) beg hi
    obtain ⟨s₂, h₂, hb₂, hs₂⟩ := hs₁.push_spec (by simp; omega) lo last
    refine ⟨s₂, by rw [h₁, ok_bind, h₂], hb₂.trans hb₁, by simpa using hs₂⟩
  · obtain ⟨s₁, h₁, hb₁, hs₁⟩ := h.push_spec (by omega) lo last
    obtain ⟨s₂, h₂, hb₂, hs₂⟩ := hs₁.push_spec (by simp; omega) beg hi
    refine ⟨s₂, by rw [h₁, ok_bind, h₂], hb₂.trans hb₁, by simpa using hs₂⟩

/-- The sum of `2 * (hi - lo) + 1` over the ranges on the stack: the passes still to come. -/
def stackCost (st : List (Nat × Nat)) : Nat := (st.map fun r => 2 * (r.2 - r.1) + 1).sum

@[simp] theorem stackCost_nil : stackCost [] = 0 := rfl

@[simp] theorem stackCost_append (st st' : List (Nat × Nat)) :
    stackCost (st ++ st') = stackCost st + stackCost st' := by
  simp [stackCost]

@[simp] theorem stackCost_cons (r : Nat × Nat) (st : List (Nat × Nat)) :
    stackCost (r :: st) = 2 * (r.2 - r.1) + 1 + stackCost st := by
  simp [stackCost]

variable (cmp : α → α → Int)

/-- What quick_sort's outer loop keeps, with `st` the ranges on the stack. -/
structure LoopInv (w : Nat) (a₀ : List α) (s : QsortState α) (st : List (Nat × Nat)) : Prop where
  stack : StackHolds w s st
  perm : s.base.Perm a₀
  ranges : ∀ r ∈ st, r.1 ≤ r.2 ∧ r.2 < a₀.length
  apart : st.Pairwise Apart
  separated : Separated (CmpLe cmp) s.base st
  halving : Halving (a₀.length - 1) (st.map fun r => r.2 - r.1)

variable {cmp} {w : Nat} {a₀ : List α} {s : QsortState α} {st : List (Nat × Nat)}
  {r : Nat × Nat}

namespace LoopInv

theorem top_apart (hinv : LoopInv cmp w a₀ s (st ++ [r])) : ∀ q ∈ st, Apart r q :=
  fun q hq => (List.pairwise_append.mp hinv.apart).2.2 q hq r (List.mem_singleton_self r) |>.symm

theorem separated_top (hinv : LoopInv cmp w a₀ s (st ++ [r])) :
    Separated (CmpLe cmp) s.base (r :: st) :=
  hinv.separated.perm (List.perm_append_singleton r st)

theorem finish {b : List α} (hinv : LoopInv cmp w a₀ s (st ++ [r])) (hp : PermOn r.1 r.2 s.base b)
    (hsorted : SortedOn (CmpLe cmp) b r.1 (r.2 + 1)) :
    LoopInv cmp w a₀ { s with stackPos := s.stackPos - 1, base := b } st := by
  refine ⟨(hinv.stack.pop_spec).2.2.with_base b, hp.perm.trans hinv.perm,
    fun q hq => hinv.ranges q (List.mem_append_left _ hq), (List.pairwise_append.mp hinv.apart).1,
    hinv.separated_top.finish hinv.top_apart hp hsorted, ?_⟩
  have hh := hinv.halving
  rw [List.map_append] at hh
  exact hh.pop

/-- The range on top that has been partitioned is replaced by its two parts, the larger below. -/
theorem split {b : List α} {lo hi : Nat} (hc : TotalPreorderCmp cmp)
    (hinv : LoopInv cmp w a₀ s (st ++ [r])) (hp : PermOn r.1 r.2 s.base b) (hbh : r.1 ≤ hi)
    (hcross : hi < lo) (hll : lo ≤ r.2) (v : α)
    (hpivot : ∀ p x, b[p]? = some x → r.1 ≤ p → p ≤ r.2 →
      (p ≤ hi → CmpLe cmp x v) ∧ (hi < p → p < lo → CmpLe cmp x v ∧ CmpLe cmp v x) ∧
        (lo ≤ p → CmpLe cmp v x)) {s' : QsortState α} (hs'b : s'.base = b)
    (hs' : StackHolds w s' (partsPushed st r.1 hi lo r.2)) :
    LoopInv cmp w a₀ s' (partsPushed st r.1 hi lo r.2) := by
  have hr := hinv.ranges r (List.mem_append_right _ (List.mem_singleton_self r))
  have htrans : ∀ x y z : α, CmpLe cmp x y → CmpLe cmp y z → CmpLe cmp x z :=
    fun _ _ _ hxy hyz => hc.le_trans hxy hyz
  have hsplit : Separated (CmpLe cmp) b ((r.1, hi) :: (lo, r.2) :: st) :=
    (hinv.separated_top.permOn hinv.top_apart hp).split htrans v hpivot
  have hpart : ∀ q ∈ [(r.1, hi), (lo, r.2)], q.1 ≤ q.2 ∧ q.2 < a₀.length ∧ r.1 ≤ q.1 ∧ q.2 ≤ r.2 := by
    simp only [List.mem_cons, List.not_mem_nil, or_false]
    rintro q (rfl | rfl) <;> omega
  have hhalf := hinv.halving
  rw [List.map_append] at hhalf
  have hst := (List.pairwise_append.mp hinv.apart).1
  refine ⟨hs', hs'b ▸ hp.perm.trans hinv.perm, ?_, ?_, ?_, ?_⟩
  · intro q hq
    unfold partsPushed at hq
    rcases List.mem_append.mp hq with hq | hq
    · exact hinv.ranges q (List.mem_append_left _ hq)
    · split at hq <;> simp only [List.mem_cons, List.not_mem_nil, or_false] at hq <;>
        rcases hq with rfl | rfl <;> omega
  · have hpart_apart : ∀ q, r.1 ≤ q.1 → q.2 ≤ r.2 → ∀ t ∈ st, Apart t q := fun q h1 h2 t ht =>
      ((hinv.top_apart t ht).of_le h1 h2).symm
    unfold partsPushed
    have hlower := hpart_apart (r.1, hi) le_rfl (by omega : hi ≤ r.2)
    have hupper := hpart_apart (lo, r.2) (by omega : r.1 ≤ lo) le_rfl
    split
    · refine List.pairwise_append.mpr ⟨hst, List.pairwise_pair.mpr (.inl hcross), ?_⟩
      simp only [List.mem_cons, List.not_mem_nil, or_false]
      rintro t ht q (rfl | rfl)
      · exact hlower t ht
      · exact hupper t ht
    · refine List.pairwise_append.mpr ⟨hst, List.pairwise_pair.mpr (.inr hcross), ?_⟩
      simp only [List.mem_cons, List.not_mem_nil, or_false]
      rintro t ht q (rfl | rfl)
      · exact hupper t ht
      · exact hlower t ht
  · rw [hs'b]
    unfold partsPushed
    split
    · exact hsplit.perm (@List.perm_append_comm _ [(r.1, hi), (lo, r.2)] st)
    · exact hsplit.perm ((List.Perm.swap _ _ st).trans
        (@List.perm_append_comm _ [(lo, r.2), (r.1, hi)] st))
  · unfold partsPushed
    rw [List.map_append]
    split
    · exact hhalf.push (by simp; omega) (by simp; omega)
    · exact hhalf.push (by simp; omega) (by simp; omega)

theorem length_add_two_le (hinv : LoopInv cmp w a₀ s (st ++ [r])) (hw : a₀.length < 2 ^ w)
    (hbig : r.1 + 8 ≤ r.2) : st.length + 2 ≤ w := by
  have hh : 2 ^ st.length * (r.2 - r.1) ≤ a₀.length - 1 := by
    simpa using hinv.halving st.length (by simp)
  have hpow : 2 ^ (st.length + 3) < 2 ^ w := by
    calc 2 ^ (st.length + 3) = 2 ^ st.length * 8 := by rw [Nat.pow_add]
      _ ≤ 2 ^ st.length * (r.2 - r.1) := Nat.mul_le_mul_left _ (by omega)
      _ < 2 ^ w := by omega
  have := (Nat.pow_lt_pow_iff_right (by omega)).mp hpow
  omega

end LoopInv

section Run

variable (hc : TotalPreorderCmp cmp) (hw : a₀.length < 2 ^ w)
include hc hw

theorem sortRange_spec {fuel : Nat} (hinv : LoopInv cmp w a₀ s (st ++ [r]))
    (hfuel : stackCost (st ++ [r]) ≤ fuel) :
    ∃ s' st', sortRange cmp fuel { s with stackPos := s.stackPos - 1 } r.1 r.2 = .ok (some s') ∧
      LoopInv cmp w a₀ s' st' ∧ stackCost st' < stackCost (st ++ [r]) := by
  have hr := hinv.ranges r (List.mem_append_right _ (List.mem_singleton_self r))
  have hlen : s.base.length = a₀.length := hinv.perm.length_eq
  have hcost : stackCost (st ++ [r]) = stackCost st + (2 * (r.2 - r.1) + 1) := by simp
  unfold sortRange
  by_cases hsmall : r.2 - r.1 < 8
  · rw [if_pos hsmall]
    obtain ⟨b, hb, hp, hs⟩ :=
      smallSort_spec hc r.1 (r.2 - r.1 + 1) (by omega : r.1 + (r.2 - r.1 + 1) ≤ s.base.length)
    have hend : r.1 + (r.2 - r.1 + 1) = r.2 + 1 := by omega
    rw [hend] at hs
    refine ⟨_, st, ?_, hinv.finish (hp.mono le_rfl (by omega)) hs, by omega⟩
    simp only [hb, ok_bind]
    rfl
  · rw [if_neg hsmall]
    obtain ⟨b, lo, hi, v, hpart, hp, hbh, hcross, hll, hpivot⟩ :=
      partition_spec hc (by omega : r.1 + 8 ≤ r.2) (by omega : r.2 < s.base.length)
        (by omega : 2 * (r.2 - r.1) ≤ fuel)
    have hstack := (hinv.stack.pop_spec).2.2.with_base b
    obtain ⟨s', hpush, hs'b, hs'⟩ :=
      pushParts_spec hstack (hinv.length_add_two_le hw (by omega)) r.1 hi lo r.2
    refine ⟨s', _, ?_, hinv.split hc hp hbh hcross hll v hpivot hs'b hs', ?_⟩
    · simp only [hpart, ok_bind]
      rw [hpush]
      rfl
    · unfold partsPushed
      split <;> simp <;> omega

theorem quickSortLoop_spec (fuel : Nat) :
    ∀ s st, LoopInv cmp w a₀ s st → stackCost st < fuel →
      ∃ b, quickSortLoop cmp fuel s = .ok (some b) ∧ b.Perm a₀ ∧ b.Pairwise (CmpLe cmp) := by
  induction fuel with
  | zero =>
    intro s st _ hfuel
    omega
  | succ fuel ih =>
    intro s st hinv hfuel
    rw [quickSortLoop]
    by_cases h0 : 0 ≤ s.stackPos
    · rw [if_pos h0]
      obtain ⟨st', r, rfl⟩ := hinv.stack.exists_top h0
      obtain ⟨hbeg, hlast, -⟩ := hinv.stack.pop_spec
      have hcost : stackCost (st' ++ [r]) ≤ fuel := by omega
      obtain ⟨s', st'', hstep, hinv', hlt⟩ := sortRange_spec hc hw hinv hcost
      simp only [hbeg, hlast, hstep, ok_bind]
      exact ih s' st'' hinv' (by omega)
    · rw [if_neg h0]
      have hnil := hinv.stack.eq_nil_of_neg h0
      subst hnil
      exact ⟨s.base, rfl, hinv.perm, hinv.separated.pairwise⟩

end Run

theorem quickSort_spec (hc : TotalPreorderCmp cmp) (a : List α) (h2 : 2 ≤ a.length)
    (hw : a.length < 2 ^ w) {fuel : Nat} (hfuel : 2 * a.length ≤ fuel) :
    ∃ b, quickSort cmp w fuel a = .ok (some b) ∧ b.Perm a ∧ b.Pairwise (CmpLe cmp) := by
  have hw0 : 0 < w := by
    rcases Nat.eq_zero_or_pos w with rfl | hpos
    · rw [Nat.pow_zero] at hw
      omega
    · exact hpos
  have h0 : 0 < (List.replicate w 0).length := by simpa using hw0
  simp only [quickSort, store_of_lt h0, ok_bind]
  refine quickSortLoop_spec hc hw fuel _ [(0, a.length - 1)] ⟨⟨by simp, by simp, by simp,
    fun k hk => ?_⟩, .refl a, ?_, List.pairwise_singleton _ _, separated_whole _ a, ?_⟩ ?_
  · obtain rfl : k = 0 := by simpa using hk
    simp [hw0]
  · simp only [List.mem_singleton, forall_eq]
    omega
  · exact Halving.single (by simp)
  · simp
    omega

/-- qsort_s, and qsort through compare_wrapper, on an array of `nmemb` elements of `size` bytes
that fits in the `w`-bit address space, with a comparator that orders by a total preorder and
fuel twice `nmemb`: both return without a fault, so no comparison, exchange or stack access
leaves its object, with the array a permutation of the input sorted by the comparator. -/
theorem qsortS_sorted_perm (hc : TotalPreorderCmp cmp) (w fuel size : Nat) (a : List α)
    (hfit : a.length * size < 2 ^ w) (hsize : size = 0 → ∀ x ∈ a, ∀ y ∈ a, x = y)
    (hfuel : 2 * a.length ≤ fuel) :
    ∃ b, qsortS cmp w fuel size a = .ok (some b) ∧ qsort cmp w fuel size a = .ok (some b) ∧
      b.Perm a ∧ b.Pairwise (fun x y => cmp x y ≤ 0) := by
  suffices h : ∃ b, qsortS cmp w fuel size a = .ok (some b) ∧ b.Perm a ∧
      b.Pairwise (CmpLe cmp) by
    obtain ⟨b, hb, hp, hs⟩ := h
    exact ⟨b, hb, hb, hp, hs⟩
  unfold qsortS
  by_cases h0 : size = 0
  · rw [if_pos h0]
    refine ⟨a, rfl, .refl a, List.pairwise_of_forall_mem_list fun x hx y hy => ?_⟩
    rw [hsize h0 x hx y hy]
    exact hc.refl y
  · rw [if_neg h0]
    have hpos : 0 < size := Nat.pos_of_ne_zero h0
    have hn : a.length < 2 ^ w := lt_of_le_of_lt (Nat.le_mul_of_pos_right _ hpos) hfit
    have hdiv : a.length * size % 2 ^ w / size = a.length := by
      rw [Nat.mod_eq_of_lt hfit, Nat.mul_div_cancel _ hpos]
    rw [if_neg (not_not.mpr hdiv)]
    by_cases h2 : a.length < 2
    · rw [if_pos h2]
      refine ⟨a, rfl, .refl a, ?_⟩
      rcases a with _ | ⟨x, _ | ⟨y, t⟩⟩
      · exact List.Pairwise.nil
      · exact List.pairwise_singleton _ x
      · simp at h2
    · rw [if_neg h2]
      exact quickSort_spec hc a (by omega) hn hfuel

theorem qsortS_sorts_three :
    ∃ b, qsortS (fun x y : Int => x - y) 64 6 4 [3, 1, 2] = .ok (some b) ∧
      qsort (fun x y : Int => x - y) 64 6 4 [3, 1, 2] = .ok (some b) ∧ b.Perm [3, 1, 2] ∧
      b.Pairwise (fun x y => x - y ≤ 0) :=
  qsortS_sorted_perm ⟨fun x y => by omega, fun x y z hxy hyz => by omega⟩ 64 6 4 [3, 1, 2]
    (by decide) (fun h => absurd h (by decide)) (by decide)

end Wine.Msvcrt
