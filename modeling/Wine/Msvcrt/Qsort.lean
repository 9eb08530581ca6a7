import Wine.Lib.Memory
import Wine.Lib.RangeSort

/-! qsort_s and qsort (dlls/msvcrt/misc.c). The array is the checked object of its `nmemb`
elements: `swap` of `size` bytes exchanges two elements, and `compar(context, p, q)` is `cmp`
applied to the elements that `p` and `q` address, so a pointer outside the array is a fault.
`stack_lo` and `stack_hi` are objects of `8 * sizeof(size_t)` cells. The loops whose exit the
code does not bound by itself take a fuel argument and return `none` when it runs out. -/

namespace Wine.Msvcrt

open Mem Wine.Lib.RangeSort

set_option autoImplicit false

variable {α : Type} (cmp : α → α → Int)

/-- `compar(context, X(i), X(j))` -/
def compareAt (base : List α) (i j : Nat) : Run Int := do
  let x ← load base i
  let y ← load base j
  pure (cmp x y)

/-- `swap(X(i), X(j), size)` -/
def swapAt (base : List α) (i j : Nat) : Run (List α) := do
  let x ← load base i
  let y ← load base j
  let base ← store base i y
  store base j x

/-- The inner loop of small_sort over the `e` elements from `beg`: the last maximum. -/
def maxScan (base : List α) (beg e : Nat) (i max : Nat) : Run Nat :=
  if i < e then do
    let c ← compareAt cmp base (beg + i) max
    maxScan base beg e (i + 1) (if 0 < c then beg + i else max)
  else pure max
termination_by e - i

/-- `small_sort(X(beg), e, size, compar, context)`: each round swaps a maximum of the first
`e` elements into the last of them. -/
def smallSort (base : List α) (beg : Nat) : Nat → Run (List α)
  | e + 2 => do
    let max ← maxScan cmp base beg (e + 2) 1 beg
    let p := beg + (e + 1)
    if p ≠ max then do
      let base ← swapAt base p max
      smallSort base beg (e + 1)
    else smallSort base beg (e + 1)
  | _ => pure base

/-- `if(compar(context, X(i), X(j)) > 0) swap(X(i), X(j), size);` -/
def sortPair (base : List α) (i j : Nat) : Run (List α) := do
  let c ← compareAt cmp base i j
  if 0 < c then swapAt base i j else pure base

/-- The median of three: the first, middle and last elements put in order. -/
def medianOfThree (base : List α) (lo med hi : Nat) : Run (List α) := do
  let base ← sortPair cmp base lo med
  let base ← sortPair cmp base lo hi
  sortPair cmp base med hi

/-- `while(lo <= hi) { if(lo!=med && compar(context, X(lo), X(med))>0) break; lo++; }` -/
def scanLo (base : List α) (hi med : Nat) (lo : Nat) : Run Nat :=
  if lo ≤ hi then
    if lo ≠ med then do
      let c ← compareAt cmp base lo med
      if 0 < c then pure lo else scanLo base hi med (lo + 1)
    else scanLo base hi med (lo + 1)
  else pure lo
termination_by hi + 1 - lo

/-- `while(med != hi) { if(compar(context, X(hi), X(med)) <= 0) break; hi--; }` -/
def scanHi (base : List α) (med : Nat) : Nat → Nat → Run (Option Nat)
  | 0, _ => pure none
  | fuel + 1, hi =>
    if med ≠ hi then do
      let c ← compareAt cmp base hi med
      if c ≤ 0 then pure (some hi) else scanHi base med fuel (hi - 1)
    else pure (some hi)

/-- The `while(1)` loop of quick_sort: the array, `lo`, `hi` and `med` at its `break`. -/
def partitionLoop : Nat → List α → Nat → Nat → Nat → Run (Option (List α × Nat × Nat × Nat))
  | 0, _, _, _, _ => pure none
  | fuel + 1, base, lo, hi, med => do
    let lo ← scanLo cmp base hi med lo
    match ← scanHi cmp base med (fuel + 1) hi with
    | none => pure none
    | some hi =>
      if hi < lo then pure (some (base, lo, hi, med))
      else do
        let base ← swapAt base lo hi
        partitionLoop fuel base (lo + 1) (hi - 1) (if hi = med then lo else med)

/-- `while(hi > beg) { if(hi!=med && compar(context, X(hi), X(med))!=0) break; hi--; }` -/
def skipEqual (base : List α) (beg med : Nat) (hi : Nat) : Run Nat :=
  if beg < hi then
    if hi ≠ med then do
      let c ← compareAt cmp base hi med
      if c ≠ 0 then pure hi else skipEqual base beg med (hi - 1)
    else skipEqual base beg med (hi - 1)
  else pure hi
termination_by hi

/-- The partition of the range `beg..last` in quick_sort, from the median of three to the
skip of the cells equal to the pivot: the array, the first cell of the upper part and the last
cell of the lower part. -/
def partition (fuel : Nat) (base : List α) (beg last : Nat) :
    Run (Option (List α × Nat × Nat)) := do
  let med := beg + (last - beg + 1) / 2
  let base ← medianOfThree cmp base beg med last
  match ← partitionLoop cmp fuel base (beg + 1) (last - 1) med with
  | none => pure none
  | some (base, lo, hi, med) =>
    let hi ← skipEqual cmp base beg med hi
    pure (some (base, lo, hi))

/-- The state of quick_sort's outer loop. -/
structure QsortState (α : Type) where
  base : List α
  stackLo : List Nat
  stackHi : List Nat
  stackPos : Int

/-- `stack_lo[++stack_pos] = l; stack_hi[stack_pos] = h;` -/
def push (s : QsortState α) (l h : Nat) : Run (QsortState α) := do
  let pos := s.stackPos + 1
  let stackLo ← storeInt s.stackLo pos l
  let stackHi ← storeInt s.stackHi pos h
  pure ⟨s.base, stackLo, stackHi, pos⟩

/-- The two parts `beg..hi` and `lo..last` pushed, the larger first. -/
def pushParts (s : QsortState α) (beg hi lo last : Nat) : Run (QsortState α) :=
  if last - lo ≤ hi - beg then do
    let s ← push s beg hi
    push s lo last
  else do
    let s ← push s lo last
    push s beg hi

/-- One pass of quick_sort's outer loop over the popped range `beg..last`. -/
def sortRange (fuel : Nat) (s : QsortState α) (beg last : Nat) : Run (Option (QsortState α)) :=
  if last - beg < 8 then do
    let base ← smallSort cmp s.base beg (last - beg + 1)
    pure (some { s with base := base })
  else do
    match ← partition cmp fuel s.base beg last with
    | none => pure none
    | some (base, lo, hi) => some <$> pushParts { s with base := base } beg hi lo last

/-- The outer loop of quick_sort, `while(stack_pos >= 0)`; `last` is the source's `end`. -/
def quickSortLoop : Nat → QsortState α → Run (Option (List α))
  | 0, _ => pure none
  | fuel + 1, s =>
    if 0 ≤ s.stackPos then do
      let beg ← loadInt s.stackLo s.stackPos
      let last ← loadInt s.stackHi s.stackPos
      match ← sortRange cmp fuel { s with stackPos := s.stackPos - 1 } beg last with
      | none => pure none
      | some s => quickSortLoop fuel s
    else pure (some s.base)

/-- `quick_sort(base, nmemb, size, compar, context)` with stacks of `w = 8 * sizeof(size_t)`
entries. -/
def quickSort (w fuel : Nat) (base : List α) : Run (Option (List α)) := do
  let stackLo ← store (List.replicate w 0) 0 0
  let stackHi ← store (List.replicate w 0) 0 (base.length - 1)
  quickSortLoop cmp fuel ⟨base, stackLo, stackHi, 0⟩

/-- `qsort_s(base, nmemb, size, compar, context)` on an array and a comparator that are present,
with `size_t` of `w` bits: the array after the call. -/
def qsortS (w fuel size : Nat) (base : List α) : Run (Option (List α)) :=
  if size = 0 then pure (some base)
  else if base.length * size % 2 ^ w / size ≠ base.length then pure (some base)
  else if base.length < 2 then pure (some base)
  else quickSort cmp w fuel base

/-- `qsort(base, nmemb, size, compar)`: qsort_s with `compare_wrapper`, which calls `compar`. -/
def qsort (w fuel size : Nat) (base : List α) : Run (Option (List α)) :=
  qsortS cmp w fuel size base

section Cells

variable {a : List α} {i j : Nat}

theorem compareAt_of_lt (hi : i < a.length) (hj : j < a.length) :
    compareAt cmp a i j = .ok (cmp a[i] a[j]) := by
  simp only [compareAt, load_of_lt hi, load_of_lt hj, ok_bind]
  rfl

theorem swapAt_of_lt (hi : i < a.length) (hj : j < a.length) :
    swapAt a i j = .ok ((a.set i a[j]).set j a[i]) := by
  have hj' : j < (a.set i a[j]).length := by simpa using hj
  simp only [swapAt, load_of_lt hi, load_of_lt hj, ok_bind, store_of_lt hi, store_of_lt hj']

theorem sortPair_of_lt (hi : i < a.length) (hj : j < a.length) :
    sortPair cmp a i j = .ok (if 0 < cmp a[i] a[j] then (a.set i a[j]).set j a[i] else a) := by
  simp only [sortPair, compareAt_of_lt cmp hi hj, ok_bind]
  split
  · exact swapAt_of_lt hi hj
  · rfl

variable {cmp} (hc : TotalPreorderCmp cmp)
include hc

theorem sortPair_spec {x y : α} (hi : a[i]? = some x) (hj : a[j]? = some y) (hij : i < j) :
    ∃ b x' y', sortPair cmp a i j = .ok b ∧ PermOn i j a b ∧
      (∀ k, k ≠ i → k ≠ j → b[k]? = a[k]?) ∧ b[i]? = some x' ∧ b[j]? = some y' ∧
      CmpLe cmp x' y' ∧ CmpLe cmp x' x ∧
      ∀ v, CmpLe cmp v x → CmpLe cmp v y → CmpLe cmp v x' ∧ CmpLe cmp v y' := by
  obtain ⟨hia, rfl⟩ := List.getElem?_eq_some_iff.mp hi
  obtain ⟨hja, rfl⟩ := List.getElem?_eq_some_iff.mp hj
  rw [sortPair_of_lt cmp hia hja]
  by_cases hpos : 0 < cmp a[i] a[j]
  · have hle := hc.le_of_pos hpos
    refine ⟨_, a[j], a[i], by rw [if_pos hpos], PermOn.swap hia hja le_rfl hij.le hij.le le_rfl,
      fun k hki hkj => ?_, ?_, ?_, hle, hle, fun v hvi hvj => ⟨hvj, hvi⟩⟩
    · rw [getElem?_swap hia hja, if_neg hkj, if_neg hki]
    · rw [getElem?_swap hia hja, if_neg (Nat.ne_of_lt hij), if_pos rfl, List.getElem?_eq_getElem hja]
    · rw [getElem?_swap hia hja, if_pos rfl, List.getElem?_eq_getElem hia]
  · refine ⟨a, a[i], a[j], by rw [if_neg hpos], PermOn.refl i j a, fun _ _ _ => rfl,
      List.getElem?_eq_getElem hia, List.getElem?_eq_getElem hja, cmpLe_of_not_pos hpos,
      hc.refl _, fun v hvi hvj => ⟨hvi, hvj⟩⟩

theorem medianOfThree_spec {lo med hi : Nat} (hlm : lo < med) (hmh : med < hi)
    (hh : hi < a.length) :
    ∃ b x y z, medianOfThree cmp a lo med hi = .ok b ∧ PermOn lo hi a b ∧
      b[lo]? = some x ∧ b[med]? = some y ∧ b[hi]? = some z ∧ CmpLe cmp x y ∧ CmpLe cmp y z := by
  obtain ⟨b₁, x₁, y₁, h₁, hp₁, hf₁, hx₁, hy₁, hxy₁, -, -⟩ :=
    sortPair_spec hc (List.getElem?_eq_getElem (by omega : lo < a.length))
      (List.getElem?_eq_getElem (by omega : med < a.length)) hlm
  have hz₁ : b₁[hi]? = some a[hi] := by
    rw [hf₁ hi (by omega) (by omega), List.getElem?_eq_getElem hh]
  obtain ⟨b₂, x₂, z₂, h₂, hp₂, hf₂, hx₂, hz₂, hxz₂, hxx₂, -⟩ := sortPair_spec hc hx₁ hz₁ (by omega)
  have hy₂ : b₂[med]? = some y₁ := by rw [hf₂ med (by omega) (by omega), hy₁]
  obtain ⟨b₃, y₃, z₃, h₃, hp₃, hf₃, hy₃, hz₃, hyz₃, -, hlow₃⟩ := sortPair_spec hc hy₂ hz₂ hmh
  have hx₃ : b₃[lo]? = some x₂ := by rw [hf₃ lo (by omega) (by omega), hx₂]
  have hxy₃ : CmpLe cmp x₂ y₃ := (hlow₃ x₂ (hc.le_trans hxx₂ hxy₁) hxz₂).1
  refine ⟨b₃, x₂, y₃, z₃, ?_, ?_, hx₃, hy₃, hz₃, hxy₃, hyz₃⟩
  · simp only [medianOfThree, h₁, h₂, h₃, ok_bind]
  · exact ((hp₁.mono le_rfl hmh.le).trans hp₂).trans (hp₃.mono hlm.le le_rfl)

theorem maxScan_spec {beg e : Nat} (he : beg + e ≤ a.length) (i max : Nat) (hi : i ≤ e)
    (hmax : beg ≤ max ∧ max < beg + i) {y : α} (hy : a[max]? = some y)
    (hall : AllIn (fun x => CmpLe cmp x y) a beg (beg + i)) :
    ∃ m y', maxScan cmp a beg e i max = .ok m ∧ beg ≤ m ∧ m < beg + e ∧ a[m]? = some y' ∧
      AllIn (fun x => CmpLe cmp x y') a beg (beg + e) := by
  induction i, max using maxScan.induct beg e generalizing y with
  | case1 i max hie ih =>
    have hq : beg + i < a.length := by omega
    obtain ⟨hm, rfl⟩ := List.getElem?_eq_some_iff.mp hy
    have hstep := ih (cmp a[beg + i] a[max]) (by omega)
    rw [maxScan, if_pos hie, compareAt_of_lt cmp hq hm, ok_bind]
    by_cases hpos : 0 < cmp a[beg + i] a[max]
    · have hnew : AllIn (fun x => CmpLe cmp x a[beg + i]) a beg (beg + i + 1) :=
        (hall.imp fun x hx => hc.le_trans hx (hc.le_of_pos hpos)).snoc
          (forall_of_getElem? (List.getElem?_eq_getElem hq) (hc.refl _))
      simp only [dif_pos hpos] at hstep
      simpa only [if_pos hpos] using hstep ⟨by omega, by omega⟩ (List.getElem?_eq_getElem hq) hnew
    · have hnew : AllIn (fun x => CmpLe cmp x a[max]) a beg (beg + i + 1) :=
        hall.snoc (forall_of_getElem? (List.getElem?_eq_getElem hq) (cmpLe_of_not_pos hpos))
      simp only [dif_neg hpos] at hstep
      simpa only [if_neg hpos] using hstep ⟨hmax.1, by omega⟩ (List.getElem?_eq_getElem hm) hnew
  | case2 i max hie =>
    obtain rfl : i = e := by omega
    rw [maxScan, if_neg hie]
    exact ⟨max, y, rfl, hmax.1, hmax.2, hy, hall⟩

/-- small_sort sorts the `e` cells from `beg` in place. -/
theorem smallSort_spec (beg e : Nat) (he : beg + e ≤ a.length) :
    ∃ b, smallSort cmp a beg e = .ok b ∧ PermOn beg (beg + e - 1) a b ∧
      SortedOn (CmpLe cmp) b beg (beg + e) := by
  induction a, e using smallSort.induct with
  | case1 a e ih _ =>
    have hb : beg < a.length := by omega
    obtain ⟨m, y, hm, hbm, hme, hy, hall⟩ := maxScan_spec hc he 1 beg (by omega) ⟨le_rfl, by omega⟩
      (List.getElem?_eq_getElem hb)
      ((AllIn.empty _ a beg).snoc (forall_of_getElem? (List.getElem?_eq_getElem hb) (hc.refl _)))
    -- the maximum is moved to the last cell, which the rest of the sort leaves alone
    obtain ⟨b, hb₁, hpb, hby, hball⟩ : ∃ b, (if beg + (e + 1) ≠ m then swapAt a (beg + (e + 1)) m
        else pure a) = .ok b ∧ PermOn beg (beg + (e + 1)) a b ∧ b[beg + (e + 1)]? = some y ∧
        AllIn (fun x => CmpLe cmp x y) b beg (beg + (e + 2)) := by
      by_cases hpm : beg + (e + 1) ≠ m
      · have hp : beg + (e + 1) < a.length := by omega
        have hma : m < a.length := by omega
        refine ⟨_, by rw [if_pos hpm, swapAt_of_lt hp hma], PermOn.swap hp hma (by omega) le_rfl hbm
          (by omega), ?_, ?_⟩
        · rw [getElem?_swap hp hma, if_neg hpm, if_pos rfl, hy]
        · exact hall.permOn (PermOn.swap hp hma (by omega) le_rfl hbm (by omega)) le_rfl
            (by omega)
      · obtain rfl : beg + (e + 1) = m := not_not.mp hpm
        exact ⟨a, by rw [if_neg hpm]; rfl, PermOn.refl _ _ a, hy, hall⟩
    obtain ⟨d, hd, hpd, hsd⟩ := ih b (by rw [hpb.length_eq]; omega)
    have hdy : d[beg + (e + 1)]? = some y := by rw [hpd.outside _ (.inr (by omega)), hby]
    have hdall : AllIn (fun x => CmpLe cmp x y) d beg (beg + (e + 1)) :=
      (hball.permOn hpd le_rfl (by omega)).mono le_rfl (by omega)
    refine ⟨d, ?_, hpb.trans (hpd.mono le_rfl (by omega)), hsd.snoc hdy hdall⟩
    rw [smallSort, hm, ok_bind]
    by_cases hpm : beg + (e + 1) ≠ m
    · rw [if_pos hpm] at hb₁ ⊢
      rw [hb₁, ok_bind]
      exact hd
    · rw [if_neg hpm] at hb₁ ⊢
      cases hb₁
      exact hd
  | case2 t a ht =>
    have ht1 : t ≤ 1 := by
      rcases t with _ | _ | t
      · omega
      · omega
      · exact absurd rfl (ht t)
    rcases t with _ | _ | t
    · exact ⟨a, rfl, PermOn.refl _ _ a, SortedOn.of_le_succ a (by omega)⟩
    · exact ⟨a, rfl, PermOn.refl _ _ a, SortedOn.of_le_succ a (by omega)⟩
    · omega

end Cells

/-- What holds at the top of quick_sort's `while(1)` over `beg..last` with pivot value `v`: the
cells before `lo` are no later than `v`, those after `hi` no earlier, and `med` holds `v`. -/
structure PartitionInv (a₀ a : List α) (v : α) (beg last lo hi med : Nat) : Prop where
  permOn : PermOn beg last a₀ a
  pivot : a[med]? = some v
  beg_lt_lo : beg < lo
  lo_le_last : lo ≤ last
  beg_le_med : beg ≤ med
  med_le_hi : med ≤ hi
  hi_lt_last : hi < last
  lower : AllIn (fun x => CmpLe cmp x v) a beg lo
  upper : AllIn (fun x => CmpLe cmp v x) a (hi + 1) (last + 1)


section Partition

variable {cmp} (hc : TotalPreorderCmp cmp)
include hc

variable {a : List α} {v : α}

theorem scanLo_spec {hi med : Nat} (hv : a[med]? = some v) (hhi : hi < a.length) (lo : Nat) :
    ∃ lo', scanLo cmp a hi med lo = .ok lo' ∧ lo ≤ lo' ∧ (lo' = lo ∨ lo' ≤ hi + 1) ∧
      AllIn (fun x => CmpLe cmp x v) a lo lo' ∧
      (lo' ≤ hi → lo' ≠ med ∧ ∀ x, a[lo']? = some x → CmpLe cmp v x) := by
  obtain ⟨hma, rfl⟩ := List.getElem?_eq_some_iff.mp hv
  induction lo using scanLo.induct hi med with
  | case1 lo hlo hlm ih =>
    have hla : lo < a.length := by omega
    rw [scanLo, if_pos hlo, if_pos hlm, compareAt_of_lt cmp hla hma, ok_bind]
    by_cases hpos : 0 < cmp a[lo] a[med]
    · rw [if_pos hpos]
      exact ⟨lo, rfl, le_rfl, .inl rfl, AllIn.empty _ a lo, fun _ => ⟨hlm,
        forall_of_getElem? (List.getElem?_eq_getElem hla) (hc.le_of_pos hpos)⟩⟩
    · rw [if_neg hpos]
      obtain ⟨lo', h, h1, h2, hall, hstop⟩ := ih
      exact ⟨lo', h, by omega, .inr (by omega),
        hall.cons (forall_of_getElem? (List.getElem?_eq_getElem hla) (cmpLe_of_not_pos hpos)), hstop⟩
  | case2 lo hlo hlm ih =>
    obtain rfl : lo = med := not_not.mp hlm
    rw [scanLo, if_pos hlo, if_neg hlm]
    obtain ⟨lo', h, h1, h2, hall, hstop⟩ := ih
    exact ⟨lo', h, by omega, .inr (by omega),
      hall.cons (forall_of_getElem? (List.getElem?_eq_getElem hma) (hc.refl _)), hstop⟩
  | case3 lo hlo =>
    rw [scanLo, if_neg hlo]
    exact ⟨lo, rfl, le_rfl, .inl rfl, AllIn.empty _ a lo, fun h => absurd h hlo⟩

theorem scanHi_spec {med : Nat} (hv : a[med]? = some v) (fuel hi : Nat) (hmh : med ≤ hi)
    (hha : hi < a.length) (hfuel : hi - med < fuel) :
    ∃ hi', scanHi cmp a med fuel hi = .ok (some hi') ∧ med ≤ hi' ∧ hi' ≤ hi ∧
      AllIn (fun x => CmpLe cmp v x) a (hi' + 1) (hi + 1) ∧
      ∀ x, a[hi']? = some x → CmpLe cmp x v := by
  obtain ⟨hma, rfl⟩ := List.getElem?_eq_some_iff.mp hv
  induction fuel, hi using scanHi.induct med with
  | case1 hi => omega
  | case2 fuel hi hmh' ih =>
    rw [scanHi, if_pos hmh', compareAt_of_lt cmp hha hma, ok_bind]
    by_cases hle : cmp a[hi] a[med] ≤ 0
    · rw [if_pos hle]
      exact ⟨hi, rfl, hmh, le_rfl, AllIn.empty _ a (hi + 1),
        forall_of_getElem? (List.getElem?_eq_getElem hha) hle⟩
    · rw [if_neg hle]
      obtain ⟨hi', h, h1, h2, hall, hstop⟩ := ih (by omega) (by omega) (by omega)
      have hsucc : hi - 1 + 1 = hi := by omega
      rw [hsucc] at hall
      exact ⟨hi', h, h1, by omega,
        hall.snoc (forall_of_getElem? (List.getElem?_eq_getElem hha) (hc.le_of_pos (by omega))),
        hstop⟩
  | case3 fuel hi hmh' =>
    obtain rfl : med = hi := not_not.mp hmh'
    rw [scanHi, if_neg hmh']
    exact ⟨med, rfl, le_rfl, le_rfl, AllIn.empty _ a (med + 1),
      forall_of_getElem? (List.getElem?_eq_getElem hma) (hc.refl _)⟩

theorem skipEqual_spec {beg med : Nat} (hv : a[med]? = some v) (hi : Nat) (hbh : beg ≤ hi)
    (hha : hi < a.length) :
    ∃ hi', skipEqual cmp a beg med hi = .ok hi' ∧ beg ≤ hi' ∧ hi' ≤ hi ∧
      AllIn (fun x => CmpLe cmp x v ∧ CmpLe cmp v x) a (hi' + 1) (hi + 1) := by
  obtain ⟨hma, rfl⟩ := List.getElem?_eq_some_iff.mp hv
  induction hi using skipEqual.induct beg med with
  | case1 hi hbh' hhm ih =>
    rw [skipEqual, if_pos hbh', if_pos hhm, compareAt_of_lt cmp hha hma, ok_bind]
    by_cases hne : cmp a[hi] a[med] ≠ 0
    · rw [if_pos hne]
      exact ⟨hi, rfl, hbh, le_rfl, AllIn.empty _ a (hi + 1)⟩
    · rw [if_neg hne]
      have hz : cmp a[hi] a[med] = 0 := not_not.mp hne
      obtain ⟨hi', h, h1, h2, hall⟩ := ih (by omega) (by omega)
      have hsucc : hi - 1 + 1 = hi := by omega
      rw [hsucc] at hall
      exact ⟨hi', h, h1, by omega,
        hall.snoc (forall_of_getElem? (List.getElem?_eq_getElem hha) ⟨hz.le, hc.le_of_eq_zero hz⟩)⟩
  | case2 hi hbh' hhm ih =>
    obtain rfl : hi = med := not_not.mp hhm
    rw [skipEqual, if_pos hbh', if_neg hhm]
    obtain ⟨hi', h, h1, h2, hall⟩ := ih (by omega) (by omega)
    have hsucc : hi - 1 + 1 = hi := by omega
    rw [hsucc] at hall
    exact ⟨hi', h, h1, by omega,
      hall.snoc (forall_of_getElem? (List.getElem?_eq_getElem hma) ⟨hc.refl _, hc.refl _⟩)⟩
  | case3 hi hbh' =>
    rw [skipEqual, if_neg hbh']
    exact ⟨hi, rfl, hbh, le_rfl, AllIn.empty _ a (hi + 1)⟩

variable {a₀ : List α} {beg last : Nat}

omit hc in
theorem PartitionInv.exchange {lo hi med lo' hi' : Nat}
    (hinv : PartitionInv cmp a₀ a v beg last lo hi med)
    (hla : lo' < a.length) (hha : hi' < a.length) (hlo : lo ≤ lo') (hlh : lo' ≤ hi')
    (hhi : hi' ≤ hi) (hmh : med ≤ hi') (hlm : lo' ≠ med)
    (hlower : AllIn (fun x => CmpLe cmp x v) a lo lo')
    (hupper : AllIn (fun x => CmpLe cmp v x) a (hi' + 1) (hi + 1))
    (hlx : ∀ x, a[lo']? = some x → CmpLe cmp v x) (hhx : ∀ x, a[hi']? = some x → CmpLe cmp x v) :
    PartitionInv cmp a₀ ((a.set lo' a[hi']).set hi' a[lo']) v beg last (lo' + 1) (hi' - 1)
      (if hi' = med then lo' else med) := by
  have hb := hinv.beg_lt_lo
  have hl := hinv.hi_lt_last
  have hbm := hinv.beg_le_med
  have hswap := getElem?_swap hla hha
  constructor
  · exact hinv.permOn.trans (PermOn.swap hla hha (by omega) (by omega) (by omega) (by omega))
  · by_cases hhm : hi' = med
    · rw [if_pos hhm, hswap, if_neg (by omega), if_pos rfl, hhm, hinv.pivot]
    · rw [if_neg hhm, hswap, if_neg (Ne.symm hhm), if_neg (Ne.symm hlm), hinv.pivot]
  · omega
  · omega
  · split <;> omega
  · split <;> omega
  · omega
  · refine (AllIn.congr (hinv.lower.append hlower) fun p _ hp => ?_).snoc fun x hx => ?_
    · rw [hswap, if_neg (by omega), if_neg (by omega)]
    · rw [hswap] at hx
      by_cases heq : lo' = hi'
      · rw [if_pos heq] at hx
        exact hhx x (heq ▸ hx)
      · rw [if_neg heq, if_pos rfl] at hx
        exact hhx x hx
  · have hsucc : hi' - 1 + 1 = hi' := by omega
    rw [hsucc]
    refine AllIn.cons ?_ fun x hx => ?_
    · exact AllIn.congr (hupper.append hinv.upper) fun p hp _ => by
        rw [hswap, if_neg (by omega), if_neg (by omega)]
    · rw [hswap, if_pos rfl] at hx
      exact hlx x hx

theorem partitionLoop_spec (hlast : last < a₀.length) (fuel : Nat) :
    ∀ a lo hi med, PartitionInv cmp a₀ a v beg last lo hi med →
      last - beg + (last + 1 - lo) ≤ fuel →
      ∃ b lo' hi' med', partitionLoop cmp fuel a lo hi med = .ok (some (b, lo', hi', med')) ∧
        PartitionInv cmp a₀ b v beg last lo' hi' med' ∧ hi' < lo' := by
  induction fuel with
  | zero =>
    intro a lo hi med hinv hfuel
    have := hinv.lo_le_last
    omega
  | succ fuel ih =>
    intro a lo hi med hinv hfuel
    have hlen : a.length = a₀.length := hinv.permOn.length_eq
    have hl := hinv.hi_lt_last
    have hb := hinv.beg_le_med
    have hm := hinv.med_le_hi
    obtain ⟨lo', hlo, hlo1, hlo2, hlower, hstop⟩ :=
      scanLo_spec hc hinv.pivot (by omega : hi < a.length) lo
    obtain ⟨hi', hhi, hhi1, hhi2, hupper, hhx⟩ :=
      scanHi_spec hc hinv.pivot (fuel + 1) hi hm (by omega) (by omega)
    rw [partitionLoop, hlo, ok_bind, hhi, ok_bind]
    dsimp only
    by_cases hcross : hi' < lo'
    · rw [if_pos hcross]
      have := hinv.lo_le_last
      refine ⟨a, lo', hi', med, rfl, ⟨hinv.permOn, hinv.pivot, by omega, by omega, hb, hhi1,
        by omega, hinv.lower.append hlower, hupper.append hinv.upper⟩, hcross⟩
    · rw [if_neg hcross]
      have hla : lo' < a.length := by omega
      have hha : hi' < a.length := by omega
      obtain ⟨hlm, hlx⟩ := hstop (by omega)
      rw [swapAt_of_lt hla hha, ok_bind]
      exact ih _ _ _ _ (hinv.exchange hla hha hlo1 (by omega) hhi2 hhi1 hlm hlower hupper hlx hhx)
        (by omega)

theorem partition_spec {fuel : Nat} (hbl : beg + 8 ≤ last) (hlast : last < a.length)
    (hfuel : 2 * (last - beg) ≤ fuel) :
    ∃ b lo hi v, partition cmp fuel a beg last = .ok (some (b, lo, hi)) ∧ PermOn beg last a b ∧
      beg ≤ hi ∧ hi < lo ∧ lo ≤ last ∧
      ∀ p x, b[p]? = some x → beg ≤ p → p ≤ last →
        (p ≤ hi → CmpLe cmp x v) ∧ (hi < p → p < lo → CmpLe cmp x v ∧ CmpLe cmp v x) ∧
          (lo ≤ p → CmpLe cmp v x) := by
  have hmed : beg < beg + (last - beg + 1) / 2 ∧ beg + (last - beg + 1) / 2 < last := by omega
  obtain ⟨b₁, x, y, z, h₁, hp₁, hx, hy, hz, hxy, hyz⟩ :=
    medianOfThree_spec hc hmed.1 hmed.2 hlast
  have hinv₁ : PartitionInv cmp a b₁ y beg last (beg + 1) (last - 1)
      (beg + (last - beg + 1) / 2) := by
    refine ⟨hp₁, hy, by omega, by omega, by omega, by omega, by omega, ?_, ?_⟩
    · exact (AllIn.empty _ b₁ beg).snoc (forall_of_getElem? hx hxy)
    · have hsucc : last - 1 + 1 = last := by omega
      rw [hsucc]
      exact (AllIn.empty _ b₁ last).snoc (forall_of_getElem? hz hyz)
  obtain ⟨b₂, lo, hi, med, h₂, hinv₂, hcross⟩ :=
    partitionLoop_spec hc hlast fuel b₁ _ _ _ hinv₁ (by omega)
  have hlen : b₂.length = a.length := hinv₂.permOn.length_eq
  have hl := hinv₂.hi_lt_last
  obtain ⟨hi', h₃, hbh, hhh, hequal⟩ :=
    skipEqual_spec hc hinv₂.pivot hi (hinv₂.beg_le_med.trans hinv₂.med_le_hi) (by omega)
  refine ⟨b₂, lo, hi', y, ?_, hinv₂.permOn, hbh, by omega, hinv₂.lo_le_last, ?_⟩
  · simp only [partition, h₁, ok_bind, h₂, h₃]
    rfl
  · intro p x' hx' hbp hpl
    refine ⟨fun hp => hinv₂.lower p x' hbp (by omega) hx', fun hp₁ hp₂ => ?_,
      fun hp => hinv₂.upper p x' (by omega) (by omega) hx'⟩
    by_cases hph : p ≤ hi
    · exact hequal p x' (by omega) (by omega) hx'
    · exact ⟨hinv₂.lower p x' hbp hp₂ hx', hinv₂.upper p x' (by omega) (by omega) hx'⟩

end Partition

end Wine.Msvcrt
