import Wine.Lib.Memory

/-!
# Regions

`struct region` and its queries and mirroring (server/region.c, server/user.h). A region is a
list of rectangles in y-x bands, the order `validate_rectangles` checks: rectangles of one band
share `top` and `bottom` and stand left to right with a gap, and each band lies below the one
before. `point_in_region` and `rect_in_region` scan the list and stop at the first rectangle
past the query; the banding is what makes these early answers right.
-/

namespace Wine.Server

open Mem

set_option autoImplicit false

/-- `struct rectangle`. -/
structure Rect where
  left : Int
  top : Int
  right : Int
  bottom : Int
  deriving DecidableEq, Repr, Inhabited

/-- `struct region`: its `num_rects` rectangles and their extents. -/
structure Region where
  rects : List Rect
  extents : Rect
  deriving DecidableEq, Repr

def isRectEmpty (rect : Rect) : Bool :=
  decide (rect.left ≥ rect.right) || decide (rect.top ≥ rect.bottom)

def pointInRect (rect : Rect) (x y : Int) : Bool :=
  decide (x ≥ rect.left) && decide (x < rect.right) && decide (y ≥ rect.top) &&
    decide (y < rect.bottom)

/-- `intersect_rect`: the intersection, and whether it is not empty. -/
def intersectRect (src1 src2 : Rect) : Rect × Bool :=
  let dst : Rect := ⟨max src1.left src2.left, max src1.top src2.top,
    min src1.right src2.right, min src1.bottom src2.bottom⟩
  (dst, !isRectEmpty dst)

/-- `EXTENTCHECK(r1, r2)`: the rectangles overlap on both axes. -/
def extentCheck (r1 r2 : Rect) : Bool :=
  decide (r1.right > r2.left) && decide (r1.left < r2.right) && decide (r1.bottom > r2.top) &&
    decide (r1.top < r2.bottom)

/-- `validate_rectangles` over the `nb_rects` rectangles. -/
def validateRectangles : List Rect → Bool
  | [] => true
  | [r] => !isRectEmpty r
  | r :: s :: rs =>
    if isRectEmpty r then false
    else if r.top = s.top then
      if r.bottom ≠ s.bottom then false
      else if r.right ≥ s.left then false
      else validateRectangles (s :: rs)
    else if r.bottom > s.top then false
    else validateRectangles (s :: rs)

/-- The loop of `point_in_region` over the rectangles from `ptr` on. -/
def pointInRects (x y : Int) : List Rect → Bool
  | [] => false
  | r :: rs =>
    if r.top > y then false
    else if r.bottom ≤ y then pointInRects x y rs
    else if r.left > x then false
    else if r.right ≤ x then pointInRects x y rs
    else true

def pointInRegion (region : Region) (x y : Int) : Bool := pointInRects x y region.rects

/-- The loop of `rect_in_region` over the rectangles from `ptr` on. -/
def rectInRects (rect : Rect) : List Rect → Bool
  | [] => false
  | r :: rs =>
    if r.top ≥ rect.bottom then false
    else if r.bottom ≤ rect.top then rectInRects rect rs
    else if r.left ≥ rect.right then rectInRects rect rs
    else if r.right ≤ rect.left then rectInRects rect rs
    else true

def rectInRegion (region : Region) (rect : Rect) : Bool := rectInRects rect region.rects

/-- `mirror_rect`: the horizontal edges mirrored in the client width, `x` going to
`width - 1 - x`. It is `int` arithmetic, so a result out of range is undefined. -/
def mirrorRect (clientRect rect : Rect) : Run Rect := do
  let width ← int32 (clientRect.right - clientRect.left)
  let tmp := rect.left
  let left ← int32 (width - rect.right)
  let right ← int32 (width - tmp)
  pure { rect with left := left, right := right }

/-- `mirror_rect(client_rect, &rects[i])`, in place. -/
def mirrorAt (clientRect : Rect) (rects : List Rect) (i : Nat) : Run (List Rect) := do
  let r ← mirrorRect clientRect (← load rects i)
  store rects i r

/-- The loop of `mirror_region` that moves `end` to the last rectangle of its band. -/
def bandEnd (rects : List Rect) : Nat → Nat → Run Nat
  | 0, e => pure e
  | fuel + 1, e =>
    if e + 1 < rects.length then do
      let next ← load rects (e + 1)
      let cur ← load rects e
      if next.top ≠ cur.top then pure e else bandEnd rects fuel (e + 1)
    else pure e

/-- The loop of `mirror_region` that walks `i` up and `j` down a band, exchanging the
rectangles there and mirroring both. -/
def swapLoop (clientRect : Rect) : Nat → List Rect → Nat → Nat → Run (List Rect × Nat × Nat)
  | 0, rects, i, j => pure (rects, i, j)
  | fuel + 1, rects, i, j =>
    if i < j then do
      let rect ← load rects j
      let src ← load rects j
      let rects ← store rects i src
      let rects ← store rects j rect
      let rects ← mirrorAt clientRect rects j
      let rects ← mirrorAt clientRect rects i
      swapLoop clientRect fuel rects (i + 1) (j - 1)
    else pure (rects, i, j)

/-- The loop of `mirror_region` over the bands from `start` on. -/
def bandLoop (clientRect : Rect) : Nat → List Rect → Nat → Run (List Rect)
  | 0, rects, _ => pure rects
  | fuel + 1, rects, start =>
    if start < rects.length then do
      let e ← bandEnd rects rects.length start
      let (rects, i, j) ← swapLoop clientRect rects.length rects start e
      let rects ← if i = j then mirrorAt clientRect rects i else pure rects
      bandLoop clientRect fuel rects (e + 1)
    else pure rects

def mirrorRegion (clientRect : Rect) (region : Region) : Run Region := do
  let rects ← bandLoop clientRect region.rects.length region.rects 0
  let extents ← mirrorRect clientRect region.extents
  pure ⟨rects, extents⟩

/-! ## Rectangles -/

section Rectangles

variable {r s t q : Rect}

@[simp] theorem isRectEmpty_eq_false : isRectEmpty r = false ↔ r.left < r.right ∧ r.top < r.bottom := by
  simp [isRectEmpty]

@[simp] theorem pointInRect_eq_true (x y : Int) :
    pointInRect r x y = true ↔ r.left ≤ x ∧ x < r.right ∧ r.top ≤ y ∧ y < r.bottom := by
  simp [pointInRect, and_assoc]

@[simp] theorem extentCheck_eq_true :
    extentCheck r q = true ↔ q.left < r.right ∧ r.left < q.right ∧ q.top < r.bottom ∧ r.top < q.bottom := by
  simp [extentCheck, and_assoc]

theorem intersectRect_iff (hr : isRectEmpty r = false) (hq : isRectEmpty q = false) :
    (intersectRect r q).2 = true ↔ extentCheck r q = true := by
  rw [isRectEmpty_eq_false] at hr hq
  simp only [intersectRect, Bool.not_eq_true', isRectEmpty_eq_false, extentCheck_eq_true,
    lt_min_iff, max_lt_iff]
  omega

/-- `r` may stand before `s` in a banded region: in the same band and to its left, or with `s`
in a band below. -/
def Before (r s : Rect) : Prop :=
  (r.top = s.top ∧ r.bottom = s.bottom ∧ r.right < s.left) ∨ (r.top ≠ s.top ∧ r.bottom ≤ s.top)

theorem Before.top_le (hr : isRectEmpty r = false) (h : Before r s) : r.top ≤ s.top := by
  rw [isRectEmpty_eq_false] at hr
  rcases h with ⟨h₁, -, -⟩ | ⟨-, h₂⟩ <;> omega

theorem Before.trans (hr : isRectEmpty r = false) (hs : isRectEmpty s = false) (h₁ : Before r s)
    (h₂ : Before s t) : Before r t := by
  rw [isRectEmpty_eq_false] at hr hs
  unfold Before at *
  omega

theorem Before.irrefl (hr : isRectEmpty r = false) : ¬ Before r r := by
  rw [isRectEmpty_eq_false] at hr
  unfold Before
  omega

end Rectangles

/-! ## The banding -/

/-- The order `validate_rectangles` checks between neighbours, holding between all pairs. -/
structure Banded (rects : List Rect) : Prop where
  nonempty : ∀ r ∈ rects, isRectEmpty r = false
  sorted : rects.Pairwise Before

section Banding

variable {r s : Rect} {rs : List Rect}

theorem Banded.cons (h : Banded (r :: rs)) :
    isRectEmpty r = false ∧ (∀ s ∈ rs, Before r s) ∧ Banded rs := by
  obtain ⟨hne, hsorted⟩ := h
  rw [List.pairwise_cons] at hsorted
  exact ⟨hne r List.mem_cons_self, hsorted.1,
    ⟨fun s hs => hne s (List.mem_cons_of_mem r hs), hsorted.2⟩⟩

theorem banded_cons_cons :
    Banded (r :: s :: rs) ↔ isRectEmpty r = false ∧ Before r s ∧ Banded (s :: rs) := by
  constructor
  · intro h
    obtain ⟨hr, hafter, hrest⟩ := h.cons
    exact ⟨hr, hafter s List.mem_cons_self, hrest⟩
  · rintro ⟨hr, hrs, hrest⟩
    obtain ⟨hs, hafter, -⟩ := hrest.cons
    refine ⟨List.forall_mem_cons.mpr ⟨hr, hrest.nonempty⟩,
      List.Pairwise.cons (fun t ht => ?_) hrest.sorted⟩
    · rcases List.mem_cons.mp ht with rfl | ht
      · exact hrs
      · exact hrs.trans hr hs (hafter t ht)

theorem validateRectangles_cons_cons :
    validateRectangles (r :: s :: rs) = true ↔
      isRectEmpty r = false ∧ Before r s ∧ validateRectangles (s :: rs) = true := by
  rw [validateRectangles, Before]
  cases he : isRectEmpty r
  · simp only [Bool.false_eq_true, if_false, true_and]
    split_ifs with ht hb hx hy
    · simp only [false_iff]
      omega
    · simp only [false_iff]
      omega
    · exact ⟨fun h => ⟨by omega, h⟩, And.right⟩
    · simp only [false_iff]
      omega
    · exact ⟨fun h => ⟨by omega, h⟩, And.right⟩
  · simp

theorem validateRectangles_iff : ∀ rects : List Rect, validateRectangles rects = true ↔ Banded rects
  | [] => ⟨fun _ => ⟨fun _ h => (nomatch h), List.Pairwise.nil⟩, fun _ => rfl⟩
  | [r] => by
    refine ⟨fun h => ⟨fun t ht => ?_, List.pairwise_singleton _ r⟩, fun h => ?_⟩
    · rw [List.mem_singleton.mp ht]
      simpa [validateRectangles] using h
    · simpa [validateRectangles] using h.nonempty r List.mem_cons_self
  | r :: s :: rs => by
    rw [validateRectangles_cons_cons, banded_cons_cons, validateRectangles_iff (s :: rs)]

theorem Banded.nodup {rects : List Rect} (h : Banded rects) : rects.Nodup := by
  refine List.Pairwise.imp_of_mem (fun {a b} ha _ hab => ?_) h.sorted
  rintro rfl
  exact Before.irrefl (h.nonempty a ha) hab

end Banding

/-! ## `point_in_region` and `rect_in_region` -/

section Queries

variable {rects : List Rect}

theorem pointInRects_iff (h : Banded rects) (x y : Int) :
    pointInRects x y rects = true ↔ ∃ r ∈ rects, pointInRect r x y = true := by
  induction rects with
  | nil => simp [pointInRects]
  | cons r rs ih =>
    obtain ⟨hr, hafter, hrs⟩ := h.cons
    have hr' := isRectEmpty_eq_false.mp hr
    rw [List.exists_mem_cons_iff, pointInRects]
    by_cases h₁ : r.top > y
    · rw [if_pos h₁]
      simp only [Bool.false_eq_true, false_iff, not_or, not_exists, not_and, pointInRect_eq_true]
      refine ⟨by omega, fun s hs => ?_⟩
      have := (hafter s hs).top_le hr
      omega
    rw [if_neg h₁]
    by_cases h₂ : r.bottom ≤ y
    · rw [if_pos h₂, ih hrs, or_iff_right (by rw [pointInRect_eq_true]; omega)]
    rw [if_neg h₂]
    by_cases h₃ : r.left > x
    · rw [if_pos h₃]
      simp only [Bool.false_eq_true, false_iff, not_or, not_exists, not_and, pointInRect_eq_true]
      refine ⟨by omega, fun s hs => ?_⟩
      have := hafter s hs
      unfold Before at this
      omega
    rw [if_neg h₃]
    by_cases h₄ : r.right ≤ x
    · rw [if_pos h₄, ih hrs, or_iff_right (by rw [pointInRect_eq_true]; omega)]
    · rw [if_neg h₄]
      simp only [pointInRect_eq_true, true_iff]
      left
      omega

theorem rectInRects_iff (h : Banded rects) (q : Rect) :
    rectInRects q rects = true ↔ ∃ r ∈ rects, extentCheck r q = true := by
  induction rects with
  | nil => simp [rectInRects]
  | cons r rs ih =>
    obtain ⟨hr, hafter, hrs⟩ := h.cons
    rw [List.exists_mem_cons_iff, rectInRects]
    by_cases h₁ : r.top ≥ q.bottom
    · rw [if_pos h₁]
      simp only [Bool.false_eq_true, false_iff, not_or, not_exists, not_and, extentCheck_eq_true]
      refine ⟨by omega, fun s hs => ?_⟩
      have := (hafter s hs).top_le hr
      omega
    rw [if_neg h₁]
    by_cases h₂ : r.bottom ≤ q.top
    · rw [if_pos h₂, ih hrs, or_iff_right (by rw [extentCheck_eq_true]; omega)]
    rw [if_neg h₂]
    by_cases h₃ : r.left ≥ q.right
    · rw [if_pos h₃, ih hrs, or_iff_right (by rw [extentCheck_eq_true]; omega)]
    rw [if_neg h₃]
    by_cases h₄ : r.right ≤ q.left
    · rw [if_pos h₄, ih hrs, or_iff_right (by rw [extentCheck_eq_true]; omega)]
    · rw [if_neg h₄]
      simp only [extentCheck_eq_true, true_iff]
      left
      omega

/-- On a region `validate_rectangles` accepts, `point_in_region` finds exactly the points of its
rectangles, and `rect_in_region` finds exactly the rectangles that some rectangle of it overlaps on
both axes; for a non-empty query that is a non-empty intersection. -/
theorem regionQueries_spec (region : Region) (hv : validateRectangles region.rects = true) :
    (∀ x y, pointInRegion region x y = true ↔ ∃ r ∈ region.rects, pointInRect r x y = true) ∧
    (∀ q, rectInRegion region q = true ↔ ∃ r ∈ region.rects, extentCheck r q = true) ∧
    (∀ q, isRectEmpty q = false →
      (rectInRegion region q = true ↔ ∃ r ∈ region.rects, (intersectRect r q).2 = true)) := by
  have hb := (validateRectangles_iff _).mp hv
  refine ⟨pointInRects_iff hb, rectInRects_iff hb, fun q hq => ?_⟩
  rw [rectInRegion, rectInRects_iff hb]
  exact exists_congr fun r =>
    and_congr_right fun hr => (intersectRect_iff (hb.nonempty r hr) hq).symm

theorem regionQueries_spec_two_bands :
    validateRectangles [⟨0, 0, 2, 1⟩, ⟨3, 0, 5, 1⟩, ⟨1, 1, 4, 3⟩] = true ∧
    (∀ x y, pointInRegion ⟨[⟨0, 0, 2, 1⟩, ⟨3, 0, 5, 1⟩, ⟨1, 1, 4, 3⟩], ⟨0, 0, 5, 3⟩⟩ x y = true ↔
      ∃ r ∈ [(⟨0, 0, 2, 1⟩ : Rect), ⟨3, 0, 5, 1⟩, ⟨1, 1, 4, 3⟩], pointInRect r x y = true) ∧
    (∀ q, rectInRegion ⟨[⟨0, 0, 2, 1⟩, ⟨3, 0, 5, 1⟩, ⟨1, 1, 4, 3⟩], ⟨0, 0, 5, 3⟩⟩ q = true ↔
      ∃ r ∈ [(⟨0, 0, 2, 1⟩ : Rect), ⟨3, 0, 5, 1⟩, ⟨1, 1, 4, 3⟩], extentCheck r q = true) ∧
    (∀ q, isRectEmpty q = false →
      (rectInRegion ⟨[⟨0, 0, 2, 1⟩, ⟨3, 0, 5, 1⟩, ⟨1, 1, 4, 3⟩], ⟨0, 0, 5, 3⟩⟩ q = true ↔
        ∃ r ∈ [(⟨0, 0, 2, 1⟩ : Rect), ⟨3, 0, 5, 1⟩, ⟨1, 1, 4, 3⟩], (intersectRect r q).2 = true)) :=
  ⟨by decide, regionQueries_spec ⟨[⟨0, 0, 2, 1⟩, ⟨3, 0, 5, 1⟩, ⟨1, 1, 4, 3⟩], ⟨0, 0, 5, 3⟩⟩ (by decide)⟩

/-- An empty query inside a rectangle of the region is reported as in it, though its
intersection with every rectangle is empty. -/
theorem rectInRegion_empty_query :
    validateRectangles [⟨0, 0, 10, 10⟩] = true ∧
      rectInRegion ⟨[⟨0, 0, 10, 10⟩], ⟨0, 0, 10, 10⟩⟩ ⟨2, 5, 3, 5⟩ = true ∧
      ¬ ∃ r ∈ [(⟨0, 0, 10, 10⟩ : Rect)], (intersectRect r ⟨2, 5, 3, 5⟩).2 = true := by
  decide

end Queries

/-! ## `mirror_region` -/

section Mirror

variable {clientRect : Rect}

theorem bandEnd_ge (rects : List Rect) : ∀ (fuel e : Nat), Ensures (bandEnd rects fuel e) (e ≤ ·)
  | 0, e => Ensures.pure (le_refl e)
  | fuel + 1, e => by
    rw [bandEnd]
    split
    · refine Ensures.bind_of_forall fun next => Ensures.bind_of_forall fun cur => ?_
      split
      · exact Ensures.pure (le_refl e)
      · exact (bandEnd_ge rects fuel (e + 1)).mono fun e' he' => by omega
    · exact Ensures.pure (le_refl e)

theorem mirrorAt_eq_ok {rects D : List Rect} {i : Nat} :
    mirrorAt clientRect rects i = .ok D ↔
      ∃ a m, rects[i]? = some a ∧ mirrorRect clientRect a = .ok m ∧ rects.set i m = D := by
  constructor
  · intro h
    obtain ⟨a, ha, h₁⟩ := bind_eq_ok.mp h
    obtain ⟨m, hm, h₂⟩ := bind_eq_ok.mp h₁
    obtain ⟨hi, rfl⟩ := load_eq_ok.mp ha
    exact ⟨_, m, List.getElem?_eq_getElem hi, hm, (store_eq_ok.mp h₂).2⟩
  · rintro ⟨a, m, ha, hm, rfl⟩
    obtain ⟨hi, rfl⟩ := List.getElem?_eq_some_iff.mp ha
    rw [mirrorAt, load_of_lt hi, ok_bind, hm, ok_bind, store_of_lt hi]

theorem mirrorAt_frame (rects : List Rect) (i : Nat) :
    Ensures (mirrorAt clientRect rects i) fun D =>
      D.length = rects.length ∧ ∀ k, k ≠ i → D[k]? = rects[k]? := by
  intro D h
  obtain ⟨a, m, -, -, rfl⟩ := mirrorAt_eq_ok.mp h
  exact ⟨List.length_set, fun k hk => List.getElem?_set_ne (Ne.symm hk)⟩

theorem swapLoop_step {fuel : Nat} {rects : List Rect} {i j : Nat} {res : List Rect × Nat × Nat}
    (hij : i < j) (h : swapLoop clientRect (fuel + 1) rects i j = .ok res) :
    ∃ a m, rects[j]? = some a ∧ i < rects.length ∧ mirrorRect clientRect a = .ok m ∧
      swapLoop clientRect fuel ((rects.set i m).set j m) (i + 1) (j - 1) = .ok res := by
  rw [swapLoop, if_pos hij] at h
  obtain ⟨rect, hrect, h₁⟩ := bind_eq_ok.mp h
  obtain ⟨src, hsrc, h₂⟩ := bind_eq_ok.mp h₁
  obtain ⟨R₁, hR₁, h₃⟩ := bind_eq_ok.mp h₂
  obtain ⟨R₂, hR₂, h₄⟩ := bind_eq_ok.mp h₃
  obtain ⟨R₃, hR₃, h₅⟩ := bind_eq_ok.mp h₄
  obtain ⟨R₄, hR₄, h₆⟩ := bind_eq_ok.mp h₅
  clear h h₁ h₂ h₃ h₄ h₅
  obtain ⟨hj, e₁⟩ := load_eq_ok.mp hrect
  obtain ⟨hj', e₂⟩ := load_eq_ok.mp hsrc
  obtain ⟨hi, e₃⟩ := store_eq_ok.mp hR₁
  obtain ⟨-, e₄⟩ := store_eq_ok.mp hR₂
  subst e₁ e₂ e₃ e₄
  obtain ⟨a₃, rj, ha₃, hrj, rfl⟩ := mirrorAt_eq_ok.mp hR₃
  obtain ⟨a₄, ri, ha₄, hri, rfl⟩ := mirrorAt_eq_ok.mp hR₄
  have hne : i ≠ j := by omega
  rw [List.getElem?_set_self (by simpa using hj)] at ha₃
  rw [List.getElem?_set_ne hne.symm, List.getElem?_set_ne hne.symm,
    List.getElem?_set_self hi] at ha₄
  obtain rfl := Option.some.inj ha₃
  obtain rfl := Option.some.inj ha₄
  obtain rfl : ri = rj := Except.ok.inj (hri.symm.trans hrj)
  refine ⟨rects[j], ri, List.getElem?_eq_getElem hj, hi, hri, ?_⟩
  rw [List.set_set, List.set_comm ri ri hne.symm, List.set_set] at h₆
  exact h₆

theorem swapLoop_frame : ∀ (fuel : Nat) (rects : List Rect) (i j : Nat),
    Ensures (swapLoop clientRect fuel rects i j) fun res =>
      res.1.length = rects.length ∧ i ≤ res.2.1 ∧ res.2.2 ≤ j ∧
        ∀ k, k < i ∨ j < k → res.1[k]? = rects[k]? := by
  intro fuel
  induction fuel with
  | zero =>
    intro rects i j res h
    obtain rfl := Except.ok.inj h
    exact ⟨rfl, le_refl i, le_refl j, fun _ _ => rfl⟩
  | succ fuel ih =>
    intro rects i j res h
    by_cases hij : i < j
    · obtain ⟨a, m, -, -, -, hrec⟩ := swapLoop_step hij h
      obtain ⟨hlen, hi, hj, hframe⟩ := ih _ _ _ res hrec
      refine ⟨by rw [hlen, List.length_set, List.length_set], by omega, by omega, fun k hk => ?_⟩
      rw [hframe k (by omega), List.getElem?_set_ne (by omega), List.getElem?_set_ne (by omega)]
    · rw [swapLoop, if_neg hij] at h
      obtain rfl := Except.ok.inj h
      exact ⟨rfl, le_refl i, le_refl j, fun _ _ => rfl⟩

theorem bandLoop_frame : ∀ (fuel : Nat) (rects : List Rect) (start : Nat),
    Ensures (bandLoop clientRect fuel rects start) fun C =>
      C.length = rects.length ∧ ∀ k < start, C[k]? = rects[k]? := by
  intro fuel
  induction fuel with
  | zero =>
    intro rects start C h
    obtain rfl := Except.ok.inj h
    exact ⟨rfl, fun _ _ => rfl⟩
  | succ fuel ih =>
    intro rects start C h
    rw [bandLoop] at h
    split at h
    · obtain ⟨e, he, h⟩ := bind_eq_ok.mp h
      obtain ⟨⟨C₁, i, j⟩, hswap, h⟩ := bind_eq_ok.mp h
      dsimp only at h
      have hse := bandEnd_ge rects rects.length start e he
      obtain ⟨hlen₁, hi, -, hframe₁⟩ := swapLoop_frame _ _ _ _ _ hswap
      dsimp only at hlen₁ hi hframe₁
      obtain ⟨D, hmid', h⟩ : ∃ D, (D.length = C₁.length ∧ ∀ k < start, D[k]? = C₁[k]?) ∧
          bandLoop clientRect fuel D (e + 1) = .ok C := by
        split at h
        · obtain ⟨D, hmid, h⟩ := bind_eq_ok.mp h
          obtain ⟨hl, hk⟩ := mirrorAt_frame C₁ i D hmid
          exact ⟨D, ⟨hl, fun k hk' => hk k (by omega)⟩, h⟩
        · exact ⟨C₁, ⟨rfl, fun _ _ => rfl⟩, h⟩
      obtain ⟨hlen₂, hframe₂⟩ := ih D (e + 1) C h
      refine ⟨by rw [hlen₂, hmid'.1, hlen₁], fun k hk => ?_⟩
      rw [hframe₂ k (by omega), hmid'.2 k hk, hframe₁ k (Or.inl hk)]
    · obtain rfl := Except.ok.inj h
      exact ⟨rfl, fun _ _ => rfl⟩

/-- When the first band of a region holds two rectangles or more, `mirror_region` puts the
mirror of the band's last rectangle at both its first and its last place, so the region it
returns holds a rectangle twice, and `validate_rectangles` rejects it. -/
theorem mirrorRegion_band_invalid {region region' : Region} {r s : Rect} {rs : List Rect}
    (hrects : region.rects = r :: s :: rs) (htop : s.top = r.top)
    (hok : mirrorRegion clientRect region = .ok region') :
    validateRectangles region'.rects = false := by
  obtain ⟨R, ext₀⟩ := region
  dsimp only at hrects
  subst hrects
  obtain ⟨C, hloop, h⟩ := bind_eq_ok.mp hok
  obtain ⟨ext, -, h⟩ := bind_eq_ok.mp h
  obtain rfl := Except.ok.inj h
  dsimp only at hloop ⊢
  rw [List.length_cons, bandLoop, if_pos (by simp)] at hloop
  obtain ⟨e, he, hloop⟩ := bind_eq_ok.mp hloop
  obtain ⟨⟨C₁, i, j⟩, hswap, hloop⟩ := bind_eq_ok.mp hloop
  dsimp only at hloop
  have he₁ : 1 ≤ e := by
    have hl₁ : load (r :: s :: rs) 1 = .ok s := load_of_lt (by simp)
    have hl₀ : load (r :: s :: rs) 0 = .ok r := load_of_lt (by simp)
    rw [List.length_cons, bandEnd, if_pos (by simp)] at he
    simp only [hl₁, hl₀, ok_bind, htop, ne_eq, not_true_eq_false, if_false] at he
    exact bandEnd_ge _ _ _ e he
  -- its first exchange leaves the same mirrored rectangle at `0` and at `e`, and the rest of the
  -- band's loop works strictly between them
  rw [List.length_cons] at hswap
  obtain ⟨a, m, ha, -, -, hrec⟩ := swapLoop_step (by omega : 0 < e) hswap
  have he_lt : e < (r :: s :: rs).length := (List.getElem?_eq_some_iff.mp ha).1
  obtain ⟨-, hi₁, hj₁, hframe₁⟩ := swapLoop_frame _ _ _ _ _ hrec
  dsimp only at hi₁ hj₁ hframe₁
  have hC₁ : C₁[0]? = some m ∧ C₁[e]? = some m := by
    rw [hframe₁ 0 (by omega), hframe₁ e (by omega), List.getElem?_set_ne (by omega),
      List.getElem?_set_self (by simp), List.getElem?_set_self (by simpa using he_lt)]
    exact ⟨rfl, rfl⟩
  obtain ⟨D, hD, hloop⟩ : ∃ D, (D[0]? = some m ∧ D[e]? = some m) ∧
      bandLoop clientRect (s :: rs).length D (e + 1) = .ok C := by
    split at hloop
    · next hij =>
      obtain ⟨D, hmid, hloop'⟩ := bind_eq_ok.mp hloop
      obtain ⟨-, hk⟩ := mirrorAt_frame C₁ i D hmid
      exact ⟨D, ⟨(hk 0 (by omega)).trans hC₁.1, (hk e (by omega)).trans hC₁.2⟩, hloop'⟩
    · exact ⟨C₁, hC₁, hloop⟩
  obtain ⟨hlen, hframe⟩ := bandLoop_frame _ _ _ C hloop
  have hC0 : C[0]? = some m := by rw [hframe 0 (by omega)]; exact hD.1
  have hCe : C[e]? = some m := by rw [hframe e (by omega)]; exact hD.2
  -- a banded region holds no rectangle twice
  by_contra hv
  have hb := (validateRectangles_iff C).mp (by simpa using hv)
  have h0 : 0 < C.length := (List.getElem?_eq_some_iff.mp hC0).1
  have := (List.getElem?_inj h0 hb.nodup).mp (hC0.trans hCe.symm)
  omega

/-- A band of two: both places get the mirror of the right rectangle, the left one is lost, and
its mirrored points are not in the result. -/
theorem mirrorRegion_band_invalid_two_rects :
    [(⟨0, 0, 1, 1⟩ : Rect), ⟨2, 0, 3, 1⟩] = ⟨0, 0, 1, 1⟩ :: ⟨2, 0, 3, 1⟩ :: [] ∧
      (⟨2, 0, 3, 1⟩ : Rect).top = (⟨0, 0, 1, 1⟩ : Rect).top ∧
      mirrorRegion ⟨0, 0, 10, 10⟩ ⟨[⟨0, 0, 1, 1⟩, ⟨2, 0, 3, 1⟩], ⟨0, 0, 3, 1⟩⟩ =
        .ok ⟨[⟨7, 0, 8, 1⟩, ⟨7, 0, 8, 1⟩], ⟨7, 0, 10, 1⟩⟩ ∧
      validateRectangles [⟨7, 0, 8, 1⟩, ⟨7, 0, 8, 1⟩] = false ∧
      pointInRegion ⟨[⟨0, 0, 1, 1⟩, ⟨2, 0, 3, 1⟩], ⟨0, 0, 3, 1⟩⟩ 0 0 = true ∧
      pointInRegion ⟨[⟨7, 0, 8, 1⟩, ⟨7, 0, 8, 1⟩], ⟨7, 0, 10, 1⟩⟩ 9 0 = false :=
  have hok : mirrorRegion ⟨0, 0, 10, 10⟩ ⟨[⟨0, 0, 1, 1⟩, ⟨2, 0, 3, 1⟩], ⟨0, 0, 3, 1⟩⟩ =
      .ok ⟨[⟨7, 0, 8, 1⟩, ⟨7, 0, 8, 1⟩], ⟨7, 0, 10, 1⟩⟩ := rfl
  ⟨rfl, rfl, hok, @mirrorRegion_band_invalid ⟨0, 0, 10, 10⟩ _ _ ⟨0, 0, 1, 1⟩ ⟨2, 0, 3, 1⟩ []
    rfl rfl hok, by decide, by decide⟩

end Mirror

end Wine.Server
