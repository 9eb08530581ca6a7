import Mathlib
import Wine.Lib.IntervalList

/-!
# Reserved areas (`dlls/ntdll/unix/virtual.c`)

`reserved_areas` is the list of address ranges ntdll keeps reserved for Windows allocations, in
increasing order. `mmap_add_reserved_area` merges a range in and `mmap_remove_reserved_area` cuts
one out; both first shorten by one byte a range whose end wraps to address 0, and
`mmap_is_in_reserved_area` tells whether a range lies in one area. Pointers are 64-bit, so
`(char *)p + n` is `(p + n) % 2^64`, and `SIZE_T` arithmetic is modular too. The list is a list
of areas, and `malloc` is assumed to succeed.
-/

namespace Wine.Ntdll.ReservedAreas

open IntervalList

set_option autoImplicit false

/-! ## The code -/

/-- `struct reserved_area`. -/
structure ReservedArea where
  base : Nat
  size : Nat
deriving DecidableEq, Repr

/-- `(char *)p + n` on a 64-bit host. -/
def ptrAdd (p n : Nat) : Nat := (p + n) % 2 ^ 64

/-- `if (!((intptr_t)addr + size)) size--;  /* avoid wrap-around */` -/
def avoidWrap (addr size : Nat) : Nat :=
  if ptrAdd addr size = 0 then (size + (2 ^ 64 - 1)) % 2 ^ 64 else size

/-- The loop of `mmap_add_reserved_area` over the areas after the one being extended: the new
`end`, and the areas left once the merged ones are removed. -/
def mergeNext (e : Nat) : List ReservedArea → Nat × List ReservedArea
  | [] => (e, [])
  | next :: rest =>
    if next.base > e then (e, next :: rest)
    else if ptrAdd next.base next.size ≥ e then (ptrAdd next.base next.size, rest)
    else mergeNext e rest

/-- `LIST_FOR_EACH( ptr, &reserved_areas )` in `mmap_add_reserved_area`, from an area on, for
the range `[addr, end)` of `size` bytes; past the loop the range is added before `ptr`. -/
def addLoop (addr size e : Nat) : List ReservedArea → List ReservedArea
  | [] => [⟨addr, size⟩]
  | area :: rest =>
    let areaEnd := ptrAdd area.base area.size
    if area.base > e then ⟨addr, size⟩ :: area :: rest
    else if areaEnd < addr then area :: addLoop addr size e rest
    else
      let area := if area.base > addr then ⟨addr, (area.size + (area.base - addr)) % 2 ^ 64⟩ else area
      if areaEnd ≥ e then area :: rest
      else
        -- try to merge with the following ones
        let merged := mergeNext e rest
        ⟨area.base, (merged.1 + 2 ^ 64 - area.base) % 2 ^ 64⟩ :: merged.2

/-- `mmap_add_reserved_area( addr, size )` -/
def mmapAddReservedArea (areas : List ReservedArea) (addr size : Nat) : List ReservedArea :=
  let size := avoidWrap addr size
  addLoop addr size (ptrAdd addr size) areas

/-- The loop of `mmap_remove_reserved_area` from the first area on, for the range `[addr, end)`. -/
def removeLoop (addr e : Nat) : List ReservedArea → List ReservedArea
  | [] => []
  | area :: rest =>
    let areaEnd := ptrAdd area.base area.size
    if area.base ≥ e then area :: rest
    else if areaEnd > addr then
      if area.base ≥ addr then
        -- range overlaps beginning of area only -> shrink area
        if areaEnd > e then ⟨e, (area.size + 2 ^ 64 - (e - area.base)) % 2 ^ 64⟩ :: rest
        -- range contains the whole area -> remove area completely
        else removeLoop addr e rest
      else
        -- range is in the middle of area -> split area in two
        if areaEnd > e then ⟨area.base, addr - area.base⟩ :: ⟨e, areaEnd - e⟩ :: rest
        -- range overlaps end of area only -> shrink area
        else ⟨area.base, addr - area.base⟩ :: removeLoop addr e rest
    else area :: removeLoop addr e rest

/-- `mmap_remove_reserved_area( addr, size )` -/
def mmapRemoveReservedArea (areas : List ReservedArea) (addr size : Nat) : List ReservedArea :=
  removeLoop addr (ptrAdd addr (avoidWrap addr size)) areas

/-- `mmap_is_in_reserved_area( addr, size )` -/
def mmapIsInReservedArea (areas : List ReservedArea) (addr size : Nat) : Int :=
  match areas with
  | [] => 0
  | area :: rest =>
    if area.base > addr then 0
    else if ptrAdd area.base area.size ≤ addr then mmapIsInReservedArea rest addr size
    -- area must contain block completely
    else if ptrAdd area.base area.size < ptrAdd addr size then -1
    else 1

example : mmapAddReservedArea [⟨0x10000, 0x10000⟩, ⟨0x30000, 0x1000⟩] 0x20000 0x10000 =
    [⟨0x10000, 0x21000⟩] := by decide

example : mmapRemoveReservedArea [⟨0x10000, 0x21000⟩] 0x20000 0x1000 =
    [⟨0x10000, 0x10000⟩, ⟨0x21000, 0x10000⟩] := by decide

/-! ## What the areas hold -/

/-- The end of an area, `(char *)area->base + area->size` when that does not wrap. -/
def ReservedArea.areaEnd (a : ReservedArea) : Nat := a.base + a.size

/-- Sorted, non-empty areas with a gap between neighbours, none reaching the top of the
address space. -/
def Valid (areas : List ReservedArea) : Prop :=
  Gapped ReservedArea.base ReservedArea.areaEnd areas ∧ ∀ a ∈ areas, a.areaEnd < 2 ^ 64

theorem valid_nil : Valid [] := ⟨gapped_nil, fun _ h => (nomatch h)⟩

theorem Valid.tail {a : ReservedArea} {rest : List ReservedArea} (hv : Valid (a :: rest)) :
    Valid rest :=
  ⟨hv.1.tail, fun b hb => hv.2 b (List.mem_cons_of_mem a hb)⟩

theorem valid_cons {a : ReservedArea} {rest : List ReservedArea} :
    Valid (a :: rest) ↔ a.base < a.areaEnd ∧ (∀ b ∈ rest, a.areaEnd < b.base) ∧
      a.areaEnd < 2 ^ 64 ∧ Valid rest := by
  rw [Valid, Valid, gapped_cons, List.forall_mem_cons]
  constructor
  · rintro ⟨⟨h₁, h₂, h₃⟩, h₄, h₅⟩
    exact ⟨h₁, h₂, h₄, h₃, h₅⟩
  · rintro ⟨h₁, h₂, h₄, h₃, h₅⟩
    exact ⟨⟨h₁, h₂, h₃⟩, h₄, h₅⟩

/-- The end of the range that `mmap_add_reserved_area` and `mmap_remove_reserved_area` work on:
one byte short of the top when the range ends there. -/
def wrapEnd (addr size : Nat) : Nat :=
  if (addr + size) % 2 ^ 64 = 0 then 2 ^ 64 - 1 else addr + size

theorem ptrAdd_of_lt {p n : Nat} (h : p + n < 2 ^ 64) : ptrAdd p n = p + n := Nat.mod_eq_of_lt h

theorem ptrAdd_areaEnd {a : ReservedArea} (h : a.areaEnd < 2 ^ 64) : ptrAdd a.base a.size = a.areaEnd :=
  ptrAdd_of_lt h

@[simp] theorem areaEnd_mk_sub {b t : Nat} (h : b ≤ t) : (⟨b, t - b⟩ : ReservedArea).areaEnd = t :=
  Nat.add_sub_cancel' h

theorem ptrAdd_avoidWrap {addr size : Nat} (haddr : addr < 2 ^ 64) (hfit : addr + size ≤ 2 ^ 64) :
    ptrAdd addr (avoidWrap addr size) = wrapEnd addr size ∧
      addr + avoidWrap addr size = wrapEnd addr size := by
  unfold avoidWrap wrapEnd ptrAdd
  by_cases h : (addr + size) % 2 ^ 64 = 0
  · rw [if_pos h, if_pos h]
    rcases Nat.eq_or_lt_of_le hfit with htop | hlt
    · have hs : size ≠ 0 ∨ addr ≠ 0 := by omega
      constructor <;> omega
    · have h0 : addr + size = 0 := by
        rw [Nat.mod_eq_of_lt hlt] at h
        exact h
      constructor <;> omega
  · rw [if_neg h, if_neg h]
    have hlt : addr + size < 2 ^ 64 := by
      rcases Nat.eq_or_lt_of_le hfit with htop | hlt
      · rw [htop, Nat.mod_self] at h
        exact absurd rfl h
      · exact hlt
    exact ⟨Nat.mod_eq_of_lt hlt, rfl⟩

/-! ## Adding a range -/

section Add

variable {s : Nat}

/-- The merge from a lower bound `s` of the areas that meet `[s, e)`: the new end is at least
`e`, below the top, the areas kept are a suffix and start past it, and the merged area with
them covers what `[s, e)` and the areas did. -/
theorem mergeNext_spec : ∀ (rest : List ReservedArea) (e : Nat), s ≤ e → e < 2 ^ 64 →
    (∀ a ∈ rest, s ≤ a.base) → Valid rest →
    e ≤ (mergeNext e rest).1 ∧ (mergeNext e rest).1 < 2 ^ 64 ∧
      (∃ pre, rest = pre ++ (mergeNext e rest).2) ∧
      (∀ a ∈ (mergeNext e rest).2, (mergeNext e rest).1 < a.base) ∧
      ∀ x, (s ≤ x ∧ x < (mergeNext e rest).1) ∨
          Covered ReservedArea.base ReservedArea.areaEnd (mergeNext e rest).2 x ↔
        (s ≤ x ∧ x < e) ∨ Covered ReservedArea.base ReservedArea.areaEnd rest x
  | [], e, _, he, _, _ => by
    rw [mergeNext]
    exact ⟨(Nat.le_refl _), he, ⟨[], rfl⟩, fun _ h => (nomatch h), fun _ => Iff.rfl⟩
  | next :: rest, e, hse, he, hlow, hv => by
    have hnext := (gapped_cons.mp hv.1).1
    have hend : ptrAdd next.base next.size = next.areaEnd := ptrAdd_areaEnd (hv.2 next List.mem_cons_self)
    have hs := hlow next List.mem_cons_self
    rw [mergeNext]
    by_cases hbr : next.base > e
    · rw [if_pos hbr]
      refine ⟨(Nat.le_refl _), he, ⟨[], rfl⟩, fun a ha => ?_, fun _ => Iff.rfl⟩
      rcases List.mem_cons.mp ha with rfl | ha
      · exact hbr
      · have := hv.1.hi_lt_lo ha
        unfold ReservedArea.areaEnd at hnext this
        omega
    rw [if_neg hbr, hend]
    by_cases hlast : next.areaEnd ≥ e
    · rw [if_pos hlast]
      refine ⟨hlast, hv.2 next List.mem_cons_self, ⟨[next], rfl⟩, fun a ha => hv.1.hi_lt_lo ha,
        fun x => ?_⟩
      rw [covered_cons, ← or_assoc]
      apply or_congr_left
      unfold ReservedArea.areaEnd at hlast ⊢
      omega
    · rw [if_neg hlast]
      obtain ⟨h1, h2, ⟨pre, hpre⟩, h4, h5⟩ := mergeNext_spec rest e hse he
        (fun a ha => hlow a (List.mem_cons_of_mem next ha))
        ⟨hv.1.tail, fun a ha => hv.2 a (List.mem_cons_of_mem next ha)⟩
      refine ⟨h1, h2, ⟨next :: pre, by rw [List.cons_append, ← hpre]⟩, h4, fun x => ?_⟩
      rw [h5 x, covered_cons, ← or_assoc]
      apply or_congr_left
      unfold ReservedArea.areaEnd at hlast ⊢
      omega

theorem addLoop_meet {addr size e : Nat} {a : ReservedArea} {rest : List ReservedArea}
    (ha : a.areaEnd < 2 ^ 64) (hle : ¬ a.base > e) (hge : ¬ a.areaEnd < addr) :
    addLoop addr size e (a :: rest) =
      if a.areaEnd ≥ e then ⟨min a.base addr, a.areaEnd - min a.base addr⟩ :: rest
      else ⟨min a.base addr, ((mergeNext e rest).1 + 2 ^ 64 - min a.base addr) % 2 ^ 64⟩ ::
        (mergeNext e rest).2 := by
  obtain ⟨base, sz⟩ := a
  unfold ReservedArea.areaEnd at ha hge ⊢
  dsimp only at ha hle hge ⊢
  rw [addLoop, if_neg hle, ptrAdd_of_lt ha, if_neg hge]
  dsimp only
  by_cases hs : base > addr
  · rw [if_pos hs, Nat.min_eq_right (by omega), Nat.mod_eq_of_lt (by omega),
      show sz + (base - addr) = base + sz - addr by omega]
  · rw [if_neg hs, Nat.min_eq_left (by omega), Nat.add_sub_cancel_left]

/-- Merging `[addr, e)`, below the top, into valid areas keeps them valid and covers what they
did and `[addr, e)`; every area after starts at `addr` or where an area did. -/
theorem addLoop_spec {addr size e : Nat} (he : addr + size = e) (hae : addr < e) (htop : e < 2 ^ 64) :
    ∀ areas : List ReservedArea, Valid areas →
    Valid (addLoop addr size e areas) ∧
      (∀ x, Covered ReservedArea.base ReservedArea.areaEnd (addLoop addr size e areas) x ↔
        Covered ReservedArea.base ReservedArea.areaEnd areas x ∨ (addr ≤ x ∧ x < e)) ∧
      ∀ b ∈ addLoop addr size e areas, b.base = addr ∨ ∃ c ∈ areas, b.base = c.base
  | [], _ => by
    rw [addLoop]
    have hnew : (⟨addr, size⟩ : ReservedArea).areaEnd = e := he
    refine ⟨valid_cons.mpr ⟨by rw [hnew]; exact hae, fun _ h => (nomatch h),
      by rw [hnew]; exact htop, valid_nil⟩, fun x => ?_, ?_⟩
    · rw [covered_cons, hnew]
      simp
    · intro b hb
      rw [List.mem_singleton.mp hb]
      exact .inl rfl
  | a :: rest, hv => by
    have hnew : (⟨addr, size⟩ : ReservedArea).areaEnd = e := he
    have ha := (gapped_cons.mp hv.1).1
    have htopa := hv.2 a List.mem_cons_self
    have hvr : Valid rest := hv.tail
    by_cases hbr : a.base > e
    · rw [addLoop, if_pos hbr]
      refine ⟨valid_cons.mpr ⟨by rw [hnew]; exact hae, fun b hb => ?_, by rw [hnew]; exact htop, hv⟩,
        fun x => ?_, fun b hb => ?_⟩
      · rw [hnew]
        rcases List.mem_cons.mp hb with rfl | hb
        · exact hbr
        · have := hv.1.hi_lt_lo hb
          unfold ReservedArea.areaEnd at this ha
          omega
      · rw [covered_cons, hnew, or_comm]
      · rcases List.mem_cons.mp hb with rfl | hb
        · exact .inl rfl
        · exact .inr ⟨b, hb, rfl⟩
    by_cases hbl : a.areaEnd < addr
    · rw [addLoop, if_neg hbr, ptrAdd_areaEnd htopa, if_pos hbl]
      obtain ⟨v, c, st⟩ := addLoop_spec he hae htop rest hvr
      refine ⟨valid_cons.mpr ⟨ha, fun b hb => ?_, htopa, v⟩, fun x => ?_, fun b hb => ?_⟩
      · rcases st b hb with h | ⟨c, hc, h⟩
        · rw [h]
          exact hbl
        · rw [h]
          exact hv.1.hi_lt_lo hc
      · rw [covered_cons, covered_cons, c x, or_assoc]
      · rcases List.mem_cons.mp hb with rfl | hb
        · exact .inr ⟨b, List.mem_cons_self, rfl⟩
        · rcases st b hb with h | ⟨c, hc, h⟩
          · exact .inl h
          · exact .inr ⟨c, List.mem_cons_of_mem a hc, h⟩
    rw [addLoop_meet htopa hbr hbl]
    have hmin : min a.base addr ≤ e := by omega
    have hbase : ∀ b : ReservedArea, b.base = min a.base addr →
        b.base = addr ∨ ∃ c ∈ a :: rest, b.base = c.base := by
      intro b h
      rcases Nat.le_total a.base addr with h' | h'
      · exact .inr ⟨a, List.mem_cons_self, by rw [h, Nat.min_eq_left h']⟩
      · exact .inl (by rw [h, Nat.min_eq_right h'])
    split
    · rename_i hend
      have hendA := areaEnd_mk_sub (by omega : min a.base addr ≤ a.areaEnd)
      refine ⟨valid_cons.mpr ⟨by rw [hendA]; exact Nat.lt_of_le_of_lt (Nat.min_le_left _ _) ha,
        fun b hb => by rw [hendA]; exact hv.1.hi_lt_lo hb, by rw [hendA]; exact htopa, hvr⟩,
        fun x => ?_, fun b hb => ?_⟩
      · have key : (min a.base addr ≤ x ∧ x < a.areaEnd) ↔
            (a.base ≤ x ∧ x < a.areaEnd) ∨ (addr ≤ x ∧ x < e) := by omega
        rw [covered_cons, covered_cons, hendA, key, or_right_comm]
      · rcases List.mem_cons.mp hb with rfl | hb
        · exact hbase _ rfl
        · exact .inr ⟨b, List.mem_cons_of_mem a hb, rfl⟩
    · rename_i hend
      have hlow : ∀ b ∈ rest, min a.base addr ≤ b.base := by
        intro b hb
        have := hv.1.hi_lt_lo hb
        unfold ReservedArea.areaEnd at this
        omega
      obtain ⟨h1, h2, ⟨pre, hpre⟩, h4, h5⟩ := mergeNext_spec rest e hmin htop hlow hvr
      have hsub : ((mergeNext e rest).1 + 2 ^ 64 - min a.base addr) % 2 ^ 64 =
          (mergeNext e rest).1 - min a.base addr := by
        rw [show (mergeNext e rest).1 + 2 ^ 64 - min a.base addr =
            (mergeNext e rest).1 - min a.base addr + 2 ^ 64 by omega, Nat.add_mod_right,
          Nat.mod_eq_of_lt (by omega)]
      have hendM := areaEnd_mk_sub (by omega : min a.base addr ≤ (mergeNext e rest).1)
      have hvs : Valid (mergeNext e rest).2 := ⟨(hpre ▸ hvr.1).of_suffix,
        fun b hb => hvr.2 b (hpre ▸ List.mem_append_right pre hb)⟩
      rw [hsub]
      refine ⟨valid_cons.mpr ⟨by rw [hendM]; show min a.base addr < _; omega,
        fun b hb => by rw [hendM]; exact h4 b hb, by rw [hendM]; exact h2, hvs⟩,
        fun x => ?_, fun b hb => ?_⟩
      · have key : (min a.base addr ≤ x ∧ x < e) ↔
            (a.base ≤ x ∧ x < a.areaEnd) ∨ (addr ≤ x ∧ x < e) := by omega
        rw [covered_cons, hendM, h5 x, covered_cons, key, or_right_comm]
      · rcases List.mem_cons.mp hb with rfl | hb
        · exact hbase _ rfl
        · exact .inr ⟨b, List.mem_cons_of_mem a (hpre ▸ List.mem_append_right pre hb), rfl⟩

end Add

/-! ## Removing a range -/

section Remove

private theorem or_and_not_iff {P Q R S : Prop} (hP : P ↔ Q ∧ ¬ S) :
    P ∨ (R ∧ ¬ S) ↔ (Q ∨ R) ∧ ¬ S := by
  constructor
  · rintro (h | ⟨h, hs⟩)
    · exact ⟨.inl (hP.mp h).1, (hP.mp h).2⟩
    · exact ⟨.inr h, hs⟩
  · rintro ⟨h | h, hs⟩
    · exact .inl (hP.mpr ⟨h, hs⟩)
    · exact .inr ⟨h, hs⟩

private theorem or_iff_and_not {P Q R S : Prop} (hP : P ↔ Q ∧ ¬ S) (hR : R → ¬ S) :
    P ∨ R ↔ (Q ∨ R) ∧ ¬ S :=
  (or_congr_right (and_iff_left_of_imp hR).symm).trans (or_and_not_iff hP)

/-- Cutting `[addr, e)`, below the top, out of valid areas keeps them valid and covers what they
did outside `[addr, e)`; every area after starts at `e` or where an area did. -/
theorem removeLoop_spec {addr e : Nat} (hae : addr < e) (htop : e < 2 ^ 64) :
    ∀ areas : List ReservedArea, Valid areas →
    Valid (removeLoop addr e areas) ∧
      (∀ x, Covered ReservedArea.base ReservedArea.areaEnd (removeLoop addr e areas) x ↔
        Covered ReservedArea.base ReservedArea.areaEnd areas x ∧ ¬ (addr ≤ x ∧ x < e)) ∧
      ∀ b ∈ removeLoop addr e areas, b.base = e ∨ ∃ c ∈ areas, b.base = c.base
  | [], _ => by
    rw [removeLoop]
    exact ⟨⟨gapped_nil, fun _ h => (nomatch h)⟩, fun x => by simp, fun _ h => (nomatch h)⟩
  | a :: rest, hv => by
    have ha := (gapped_cons.mp hv.1).1
    have htopa := hv.2 a List.mem_cons_self
    have hvr : Valid rest := hv.tail
    have hpast : ∀ x, Covered ReservedArea.base ReservedArea.areaEnd rest x → a.areaEnd < x :=
      fun x hx => Nat.lt_of_not_le fun h => hv.1.not_covered_tail h hx
    have hkeep : e < a.areaEnd → Valid (⟨e, a.areaEnd - e⟩ :: rest) ∧
        ∀ x, Covered ReservedArea.base ReservedArea.areaEnd (⟨e, a.areaEnd - e⟩ :: rest) x ↔
          (e ≤ x ∧ x < a.areaEnd) ∨ Covered ReservedArea.base ReservedArea.areaEnd rest x := by
      intro hhigh
      have hend := areaEnd_mk_sub (Nat.le_of_lt hhigh)
      exact ⟨valid_cons.mpr ⟨by rw [hend]; exact hhigh,
        fun b hb => by rw [hend]; exact hv.1.hi_lt_lo hb, by rw [hend]; exact htopa, hvr⟩,
        fun x => by rw [covered_cons, hend]⟩
    rw [removeLoop, ptrAdd_areaEnd htopa]
    by_cases hout : a.base ≥ e
    · rw [if_pos hout]
      refine ⟨hv, fun x => ⟨fun hx => ⟨hx, ?_⟩, fun hx => hx.1⟩, fun b hb => .inr ⟨b, hb, rfl⟩⟩
      have : a.base ≤ x := Nat.le_of_not_lt fun h => hv.1.not_covered_of_lt h hx
      omega
    rw [if_neg hout]
    by_cases hover : a.areaEnd > addr
    · rw [if_pos hover]
      by_cases hlow : a.base ≥ addr
      · rw [if_pos hlow]
        by_cases hhigh : a.areaEnd > e
        · rw [if_pos hhigh]
          have hsz : (a.size + 2 ^ 64 - (e - a.base)) % 2 ^ 64 = a.areaEnd - e := by
            have hE : a.areaEnd = a.base + a.size := rfl
            rw [show a.size + 2 ^ 64 - (e - a.base) = a.areaEnd - e + 2 ^ 64 by omega,
              Nat.add_mod_right, Nat.mod_eq_of_lt (by omega)]
          obtain ⟨v, c⟩ := hkeep hhigh
          refine ⟨by rw [hsz]; exact v, fun x => ?_, fun b hb => ?_⟩
          · rw [hsz, c x, covered_cons]
            exact or_iff_and_not (by omega) fun hx => by have := hpast x hx; omega
          · rcases List.mem_cons.mp hb with rfl | hb
            · exact .inl rfl
            · exact .inr ⟨b, List.mem_cons_of_mem a hb, rfl⟩
        · rw [if_neg hhigh]
          obtain ⟨v, c, st⟩ := removeLoop_spec hae htop rest hvr
          refine ⟨v, fun x => ?_, fun b hb => ?_⟩
          · rw [c x, covered_cons]
            constructor
            · exact fun h => ⟨.inr h.1, h.2⟩
            · rintro ⟨h | h, hs⟩
              · exact absurd (by omega) hs
              · exact ⟨h, hs⟩
          · rcases st b hb with h | ⟨c, hc, h⟩
            · exact .inl h
            · exact .inr ⟨c, List.mem_cons_of_mem a hc, h⟩
      · rw [if_neg hlow]
        have hcut := areaEnd_mk_sub (Nat.le_of_lt (Nat.lt_of_not_le hlow))
        by_cases hhigh : a.areaEnd > e
        · rw [if_pos hhigh]
          obtain ⟨v, c⟩ := hkeep hhigh
          refine ⟨valid_cons.mpr ⟨by rw [hcut]; exact Nat.lt_of_not_le hlow, fun b hb => ?_,
            by rw [hcut]; omega, v⟩, fun x => ?_, fun b hb => ?_⟩
          · rw [hcut]
            rcases List.mem_cons.mp hb with rfl | hb
            · exact hae
            · have := hv.1.hi_lt_lo hb
              omega
          · rw [covered_cons, c x, ← or_assoc, hcut, covered_cons]
            dsimp only
            exact or_iff_and_not (by omega) fun hx => by have := hpast x hx; omega
          · rcases List.mem_cons.mp hb with rfl | hb
            · exact .inr ⟨a, List.mem_cons_self, rfl⟩
            · rcases List.mem_cons.mp hb with rfl | hb
              · exact .inl rfl
              · exact .inr ⟨b, List.mem_cons_of_mem a hb, rfl⟩
        · rw [if_neg hhigh]
          obtain ⟨v, c, st⟩ := removeLoop_spec hae htop rest hvr
          have hnext : ∀ b ∈ removeLoop addr e rest, addr < b.base := by
            intro b hb
            rcases st b hb with h | ⟨c, hc, h⟩
            · omega
            · have := hv.1.hi_lt_lo hc
              omega
          refine ⟨valid_cons.mpr ⟨by rw [hcut]; exact Nat.lt_of_not_le hlow,
            fun b hb => by rw [hcut]; exact hnext b hb, by rw [hcut]; omega, v⟩,
            fun x => ?_, fun b hb => ?_⟩
          · rw [covered_cons, c x, hcut, covered_cons]
            dsimp only
            exact or_and_not_iff (by omega)
          · rcases List.mem_cons.mp hb with rfl | hb
            · exact .inr ⟨a, List.mem_cons_self, rfl⟩
            · rcases st b hb with h | ⟨c, hc, h⟩
              · exact .inl h
              · exact .inr ⟨c, List.mem_cons_of_mem a hc, h⟩
    · rw [if_neg hover]
      obtain ⟨v, c, st⟩ := removeLoop_spec hae htop rest hvr
      refine ⟨valid_cons.mpr ⟨ha, fun b hb => ?_, htopa, v⟩, fun x => ?_, fun b hb => ?_⟩
      · rcases st b hb with h | ⟨c, hc, h⟩
        · omega
        · rw [h]
          exact hv.1.hi_lt_lo hc
      · rw [covered_cons, c x, covered_cons]
        exact or_and_not_iff (by omega)
      · rcases List.mem_cons.mp hb with rfl | hb
        · exact .inr ⟨b, List.mem_cons_self, rfl⟩
        · rcases st b hb with h | ⟨c, hc, h⟩
          · exact .inl h
          · exact .inr ⟨c, List.mem_cons_of_mem a hc, h⟩

end Remove

/-! ## The search -/

section IsIn

variable {addr size : Nat}

theorem mmapIsInReservedArea_of_not_covered : ∀ areas : List ReservedArea, Valid areas →
    ¬ Covered ReservedArea.base ReservedArea.areaEnd areas addr →
    mmapIsInReservedArea areas addr size = 0
  | [], _, _ => by rw [mmapIsInReservedArea]
  | a :: rest, hv, h => by
    rw [mmapIsInReservedArea, ptrAdd_areaEnd (hv.2 a List.mem_cons_self)]
    rw [covered_cons, not_or] at h
    by_cases hb : a.base > addr
    · rw [if_pos hb]
    · rw [if_neg hb, if_pos (show a.areaEnd ≤ addr by omega)]
      exact mmapIsInReservedArea_of_not_covered rest hv.tail h.2

theorem mmapIsInReservedArea_of_mem (htop : addr + size < 2 ^ 64) {a : ReservedArea} :
    ∀ areas : List ReservedArea, Valid areas → a ∈ areas → a.base ≤ addr → addr < a.areaEnd →
    mmapIsInReservedArea areas addr size = if a.areaEnd < addr + size then -1 else 1
  | [], _, h, _, _ => nomatch h
  | b :: rest, hv, h, h1, h2 => by
    rw [mmapIsInReservedArea, ptrAdd_areaEnd (hv.2 b List.mem_cons_self)]
    rcases List.mem_cons.mp h with rfl | h
    · rw [if_neg (show ¬ a.base > addr by omega), if_neg (show ¬ a.areaEnd ≤ addr by omega),
        ptrAdd_of_lt htop]
    · have hba := hv.1.hi_lt_lo h
      have hb := (gapped_cons.mp hv.1).1
      rw [if_neg (show ¬ b.base > addr by omega), if_pos (show b.areaEnd ≤ addr by omega)]
      exact mmapIsInReservedArea_of_mem htop rest hv.tail h h1 h2

theorem mmapIsInReservedArea_spec {areas : List ReservedArea} (hv : Valid areas) (hsize : 0 < size)
    (htop : addr + size < 2 ^ 64) :
    (mmapIsInReservedArea areas addr size = 1 ↔
      ∃ a ∈ areas, a.base ≤ addr ∧ addr + size ≤ a.areaEnd) ∧
    (mmapIsInReservedArea areas addr size = -1 ↔
      ∃ a ∈ areas, a.base ≤ addr ∧ addr < a.areaEnd ∧ a.areaEnd < addr + size) ∧
    (mmapIsInReservedArea areas addr size = 0 ↔
      ¬ Covered ReservedArea.base ReservedArea.areaEnd areas addr) := by
  by_cases hc : Covered ReservedArea.base ReservedArea.areaEnd areas addr
  · obtain ⟨a, ha, h1, h2⟩ := hc
    have hres := mmapIsInReservedArea_of_mem htop areas hv ha h1 h2
    refine ⟨⟨fun h => ⟨a, ha, h1, ?_⟩, fun ⟨b, hb, hb1, hb2⟩ => ?_⟩,
      ⟨fun h => ⟨a, ha, h1, h2, ?_⟩, fun ⟨b, hb, hb1, hb2, hb3⟩ => ?_⟩,
      ⟨fun h => ?_, fun h => absurd ⟨a, ha, h1, h2⟩ h⟩⟩
    · rw [hres] at h
      split at h
      · exact absurd h (by decide)
      · omega
    · rw [mmapIsInReservedArea_of_mem htop areas hv hb hb1 (by omega), if_neg (by omega)]
    · rw [hres] at h
      split at h
      · assumption
      · exact absurd h (by decide)
    · rw [mmapIsInReservedArea_of_mem htop areas hv hb hb1 hb2, if_pos hb3]
    · rw [hres] at h
      split at h <;> exact absurd h (by decide)
  · rw [mmapIsInReservedArea_of_not_covered areas hv hc]
    refine ⟨⟨fun h => absurd h (by decide), fun ⟨b, hb, hb1, hb2⟩ => absurd ⟨b, hb, hb1, by omega⟩ hc⟩,
      ⟨fun h => absurd h (by decide), fun ⟨b, hb, hb1, hb2, _⟩ => absurd ⟨b, hb, hb1, hb2⟩ hc⟩,
      ⟨fun _ => hc, fun _ => rfl⟩⟩

end IsIn

/-! ## Runs of calls

A run is a sequence of `mmap_add_reserved_area` and `mmap_remove_reserved_area` calls. The
asserts of both ask for arguments aligned to the host page of `2 ^ k` bytes; the reserved
addresses they stand for are a set, which a call joins or cuts the range to. -/

section Calls

variable {k : Nat}

inductive Call where
  | add (addr size : Nat)
  | remove (addr size : Nat)
deriving DecidableEq, Repr

def Call.apply (areas : List ReservedArea) : Call → List ReservedArea
  | .add addr size => mmapAddReservedArea areas addr size
  | .remove addr size => mmapRemoveReservedArea areas addr size

def runCalls : List ReservedArea → List Call → List ReservedArea
  | areas, [] => areas
  | areas, c :: calls => runCalls (c.apply areas) calls

/-- Page-aligned arguments for a range that is not empty and does not wrap past the top. -/
def RangeOk (k addr size : Nat) : Prop :=
  addr % 2 ^ k = 0 ∧ size % 2 ^ k = 0 ∧ 0 < size ∧ addr + size ≤ 2 ^ 64

def Call.Ok (k : Nat) : Call → Prop
  | .add addr size | .remove addr size => RangeOk k addr size

instance (k addr size : Nat) : Decidable (RangeOk k addr size) :=
  inferInstanceAs (Decidable (_ ∧ _ ∧ _ ∧ _))

instance (k : Nat) : ∀ c : Call, Decidable (c.Ok k)
  | .add addr size | .remove addr size => inferInstanceAs (Decidable (RangeOk k addr size))

def reserved (areas : List ReservedArea) : Set Nat :=
  {x | Covered ReservedArea.base ReservedArea.areaEnd areas x}

def Call.effect : Call → Set Nat → Set Nat
  | .add addr size, s => s ∪ Set.Ico addr (wrapEnd addr size)
  | .remove addr size, s => s \ Set.Ico addr (wrapEnd addr size)

theorem runCalls_append (areas : List ReservedArea) (calls : List Call) (c : Call) :
    runCalls areas (calls ++ [c]) = c.apply (runCalls areas calls) := by
  induction calls generalizing areas with
  | nil => rfl
  | cons c' calls ih => exact ih (c'.apply areas)

theorem RangeOk.wrap (hk : 0 < k) {addr size : Nat} (h : RangeOk k addr size) :
    addr < wrapEnd addr size ∧ wrapEnd addr size < 2 ^ 64 ∧
      ptrAdd addr (avoidWrap addr size) = wrapEnd addr size ∧
      addr + avoidWrap addr size = wrapEnd addr size := by
  obtain ⟨ha, -, hpos, hfit⟩ := h
  obtain ⟨c, hc⟩ := Nat.dvd_trans (Nat.pow_dvd_pow 2 hk) (Nat.dvd_of_mod_eq_zero ha)
  obtain ⟨h3, h4⟩ := ptrAdd_avoidWrap (by omega) hfit
  refine ⟨?_, ?_, h3, h4⟩ <;> unfold wrapEnd <;> split <;> omega

theorem mmapAddReservedArea_spec (hk : 0 < k) {areas : List ReservedArea} (hv : Valid areas)
    {addr size : Nat} (h : RangeOk k addr size) :
    Valid (mmapAddReservedArea areas addr size) ∧
      reserved (mmapAddReservedArea areas addr size) =
        reserved areas ∪ Set.Ico addr (wrapEnd addr size) := by
  obtain ⟨h1, h2, h3, h4⟩ := h.wrap hk
  unfold mmapAddReservedArea
  dsimp only
  rw [h3]
  obtain ⟨v, c, -⟩ := addLoop_spec h4 h1 h2 areas hv
  exact ⟨v, Set.ext fun x => c x⟩

theorem mmapRemoveReservedArea_spec (hk : 0 < k) {areas : List ReservedArea} (hv : Valid areas)
    {addr size : Nat} (h : RangeOk k addr size) :
    Valid (mmapRemoveReservedArea areas addr size) ∧
      reserved (mmapRemoveReservedArea areas addr size) =
        reserved areas \ Set.Ico addr (wrapEnd addr size) := by
  obtain ⟨h1, h2, h3, -⟩ := h.wrap hk
  unfold mmapRemoveReservedArea
  rw [h3]
  obtain ⟨v, c, -⟩ := removeLoop_spec h1 h2 areas hv
  exact ⟨v, Set.ext fun x => c x⟩

theorem Call.apply_spec (hk : 0 < k) {areas : List ReservedArea} (hv : Valid areas) :
    ∀ {c : Call}, c.Ok k → Valid (c.apply areas) ∧ reserved (c.apply areas) = c.effect (reserved areas)
  | .add _ _, h => mmapAddReservedArea_spec hk hv h
  | .remove _ _, h => mmapRemoveReservedArea_spec hk hv h

theorem runCalls_spec (hk : 0 < k) : ∀ (calls : List Call) (areas : List ReservedArea),
    Valid areas → (∀ c ∈ calls, c.Ok k) →
    Valid (runCalls areas calls) ∧
      reserved (runCalls areas calls) = calls.foldl (fun s c => c.effect s) (reserved areas)
  | [], _, hv, _ => ⟨hv, rfl⟩
  | c :: calls, areas, hv, hok => by
    obtain ⟨v, r⟩ := Call.apply_spec hk hv (hok c List.mem_cons_self)
    rw [runCalls, List.foldl_cons, ← r]
    exact runCalls_spec hk calls _ v fun c' h => hok c' (List.mem_cons_of_mem c h)

/-- From the empty list of `LIST_INIT`, every run of calls with page-aligned arguments for
non-empty ranges that do not wrap past the top keeps the areas sorted, non-empty and apart, and
each call joins its range to the reserved addresses or cuts it out of them, one byte short when
it ends at the top. On such areas `mmap_is_in_reserved_area`, for a non-empty range below the
top, returns `1` exactly when one area holds the range, `-1` exactly when the area holding `addr`
ends inside it, and `0` exactly when no area holds `addr`. -/
theorem reservedAreas_spec (k : Nat) (hk : 0 < k) :
    (∀ calls : List Call, (∀ c ∈ calls, c.Ok k) →
      Valid (runCalls [] calls) ∧
      ∀ c : Call, c.Ok k →
        reserved (runCalls [] (calls ++ [c])) = c.effect (reserved (runCalls [] calls))) ∧
    ∀ areas : List ReservedArea, Valid areas → ∀ addr size, 0 < size → addr + size < 2 ^ 64 →
      (mmapIsInReservedArea areas addr size = 1 ↔
        ∃ a ∈ areas, a.base ≤ addr ∧ addr + size ≤ a.areaEnd) ∧
      (mmapIsInReservedArea areas addr size = -1 ↔
        ∃ a ∈ areas, a.base ≤ addr ∧ addr < a.areaEnd ∧ a.areaEnd < addr + size) ∧
      (mmapIsInReservedArea areas addr size = 0 ↔
        ¬ Covered ReservedArea.base ReservedArea.areaEnd areas addr) := by
  refine ⟨fun calls hok => ?_, fun areas hv addr size hsize htop =>
    mmapIsInReservedArea_spec hv hsize htop⟩
  have hv := (runCalls_spec hk calls [] valid_nil hok).1
  refine ⟨hv, fun c hc => ?_⟩
  rw [runCalls_append]
  exact (Call.apply_spec hk hv hc).2

theorem reservedAreas_spec_split :
    Valid (runCalls [] [.add 0x10000 0x20000]) ∧
      reserved (runCalls [] ([.add 0x10000 0x20000] ++ [.remove 0x20000 0x1000])) =
        (Call.remove 0x20000 0x1000).effect (reserved (runCalls [] [.add 0x10000 0x20000])) :=
  have h := (reservedAreas_spec 12 (by decide)).1 [.add 0x10000 0x20000] (by decide)
  ⟨h.1, h.2 _ (by decide)⟩

/-- Empty ranges and ranges reaching the top: `mmap_add_reserved_area( 0, 0 )` takes `0 + 0`
for a range ending at the top and reserves all but the last byte, an empty range at another
address is added as an empty area, removing one inside an area splits it into two that touch,
and a range ending at the top counts as held by an area that stops one byte short. -/
theorem mmapReservedArea_empty_ranges :
    mmapAddReservedArea [] 0 0 = [⟨0, 2 ^ 64 - 1⟩] ∧
    mmapAddReservedArea [] 0x10000 0 = [⟨0x10000, 0⟩] ∧
    mmapRemoveReservedArea [⟨0x10000, 0x20000⟩] 0x20000 0 =
      [⟨0x10000, 0x10000⟩, ⟨0x20000, 0x10000⟩] ∧
    mmapIsInReservedArea (mmapAddReservedArea [] (2 ^ 64 - 0x2000) 0x2000)
      (2 ^ 64 - 0x1000) 0x1000 = 1 := by decide

end Calls

end Wine.Ntdll.ReservedAreas
