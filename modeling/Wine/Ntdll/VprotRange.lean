import Wine.Lib.Memory
import Wine.Lib.Lanes

/-!
# Ranges of equal protection (`get_vprot_range_size`, `dlls/ntdll/unix/virtual.c`)

On 64-bit hosts `pages_vprot` is a table of directories of `pages_vprot_mask + 1` protection
bytes, one byte per page. `get_vprot_range_size` compares the bytes of a range with the first
one under a mask: a byte at a time up to an index that is a multiple of 8, then a `UINT_PTR` of
8 bytes at a time, and a byte at a time again inside the first word that differs. A word may
reach past the end of the range but not past its directory. A directory is the list of its
bytes and a pointer is a directory and an offset, so a read outside the directory faults. The
code assumes that `base + size` does not wrap, so its `SIZE_T` arithmetic is exact on `Nat`.
-/

namespace Wine.Ntdll.VprotRange

open Mem

set_option autoImplicit false

/-! ## The code -/

def pageShift : Nat := 12

def pagesVprotShift : Nat := 20

def pagesVprotMask : Nat := 2 ^ 20 - 1

/-- `word_from_byte`: a byte repeated in the eight bytes of a `UINT_PTR`. -/
def wordFromByte : Nat := 0x101010101010101

/-- `pages_vprot[idx >> pages_vprot_shift] + (idx & pages_vprot_mask)` -/
def vprotPtr (idx : Nat) : Nat × Nat := (idx >>> pagesVprotShift, idx &&& pagesVprotMask)

/-- `*(UINT_PTR *)vprot_ptr`: the eight bytes from `off` in `dir`, little endian. -/
def loadWord (dir : List UInt8) (off : Nat) : Run Nat := do
  let bytes ← slice dir off 8
  pure (Nat.ofDigits 256 (bytes.map UInt8.toNat))

/-- `for (; curr_idx < limit; ++curr_idx, ++vprot_ptr) if ((*vprot ^ *vprot_ptr) & mask) ...`:
where the loop stops, at the first byte that differs from `vprot` under `mask` or at `limit`,
and the pointer there. -/
def scanBytes (pagesVprot : Nat → List UInt8) (vprot mask : UInt8) (limit : Nat) (curr : Nat)
    (ptr : Nat × Nat) : Run (Nat × (Nat × Nat)) :=
  if curr < limit then do
    let b ← load (pagesVprot ptr.1) ptr.2
    if (vprot ^^^ b) &&& mask ≠ 0 then pure (curr, ptr)
    else scanBytes pagesVprot vprot mask limit (curr + 1) (ptr.1, ptr.2 + 1)
  else pure (curr, ptr)
termination_by limit - curr

/-- The word loop of `get_vprot_range_size` from `curr_idx`, with `vprot_ptr`. -/
def scanWords (pagesVprot : Nat → List UInt8) (vprot mask : UInt8) (startIdx endIdx size : Nat)
    (curr : Nat) (ptr : Nat × Nat) : Run Nat :=
  if curr < endIdx then do
    -- a word at the start of a directory is read from that directory
    let ptr := if curr &&& pagesVprotMask = 0 then (curr >>> pagesVprotShift, 0) else ptr
    let word ← loadWord (pagesVprot ptr.1) ptr.2
    if (wordFromByte * vprot.toNat ^^^ word) &&& (wordFromByte * mask.toNat) ≠ 0 then do
      let r ← scanBytes pagesVprot vprot mask endIdx curr ptr
      pure ((r.1 - startIdx) <<< pageShift)
    else scanWords pagesVprot vprot mask startIdx endIdx size (curr + 8) (ptr.1, ptr.2 + 8)
  else pure size
termination_by endIdx - curr

/-- `get_vprot_range_size( base, size, mask, &vprot )`: the size returned, and `vprot`. -/
def getVprotRangeSize (pagesVprot : Nat → List UInt8) (base size : Nat) (mask : UInt8) :
    Run (Nat × UInt8) := do
  let startIdx := base >>> pageShift
  let endIdx := startIdx + (size >>> pageShift)
  -- `ROUND_SIZE( 0, start_idx, index_align_mask )`, at most `end_idx`
  let alignedStartIdx := min ((startIdx + 7) / 8 * 8) endIdx
  let ptr := vprotPtr startIdx
  let vprot ← load (pagesVprot ptr.1) ptr.2
  let r ← scanBytes pagesVprot vprot mask alignedStartIdx startIdx ptr
  if r.1 < alignedStartIdx then pure ((r.1 - startIdx) <<< pageShift, vprot)
  else do
    let res ← scanWords pagesVprot vprot mask startIdx endIdx size r.1 r.2
    pure (res, vprot)

/-! ## The byte-by-byte scan -/

/-- The protection byte of page `idx`. -/
def vprotByte (pagesVprot : Nat → List UInt8) (idx : Nat) : UInt8 :=
  (pagesVprot (idx >>> pagesVprotShift)).getD (idx &&& pagesVprotMask) 0

/-- How many of the `n` pages from `idx` on agree with `vprot` under `mask`, up to the first
that does not. -/
def agreeLen (byte : Nat → UInt8) (vprot mask : UInt8) (idx : Nat) : Nat → Nat
  | 0 => 0
  | n + 1 => if (vprot ^^^ byte idx) &&& mask ≠ 0 then 0 else agreeLen byte vprot mask (idx + 1) n + 1

example : agreeLen (fun i => if i = 2 then 3 else 1) 1 0xff 0 5 = 2 := by decide

example : agreeLen (fun i => if i = 2 then 3 else 1) 1 1 0 5 = 5 := by decide

/-- Page `idx` has the protection `vprot` on the bits of `mask`. -/
def Agrees (byte : Nat → UInt8) (vprot mask : UInt8) (idx : Nat) : Prop :=
  (vprot ^^^ byte idx) &&& mask = 0

/-- The directory of page `idx` is allocated: `pages_vprot_mask + 1` bytes. -/
def DirAllocated (pagesVprot : Nat → List UInt8) (idx : Nat) : Prop :=
  (pagesVprot (idx >>> pagesVprotShift)).length = pagesVprotMask + 1

section Agree

variable {byte : Nat → UInt8} {vprot mask : UInt8}

theorem agreeLen_eq : ∀ (n idx k : Nat), k ≤ n → (∀ j < k, Agrees byte vprot mask (idx + j)) →
    (k < n → ¬ Agrees byte vprot mask (idx + k)) → agreeLen byte vprot mask idx n = k := by
  intro n
  induction n with
  | zero =>
    intro idx k hk _ _
    rw [agreeLen]
    omega
  | succ n ih =>
    intro idx k hk hagree hstop
    rw [agreeLen]
    by_cases h : Agrees byte vprot mask idx
    · obtain ⟨k, rfl⟩ : ∃ k', k = k' + 1 := by
        cases k with
        | zero => exact absurd h (hstop (by omega))
        | succ k => exact ⟨k, rfl⟩
      rw [if_neg (show ¬ (vprot ^^^ byte idx) &&& mask ≠ 0 from not_not.mpr h)]
      congr 1
      apply ih (idx + 1) k (by omega)
      · intro j hj
        have := hagree (j + 1) (by omega)
        rwa [show idx + (j + 1) = idx + 1 + j by omega] at this
      · intro hk'
        have := hstop (by omega)
        rwa [show idx + (k + 1) = idx + 1 + k by omega] at this
    · have hk0 : k = 0 := by
        by_contra hk0
        exact h (hagree 0 (by omega))
      rw [if_pos (show (vprot ^^^ byte idx) &&& mask ≠ 0 from h), hk0]

end Agree

/-- The byte loop stops at the first page from `curr` that does not agree, or at `limit`. It
reads the bytes up to there, which, below `stop`, are where `ptr` points; the loop gets no
further than `stop` when `stop` is past `limit` or a page before `stop` does not agree. -/
theorem scanBytes_spec (pagesVprot : Nat → List UInt8) (byte : Nat → UInt8) (vprot mask : UInt8)
    (limit stop : Nat) : ∀ (curr : Nat) (ptr : Nat × Nat), curr ≤ limit →
    (limit ≤ stop ∨ ∃ j, curr ≤ j ∧ j < stop ∧ j < limit ∧ ¬ Agrees byte vprot mask j) →
    (∀ j, curr ≤ j → j < stop → j < limit →
      load (pagesVprot ptr.1) (ptr.2 + (j - curr)) = .ok (byte j)) →
    ∃ r, scanBytes pagesVprot vprot mask limit curr ptr = .ok (r, (ptr.1, ptr.2 + (r - curr))) ∧
      curr ≤ r ∧ r ≤ limit ∧ (∀ j, curr ≤ j → j < r → Agrees byte vprot mask j) ∧
      (r < limit → ¬ Agrees byte vprot mask r) := by
  intro curr
  induction hn : limit - curr using Nat.strong_induction_on generalizing curr with
  | _ n ih =>
  intro ptr hcurr hstop hread
  rw [scanBytes]
  by_cases hlt : curr < limit
  · rw [if_pos hlt]
    have hdec : limit - (curr + 1) < n := by
      clear hstop hread
      omega
    have hc : curr < stop := by
      rcases hstop with h | ⟨j, h1, h2, -, -⟩ <;> omega
    have hb := hread curr le_rfl hc hlt
    rw [Nat.sub_self, Nat.add_zero] at hb
    rw [hb, ok_bind]
    by_cases hag : Agrees byte vprot mask curr
    · rw [if_neg (show ¬ (vprot ^^^ byte curr) &&& mask ≠ 0 from not_not.mpr hag)]
      have hstop' : limit ≤ stop ∨
          ∃ j, curr + 1 ≤ j ∧ j < stop ∧ j < limit ∧ ¬ Agrees byte vprot mask j := by
        rcases hstop with h | ⟨j, h1, h2, h3, h4⟩
        · exact .inl h
        · have hj : j ≠ curr := by
            rintro rfl
            exact h4 hag
          exact .inr ⟨j, by omega, h2, h3, h4⟩
      obtain ⟨r, hr, h1, h2, h3, h4⟩ := ih (limit - (curr + 1)) hdec (curr + 1) rfl
        (ptr.1, ptr.2 + 1) (by omega) hstop' (fun j hj1 hj2 hj3 => by
          dsimp only
          rw [show ptr.2 + 1 + (j - (curr + 1)) = ptr.2 + (j - curr) by omega]
          exact hread j (by omega) hj2 hj3)
      refine ⟨r, ?_, by omega, h2, fun j hj1 hj2 => ?_, h4⟩
      · rw [hr, show ptr.2 + 1 + (r - (curr + 1)) = ptr.2 + (r - curr) by omega]
      · rcases Nat.eq_or_lt_of_le hj1 with rfl | hj1
        · exact hag
        · exact h3 j hj1 hj2
    · rw [if_pos (show (vprot ^^^ byte curr) &&& mask ≠ 0 from hag)]
      exact ⟨curr, by rw [Nat.sub_self, Nat.add_zero]; rfl, le_rfl, hlt.le, fun j h1 h2 => absurd h2 (by omega), fun _ => hag⟩
  · rw [if_neg hlt]
    exact ⟨curr, by rw [Nat.sub_self, Nat.add_zero]; rfl, le_rfl, hcurr, fun j h1 h2 => absurd h2 (by omega),
      fun h => absurd h (by omega)⟩

/-! ## Pointers and words -/

theorem vprotPtr_eq (idx : Nat) : vprotPtr idx = (idx / 2 ^ 20, idx % 2 ^ 20) := by
  rw [vprotPtr, pagesVprotShift, pagesVprotMask, Nat.shiftRight_eq_div_pow,
    Nat.and_two_pow_sub_one_eq_mod]

theorem dirAllocated_iff (pagesVprot : Nat → List UInt8) (idx : Nat) :
    DirAllocated pagesVprot idx ↔ (pagesVprot (idx / 2 ^ 20)).length = 2 ^ 20 := by
  rw [DirAllocated, pagesVprotShift, pagesVprotMask, Nat.shiftRight_eq_div_pow,
    Nat.sub_add_cancel Nat.one_le_two_pow]

theorem load_vprotByte {pagesVprot : Nat → List UInt8} {idx : Nat}
    (halloc : DirAllocated pagesVprot idx) {d o : Nat} (hd : d = idx / 2 ^ 20)
    (ho : o = idx % 2 ^ 20) : load (pagesVprot d) o = .ok (vprotByte pagesVprot idx) := by
  rw [dirAllocated_iff] at halloc
  have ho' : o < (pagesVprot d).length := by
    rw [hd, halloc, ho]
    exact Nat.mod_lt _ (Nat.two_pow_pos 20)
  rw [load_of_lt ho', vprotByte, pagesVprotShift, pagesVprotMask, Nat.shiftRight_eq_div_pow,
    Nat.and_two_pow_sub_one_eq_mod, ← hd, ← ho, List.getD_eq_getElem _ _ ho']

theorem wordFromByte_mul (v : Nat) :
    wordFromByte * v = Nat.ofDigits (2 ^ 8) (List.replicate 8 v) := by
  simp only [wordFromByte, List.replicate_succ, List.replicate_zero, Nat.ofDigits_cons,
    Nat.ofDigits_nil]
  omega

theorem wordTest_eq_zero_iff (vprot mask : UInt8) (bytes : List UInt8) (hlen : bytes.length = 8) :
    (wordFromByte * vprot.toNat ^^^ Nat.ofDigits 256 (bytes.map UInt8.toNat)) &&&
        (wordFromByte * mask.toNat) = 0 ↔ ∀ b ∈ bytes, (vprot ^^^ b) &&& mask = 0 := by
  have key := Lanes.xor_and_eq_zero_iff (UInt8.toNat_lt vprot) (UInt8.toNat_lt mask)
    (bytes.map UInt8.toNat) (fun x hx => by
      obtain ⟨b, -, rfl⟩ := List.mem_map.mp hx
      exact UInt8.toNat_lt b)
  rw [List.length_map, hlen, List.forall_mem_map] at key
  rw [wordFromByte_mul, wordFromByte_mul, show (256 : Nat) = 2 ^ 8 from rfl, key]
  refine forall₂_congr fun b _ => ?_
  rw [← UInt8.toNat_xor, ← UInt8.toNat_and, ← UInt8.toNat_inj, UInt8.toNat_zero]

theorem loadWord_vprotPtr {pagesVprot : Nat → List UInt8} {curr : Nat} (h8 : curr % 8 = 0)
    (halloc : DirAllocated pagesVprot curr) :
    loadWord (pagesVprot (vprotPtr curr).1) (vprotPtr curr).2 =
      .ok (Nat.ofDigits 256 (((List.range 8).map fun i => vprotByte pagesVprot (curr + i)).map
        UInt8.toNat)) := by
  have hlen := (dirAllocated_iff _ _).mp halloc
  rw [vprotPtr_eq]
  have hfit : curr % 2 ^ 20 + 8 ≤ (pagesVprot (curr / 2 ^ 20)).length := by
    rw [hlen]
    omega
  have hbytes : ((pagesVprot (curr / 2 ^ 20)).drop (curr % 2 ^ 20)).take 8 =
      (List.range 8).map fun i => vprotByte pagesVprot (curr + i) := by
    apply List.ext_getElem
    · simp only [List.length_take, List.length_drop, List.length_map, List.length_range]
      omega
    · intro i h1 h2
      rw [List.length_map, List.length_range] at h2
      rw [List.getElem_take, List.getElem_drop, List.getElem_map, List.getElem_range]
      have := @load_vprotByte pagesVprot (curr + i) (by
        rw [dirAllocated_iff]
        rwa [show (curr + i) / 2 ^ 20 = curr / 2 ^ 20 by omega]) (curr / 2 ^ 20)
        (curr % 2 ^ 20 + i) (by omega) (by omega)
      rw [load_of_lt (by omega)] at this
      exact Except.ok.inj this
  rw [loadWord, slice, if_pos hfit, ok_bind, hbytes]
  rfl

/-! ## The word loop -/

section Words

variable (pagesVprot : Nat → List UInt8) (vprot mask : UInt8) (startIdx endIdx size : Nat)

/-- From an index past which the pages agree, the word loop returns what the plain scan counts
from `startIdx`. It runs on word starts, multiples of 8, with the pointer at the page except at
the start of a directory, where the loop itself moves it. -/
theorem scanWords_spec (hsize : size = (endIdx - startIdx) <<< pageShift)
    (halloc : ∀ idx, startIdx ≤ idx → idx < endIdx → DirAllocated pagesVprot idx) :
    ∀ (curr : Nat) (ptr : Nat × Nat), startIdx ≤ curr → (curr < endIdx → curr % 8 = 0) →
      (curr < endIdx → curr % 2 ^ 20 ≠ 0 → ptr = vprotPtr curr) →
      (∀ j, startIdx ≤ j → j < curr → j < endIdx → Agrees (vprotByte pagesVprot) vprot mask j) →
      scanWords pagesVprot vprot mask startIdx endIdx size curr ptr =
        .ok (agreeLen (vprotByte pagesVprot) vprot mask startIdx (endIdx - startIdx) <<< pageShift) := by
  intro curr
  induction hn : endIdx - curr using Nat.strong_induction_on generalizing curr with
  | _ n ih =>
  intro ptr hstart h8 hptr hagree
  rw [scanWords]
  by_cases hlt : curr < endIdx
  · rw [if_pos hlt]
    have hdec : endIdx - (curr + 8) < n := by
      clear hagree
      omega
    have hcurr8 := h8 hlt
    have hptr' : (if curr &&& pagesVprotMask = 0 then (curr >>> pagesVprotShift, 0) else ptr) =
        vprotPtr curr := by
      have hmask : curr &&& pagesVprotMask = curr % 2 ^ 20 := by
        rw [pagesVprotMask, Nat.and_two_pow_sub_one_eq_mod]
      split
      · rename_i h0
        rw [vprotPtr_eq, ← hmask, h0, pagesVprotShift, Nat.shiftRight_eq_div_pow]
      · rename_i h0
        exact hptr hlt (by rwa [← hmask])
    dsimp only
    rw [hptr', loadWord_vprotPtr hcurr8 (halloc curr hstart hlt), ok_bind]
    by_cases hword : ∀ i < 8, Agrees (vprotByte pagesVprot) vprot mask (curr + i)
    · have htest := (wordTest_eq_zero_iff vprot mask
          ((List.range 8).map fun i => vprotByte pagesVprot (curr + i)) (by simp)).mpr (by
        intro b hb
        obtain ⟨i, hi, rfl⟩ := List.mem_map.mp hb
        exact hword i (List.mem_range.mp hi))
      rw [if_neg (not_not.mpr htest)]
      apply ih _ hdec (curr + 8) rfl _ (by omega) (fun _ => by omega)
      · intro _ hnz
        rw [vprotPtr_eq, vprotPtr_eq]
        dsimp only
        ext <;> omega
      · intro j hj1 hj2 hj3
        by_cases hj : j < curr
        · exact hagree j hj1 hj hj3
        · have := hword (j - curr) (by omega)
          rwa [show curr + (j - curr) = j by omega] at this
    · have htest : (wordFromByte * vprot.toNat ^^^ Nat.ofDigits 256
          (((List.range 8).map fun i => vprotByte pagesVprot (curr + i)).map UInt8.toNat)) &&&
            (wordFromByte * mask.toNat) ≠ 0 := by
        rw [ne_eq, wordTest_eq_zero_iff vprot mask _ (by simp)]
        intro hall
        exact hword fun i hi => hall _ (List.mem_map.mpr ⟨i, List.mem_range.mpr hi, rfl⟩)
      rw [if_pos htest]
      have hstop : endIdx ≤ curr + 8 ∨ ∃ j, curr ≤ j ∧ j < curr + 8 ∧ j < endIdx ∧
          ¬ Agrees (vprotByte pagesVprot) vprot mask j := by
        obtain ⟨i, hi⟩ := not_forall.mp hword
        obtain ⟨hi, hbad⟩ := Classical.not_imp.mp hi
        by_cases hin : curr + i < endIdx
        · exact .inr ⟨curr + i, by omega, by omega, hin, hbad⟩
        · exact .inl (by omega)
      obtain ⟨r, hr, h1, h2, h3, h4⟩ := scanBytes_spec pagesVprot (vprotByte pagesVprot) vprot
        mask endIdx (curr + 8) curr (vprotPtr curr) hlt.le hstop (fun j hj1 hj2 hj3 =>
          load_vprotByte (halloc j (by omega) hj3) (by rw [vprotPtr_eq]; dsimp only; omega)
            (by rw [vprotPtr_eq]; dsimp only; omega))
      rw [hr, ok_bind]
      congr 2
      symm
      apply agreeLen_eq _ _ _ (by omega)
      · intro j hj
        by_cases hjc : startIdx + j < curr
        · exact hagree _ (by omega) hjc (by omega)
        · exact h3 _ (by omega) (by omega)
      · intro hk
        rw [show startIdx + (r - startIdx) = r by omega]
        exact h4 (by omega)
  · rw [if_neg hlt, hsize]
    congr 2
    symm
    apply agreeLen_eq _ _ _ le_rfl (fun j hj => hagree _ (by omega) (by omega) (by omega))
    intro h
    omega

end Words

/-- `get_vprot_range_size` returns the first page's byte and the size of the pages from `base`
that agree with it under `mask`, up to the first that does not: what a plain scan byte by byte
counts. The directories of the range's pages are allocated, and that of the first page when
the range is empty. -/
theorem getVprotRangeSize_eq_scan (pagesVprot : Nat → List UInt8) (base size : Nat)
    (mask : UInt8) (hsize : size % 2 ^ pageShift = 0)
    (halloc : ∀ idx, base >>> pageShift ≤ idx →
      idx < base >>> pageShift + (size >>> pageShift) ∨ idx = base >>> pageShift →
        DirAllocated pagesVprot idx) :
    getVprotRangeSize pagesVprot base size mask =
      .ok (agreeLen (vprotByte pagesVprot) (vprotByte pagesVprot (base >>> pageShift)) mask
          (base >>> pageShift) (size >>> pageShift) <<< pageShift,
        vprotByte pagesVprot (base >>> pageShift)) := by
  unfold getVprotRangeSize
  dsimp only
  generalize hs : base >>> pageShift = startIdx at halloc ⊢
  generalize hn : size >>> pageShift = npages at halloc ⊢
  have hsize' : size = npages <<< pageShift := by
    rw [← hn, pageShift, Nat.shiftRight_eq_div_pow, Nat.shiftLeft_eq]
    rw [pageShift] at hsize
    omega
  have hfirst : load (pagesVprot (vprotPtr startIdx).1) (vprotPtr startIdx).2 =
      .ok (vprotByte pagesVprot startIdx) :=
    load_vprotByte (halloc startIdx le_rfl (.inr rfl)) (by rw [vprotPtr_eq]) (by rw [vprotPtr_eq])
  rw [hfirst, ok_bind]
  obtain ⟨r, hr, h1, h2, h3, h4⟩ := scanBytes_spec pagesVprot (vprotByte pagesVprot)
    (vprotByte pagesVprot startIdx) mask (min ((startIdx + 7) / 8 * 8) (startIdx + npages))
    (min ((startIdx + 7) / 8 * 8) (startIdx + npages)) startIdx (vprotPtr startIdx)
    (by omega) (.inl le_rfl) (fun j hj1 hj2 hj3 =>
      load_vprotByte (halloc j hj1 (.inl (by omega))) (by rw [vprotPtr_eq]; dsimp only; omega)
        (by rw [vprotPtr_eq]; dsimp only; omega))
  rw [hr, ok_bind]
  dsimp only
  by_cases hbyte : r < min ((startIdx + 7) / 8 * 8) (startIdx + npages)
  · rw [if_pos hbyte]
    congr 3
    symm
    apply agreeLen_eq _ _ _ (by omega) (fun j hj => h3 _ (by omega) (by omega))
    intro _
    rw [show startIdx + (r - startIdx) = r by omega]
    exact h4 hbyte
  · rw [if_neg hbyte]
    have hr' : r = min ((startIdx + 7) / 8 * 8) (startIdx + npages) := by omega
    rw [scanWords_spec pagesVprot _ mask startIdx (startIdx + npages) size
        (by rw [Nat.add_sub_cancel_left]; exact hsize')
        (fun idx h1 h2 => halloc idx h1 (.inl h2)) r _ h1 (fun _ => by omega)
        (fun _ hnz => by rw [vprotPtr_eq, vprotPtr_eq]; dsimp only; ext <;> omega)
        (fun j hj1 hj2 _ => h3 j hj1 hj2),
      ok_bind, Nat.add_sub_cancel_left]
    rfl

theorem getVprotRangeSize_zero_table :
    12288 % 2 ^ pageShift = 0 ∧
    getVprotRangeSize (fun _ => List.replicate (2 ^ 20) 0) 0 12288 0xff =
      .ok (agreeLen (vprotByte fun _ => List.replicate (2 ^ 20) 0)
          (vprotByte (fun _ => List.replicate (2 ^ 20) 0) (0 >>> pageShift)) 0xff
          (0 >>> pageShift) (12288 >>> pageShift) <<< pageShift,
        vprotByte (fun _ => List.replicate (2 ^ 20) 0) (0 >>> pageShift)) :=
  ⟨by decide, getVprotRangeSize_eq_scan _ 0 12288 0xff (by decide)
    (fun _ _ _ => by
      rw [DirAllocated, List.length_replicate, pagesVprotMask]
      exact (Nat.sub_add_cancel Nat.one_le_two_pow).symm)⟩

end Wine.Ntdll.VprotRange
