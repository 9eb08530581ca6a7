import Mathlib.Data.Nat.Bitwise
import Mathlib.Tactic.Common

/-!
# Bitmaps (`dlls/ntdll/rtlbitmap.c`)

An `RTL_BITMAP` is `SizeOfBitMap` bits in the `ULONG` words of `Buffer`, bit `i` being bit
`i % 32` of word `i / 32`. `RtlAreBitsSet`, `RtlAreBitsClear`, `RtlSetBits` and `RtlClearBits`
work a word at a time with `maskbits`; `RtlFindSetBits` and `RtlFindClearBits` try every
position from the hint and then from zero; `NTDLL_FindSetRun` and `NTDLL_FindClearRun`, behind
`RtlFindNextForwardRunSet` and `RtlFindNextForwardRunClear`, read the buffer as bytes (little
endian, as on every target of the code). `ULONG` arithmetic is `% 2^32` where it can wrap.
-/

namespace Wine.Ntdll.Bitmap

set_option autoImplicit false

/-! ## The code -/

/-- `RTL_BITMAP`. -/
structure RtlBitmap where
  size : Nat
  buffer : Nat → Nat
  size_lt : size < 2 ^ 32
  buffer_lt : ∀ i, buffer i < 2 ^ 32

/-- `~0U`. -/
def ulongMax : Nat := 0xffffffff

/-- `~x` of a `ULONG`. -/
def bnot (x : Nat) : Nat := x ^^^ ulongMax

def maskbits (idx : Nat) : Nat := (ulongMax <<< (idx % 32)) % 2 ^ 32

/-- The byte `i` of the buffer, `((BYTE *)Buffer)[i]`. -/
def RtlBitmap.byte (bm : RtlBitmap) (i : Nat) : Nat := (bm.buffer (i / 4) >>> (8 * (i % 4))) % 256

/-- The words strictly between `pos` and `endPos`, as the loops of `RtlAreBitsSet` and
`RtlAreBitsClear` read them. -/
def middleWords (pos endPos : Nat) : List Nat := List.range' (pos + 1) (endPos - (pos + 1))

def rtlAreBitsSet (bm : RtlBitmap) (start count : Nat) : Bool :=
  let end_ := (start + count) % 2 ^ 32
  let pos := start / 32
  let endPos := end_ / 32
  if count = 0 ∨ bm.size ≤ start ∨ bm.size - start < count then false
  else if endPos = pos then (bm.buffer pos ||| bnot (maskbits start) ||| maskbits end_) = ulongMax
  else if (bm.buffer pos ||| bnot (maskbits start)) ≠ ulongMax then false
  else if (middleWords pos endPos).any (fun i => bm.buffer i ≠ ulongMax) then false
  else if end_ % 32 = 0 then true
  else (bm.buffer endPos ||| maskbits end_) = ulongMax

def rtlAreBitsClear (bm : RtlBitmap) (start count : Nat) : Bool :=
  let end_ := (start + count) % 2 ^ 32
  let pos := start / 32
  let endPos := end_ / 32
  if count = 0 ∨ bm.size ≤ start ∨ bm.size - start < count then false
  else if endPos = pos then bm.buffer pos &&& maskbits start &&& bnot (maskbits end_) = 0
  else if bm.buffer pos &&& maskbits start ≠ 0 then false
  else if (middleWords pos endPos).any (fun i => bm.buffer i ≠ 0) then false
  else if end_ % 32 = 0 then true
  else bm.buffer endPos &&& bnot (maskbits end_) = 0

/-- The loop of `RtlFindSetBits` and `RtlFindClearBits`: `test` the positions from `pos` to
`end - 1`, and once, when the search started at a hint, those from `0` to the hint. -/
def findBitsLoop (test : Nat → Bool) : Nat → Nat → Nat → Nat → Nat
  | 0, _, _, _ => ulongMax
  | fuel + 1, pos, end_, hint =>
    if pos < end_ then
      if test pos then pos
      else if pos = end_ - 1 ∧ hint ≠ 0 then findBitsLoop test fuel 0 hint 0
      else findBitsLoop test fuel (pos + 1) end_ hint
    else ulongMax

/-- `RtlFindSetBits` and `RtlFindClearBits` for the test of `count` bits at a position. The
loop makes at most `SizeOfBitMap` passes, and as many again after it wraps. -/
def findBits (test : Nat → Nat → Bool) (size count hint : Nat) : Nat :=
  if count = 0 ∨ size < count then ulongMax
  else
    -- `ulHint + ulCount` is a `ULONG` sum
    let hint := if size < (hint + count) % 2 ^ 32 then 0 else hint
    findBitsLoop (fun pos => test pos count) (2 * size + 2) hint size hint

def rtlFindSetBits (bm : RtlBitmap) (count hint : Nat) : Nat :=
  findBits (rtlAreBitsSet bm) bm.size count hint

def rtlFindClearBits (bm : RtlBitmap) (count hint : Nat) : Nat :=
  findBits (rtlAreBitsClear bm) bm.size count hint

/-- `RtlSetBits` and `RtlClearBits`: the first word changed by `first`, the whole words between
set to `fill`, the last word changed by `last`, or a word holding the whole range by `within`;
each gets the masks of `start` and `end`. -/
def changeBits (first last within : Nat → Nat → Nat → Nat) (fill : Nat) (bm : RtlBitmap)
    (start count : Nat) : Nat → Nat :=
  let end_ := (start + count) % 2 ^ 32
  let pos := start / 32
  let endPos := end_ / 32
  if count = 0 ∨ bm.size ≤ start ∨ bm.size - start < count then bm.buffer
  else if pos < endPos then fun i =>
    if i = pos then first (bm.buffer i) (maskbits start) (maskbits end_)
    else if pos < i ∧ i < endPos then fill
    else if i = endPos ∧ end_ % 32 ≠ 0 then last (bm.buffer i) (maskbits start) (maskbits end_)
    else bm.buffer i
  else Function.update bm.buffer pos (within (bm.buffer pos) (maskbits start) (maskbits end_))

def rtlSetBits (bm : RtlBitmap) (start count : Nat) : Nat → Nat :=
  changeBits (fun w ms _ => w ||| ms) (fun w _ me => w ||| bnot me)
    (fun w ms me => w ||| (ms &&& bnot me)) ulongMax bm start count

def rtlClearBits (bm : RtlBitmap) (start count : Nat) : Nat → Nat :=
  changeBits (fun w ms _ => w &&& bnot ms) (fun w _ me => w &&& me)
    (fun w ms me => w &&& (bnot ms ||| me)) 0 bm start count

/-- `RtlFindClearBitsAndSet`: the position found, and the buffer after. -/
def rtlFindClearBitsAndSet (bm : RtlBitmap) (count hint : Nat) : Nat × (Nat → Nat) :=
  let pos := rtlFindClearBits bm count hint
  (pos, if pos ≠ ulongMax then rtlSetBits bm pos count else bm.buffer)

/-- `RtlFindSetBitsAndClear`: the position found, and the buffer after. -/
def rtlFindSetBitsAndClear (bm : RtlBitmap) (count hint : Nat) : Nat × (Nat → Nat) :=
  let pos := rtlFindSetBits bm count hint
  (pos, if pos ≠ ulongMax then rtlClearBits bm pos count else bm.buffer)

/-- `NTDLL_leastSignificant`: the first set bit of a nibble. -/
def leastSignificant (n : Nat) : Nat := [0, 0, 1, 0, 2, 0, 1, 0, 3, 0, 1, 0, 2, 0, 1, 0].getD n 0

/-- The first set bit of a nonzero byte, from `NTDLL_leastSignificant` of its low nibble or,
when that is zero, of its high nibble. -/
def firstBitOffset (b : Nat) : Nat :=
  if b &&& 0x0f ≠ 0 then leastSignificant (b &&& 0x0f) else 4 + leastSignificant (b >>> 4)

/-- The set bits of `b` from bit `off` on, stopping at the first clear one, for at most `k`
bits. -/
def runLength (b : Nat) : Nat → Nat → Nat
  | 0, _ => 0
  | k + 1, off => if b &&& (1 <<< off) = 0 then 0 else runLength b k (off + 1) + 1

/-- The first loop of `NTDLL_FindSetRun` over the bytes `get`, from the bit `start` in the byte
`out`: the result when the run ends in the first byte that has a set bit or when there is none
(`~0U`, the size left as the caller's `0`), and otherwise where the run starts, its length so
far, and the next bit and byte. A pass per byte of the `ULONG` range of `ulStart` is enough. -/
def firstByte (get : Nat → Nat) (size : Nat) :
    Nat → Nat → Nat → (Nat × Nat) ⊕ (Nat × Nat × Nat × Nat)
  | 0, _, _ => .inl (ulongMax, 0)
  | fuel + 1, start, out =>
    let bMask := (0xff <<< (start % 8)) % 256
    let bFirst := get out &&& bMask
    if bFirst ≠ 0 then
      if bFirst ≠ bMask then
        let off := firstBitOffset bFirst
        -- `ulStart += ulOffset` adds the place of the bit in its byte to `ulStart`
        let count := runLength bFirst (8 - off) off
        if count < 8 - off then .inl ((start + off) % 2 ^ 32, count)
        else .inr ((start + off) % 2 ^ 32, count, (start + off + count) % 2 ^ 32, out + 1)
      else .inr (start, 8 - start % 8, (start / 8 * 8 + 8) % 2 ^ 32, out + 1)
    else if size ≤ (start / 8 * 8 + 8) % 2 ^ 32 then .inl (ulongMax, 0)
    else firstByte get size fuel ((start / 8 * 8 + 8) % 2 ^ 32) (out + 1)

/-- The length returned once `ulStart` has reached the end of the bitmap:
`ulCount - (ulStart - SizeOfBitMap)`. -/
def clipCount (size count start : Nat) : Nat := (count + 2 ^ 32 - (start - size)) % 2 ^ 32

/-- The loop of `NTDLL_FindSetRun` over the whole bytes of set bits after the first, and the set
bits at the start of the byte that ends the run. -/
def wholeBytes (get : Nat → Nat) (size found : Nat) : Nat → Nat → Nat → Nat → Nat × Nat
  | 0, count, _, _ => (found, count)
  | fuel + 1, count, start, out =>
    if get out = 0xff then
      if size ≤ (start + 8) % 2 ^ 32 then (found, clipCount size (count + 8) ((start + 8) % 2 ^ 32))
      else wholeBytes get size found fuel (count + 8) ((start + 8) % 2 ^ 32) (out + 1)
    else (found, count + if get out &&& 1 ≠ 0 then runLength (get out) 7 0 else 0)

/-- `NTDLL_FindSetRun` over the bytes `get`: the start of the run, and its length. -/
def findRun (get : Nat → Nat) (size start : Nat) : Nat × Nat :=
  match firstByte get size (2 ^ 29 + 1) start (start / 8) with
  | .inl r => r
  | .inr (found, count, start, out) =>
    if size ≤ start then (found, clipCount size count start)
    else wholeBytes get size found (2 ^ 29 + 1) count start out

def ntdllFindSetRun (bm : RtlBitmap) (start : Nat) : Nat × Nat := findRun bm.byte bm.size start

/-- `NTDLL_FindClearRun` is `NTDLL_FindSetRun` on the complemented bytes: it tests `~*lpOut`,
`!*lpOut` and `!(*lpOut & bit)` where the other tests `*lpOut`, `*lpOut == 0xff` and
`*lpOut & bit`. -/
def ntdllFindClearRun (bm : RtlBitmap) (start : Nat) : Nat × Nat :=
  findRun (fun i => 255 - bm.byte i) bm.size start

/-- `RtlFindNextForwardRunSet`: the length returned, and `*lpPos` if it is written. -/
def rtlFindNextForwardRunSet (bm : RtlBitmap) (start : Nat) : Nat × Option Nat :=
  if start < bm.size then ((ntdllFindSetRun bm start).2, some (ntdllFindSetRun bm start).1)
  else (0, none)

def rtlFindNextForwardRunClear (bm : RtlBitmap) (start : Nat) : Nat × Option Nat :=
  if start < bm.size then ((ntdllFindClearRun bm start).2, some (ntdllFindClearRun bm start).1)
  else (0, none)

/-! ## Bits -/

/-- Bit `i` of the bitmap. -/
def RtlBitmap.bit (bm : RtlBitmap) (i : Nat) : Bool := (bm.buffer (i / 32)).testBit (i % 32)

section Bits

theorem testBit_byte (bm : RtlBitmap) (i : Nat) {j : Nat} (hj : j < 8) :
    (bm.byte i).testBit j = bm.bit (8 * i + j) := by
  unfold RtlBitmap.byte RtlBitmap.bit
  rw [show (256 : Nat) = 2 ^ 8 from rfl, Nat.testBit_mod_two_pow, Nat.testBit_shiftRight,
    decide_eq_true hj, Bool.true_and]
  have hdiv : (8 * i + j) / 32 = i / 4 := by omega
  have hmod : (8 * i + j) % 32 = 8 * (i % 4) + j := by omega
  rw [hdiv, hmod]

theorem byte_lt (bm : RtlBitmap) (i : Nat) : bm.byte i < 256 := Nat.mod_lt _ (by decide)

theorem testBit_firstMask (r j : Nat) :
    ((0xff <<< r) % 256).testBit j = (decide (r ≤ j) && decide (j < 8)) := by
  rw [show (256 : Nat) = 2 ^ 8 from rfl, Nat.testBit_mod_two_pow, Nat.testBit_shiftLeft,
    show (0xff : Nat) = 2 ^ 8 - 1 from rfl, Nat.testBit_two_pow_sub_one]
  by_cases hj : j < 8
  · by_cases hr : r ≤ j
    · simp [hj, hr]
      omega
    · simp [hj, hr]
  · simp [hj]

set_option maxRecDepth 8192 in
theorem testBit_firstBitOffset :
    ∀ b < 256, b ≠ 0 → b.testBit (firstBitOffset b) = true ∧
      ∀ j < firstBitOffset b, b.testBit j = false := by
  decide

theorem and_one_shiftLeft_eq_zero (b off : Nat) : b &&& (1 <<< off) = 0 ↔ b.testBit off = false := by
  rw [Nat.one_shiftLeft, Nat.and_two_pow]
  cases b.testBit off <;> simp

theorem runLength_pos {b off : Nat} (h : b.testBit off = true) (k : Nat) :
    0 < runLength b (k + 1) off := by
  rw [runLength, if_neg (by rw [and_one_shiftLeft_eq_zero, h]; decide)]
  omega

theorem runLength_lt {b : Nat} : ∀ (k off : Nat), (∃ j, off ≤ j ∧ j < off + k ∧ b.testBit j = false) →
    runLength b k off < k := by
  intro k
  induction k with
  | zero =>
    rintro off ⟨j, h1, h2, _⟩
    omega
  | succ k ih =>
    rintro off ⟨j, h1, h2, hj⟩
    rw [runLength]
    split
    · omega
    · rename_i hoff
      rw [and_one_shiftLeft_eq_zero] at hoff
      have hjoff : j ≠ off := by
        rintro rfl
        rw [hj] at hoff
        exact hoff rfl
      have := ih (off + 1) ⟨j, by omega, by omega, hj⟩
      omega

theorem runLength_eq {b : Nat} : ∀ (m k off : Nat), m < k →
    (∀ j, off ≤ j → j < off + m → b.testBit j = true) → b.testBit (off + m) = false →
    runLength b k off = m := by
  intro m
  induction m with
  | zero =>
    rintro (_ | k) off hk _ hclear
    · omega
    · rw [runLength, if_pos ((and_one_shiftLeft_eq_zero b off).mpr hclear)]
  | succ m ih =>
    rintro (_ | k) off hk hset hclear
    · omega
    have hoff : b.testBit off = true := hset off le_rfl (by omega)
    rw [runLength, if_neg (by rw [and_one_shiftLeft_eq_zero, hoff]; decide)]
    rw [ih k (off + 1) (by omega) (fun j h1 h2 => hset j (by omega) (by omega))
      (by rw [show off + 1 + m = off + (m + 1) by omega]; exact hclear)]

end Bits

/-! ## The first byte of a run -/

section Runs

theorem firstByte_inByte {get : Nat → Nat} {size fuel start out : Nat}
    (hne : get out &&& (0xff <<< (start % 8)) % 256 ≠ 0)
    (hmask : get out &&& (0xff <<< (start % 8)) % 256 ≠ (0xff <<< (start % 8)) % 256)
    (hend : runLength (get out &&& (0xff <<< (start % 8)) % 256)
      (8 - firstBitOffset (get out &&& (0xff <<< (start % 8)) % 256))
      (firstBitOffset (get out &&& (0xff <<< (start % 8)) % 256)) <
        8 - firstBitOffset (get out &&& (0xff <<< (start % 8)) % 256)) :
    firstByte get size (fuel + 1) start out =
      .inl ((start + firstBitOffset (get out &&& (0xff <<< (start % 8)) % 256)) % 2 ^ 32,
        runLength (get out &&& (0xff <<< (start % 8)) % 256)
          (8 - firstBitOffset (get out &&& (0xff <<< (start % 8)) % 256))
          (firstBitOffset (get out &&& (0xff <<< (start % 8)) % 256))) := by
  rw [firstByte]
  simp only
  rw [if_pos hne, if_pos hmask, if_pos hend]

theorem testBit_maskedByte (bm : RtlBitmap) (start : Nat) {j : Nat} (hj : j < 8) :
    (bm.byte (start / 8) &&& (0xff <<< (start % 8)) % 256).testBit j =
      (decide (start % 8 ≤ j) && bm.bit (8 * (start / 8) + j)) := by
  rw [Nat.testBit_and, testBit_firstMask, testBit_byte bm _ hj, decide_eq_true hj]
  cases bm.bit (8 * (start / 8) + j) <;> simp

section InByte

variable (bm : RtlBitmap) {start q : Nat} (hq : start ≤ q) (hq7 : q < start - start % 8 + 7)
  (hfirst : bm.bit q = true) (hbefore : ∀ i, start ≤ i → i < q → bm.bit i = false)
  (h7 : bm.bit (start - start % 8 + 7) = false)

include hq hq7 hfirst hbefore in
theorem firstBitOffset_maskedByte :
    bm.byte (start / 8) &&& (0xff <<< (start % 8)) % 256 ≠ 0 ∧
      firstBitOffset (bm.byte (start / 8) &&& (0xff <<< (start % 8)) % 256) =
        q - 8 * (start / 8) := by
  have hlt : bm.byte (start / 8) &&& (0xff <<< (start % 8)) % 256 < 256 :=
    lt_of_le_of_lt Nat.and_le_left (byte_lt bm _)
  have hat : (bm.byte (start / 8) &&& (0xff <<< (start % 8)) % 256).testBit
      (q - 8 * (start / 8)) = true := by
    rw [testBit_maskedByte bm start (by omega), show 8 * (start / 8) + (q - 8 * (start / 8)) = q
      by omega, hfirst, decide_eq_true (by omega)]
    rfl
  have hbelow : ∀ j < q - 8 * (start / 8),
      (bm.byte (start / 8) &&& (0xff <<< (start % 8)) % 256).testBit j = false := by
    intro j hj
    rw [testBit_maskedByte bm start (by omega)]
    by_cases hr : start % 8 ≤ j
    · rw [hbefore _ (by omega) (by omega)]
      simp
    · simp [hr]
  have hne : bm.byte (start / 8) &&& (0xff <<< (start % 8)) % 256 ≠ 0 := by
    intro h0
    rw [h0, Nat.zero_testBit] at hat
    exact Bool.false_ne_true hat
  refine ⟨hne, ?_⟩
  obtain ⟨hset, hclear⟩ := testBit_firstBitOffset _ hlt hne
  rcases lt_trichotomy (firstBitOffset (bm.byte (start / 8) &&& (0xff <<< (start % 8)) % 256))
    (q - 8 * (start / 8)) with h | h | h
  · rw [hbelow _ h] at hset
    exact absurd hset Bool.false_ne_true
  · exact h
  · rw [hclear _ h] at hat
    exact absurd hat Bool.false_ne_true

include hq hq7 hfirst hbefore h7 in
/-- From a `start` inside a byte whose first set bit at or after `start` is `q`, below the
byte's last bit, which is clear: the run is found at `q + (start & 7)`, with the length of the
run of set bits from `q`. The first loop adds the place of `q` in its byte to `start` where it
should add it to the start of the byte. -/
theorem ntdllFindSetRun_inByte :
    ∃ n, 0 < n ∧ ntdllFindSetRun bm start = ((q + start % 8) % 2 ^ 32, n) ∧
      ∀ m, (∀ i, q ≤ i → i < q + m → bm.bit i = true) → bm.bit (q + m) = false → n = m := by
  obtain ⟨hne, hoff⟩ := firstBitOffset_maskedByte bm hq hq7 hfirst hbefore
  have hbits : ∀ j, q - 8 * (start / 8) ≤ j → j < 8 →
      (bm.byte (start / 8) &&& (0xff <<< (start % 8)) % 256).testBit j =
        bm.bit (8 * (start / 8) + j) := by
    intro j h1 h2
    rw [testBit_maskedByte bm start h2, decide_eq_true (by omega), Bool.true_and]
  have h7' : (bm.byte (start / 8) &&& (0xff <<< (start % 8)) % 256).testBit 7 = false := by
    rw [hbits 7 (by omega) (by omega), show 8 * (start / 8) + 7 = start - start % 8 + 7 by omega,
      h7]
  have hmask : bm.byte (start / 8) &&& (0xff <<< (start % 8)) % 256 ≠
      (0xff <<< (start % 8)) % 256 := by
    intro heq
    rw [heq, testBit_firstMask] at h7'
    simp at h7'
    omega
  have hend := runLength_lt (b := bm.byte (start / 8) &&& (0xff <<< (start % 8)) % 256)
    (8 - (q - 8 * (start / 8))) (q - 8 * (start / 8)) ⟨7, by omega, by omega, h7'⟩
  have hat : (bm.byte (start / 8) &&& (0xff <<< (start % 8)) % 256).testBit
      (q - 8 * (start / 8)) = true := by
    rw [hbits _ le_rfl (by omega), show 8 * (start / 8) + (q - 8 * (start / 8)) = q by omega,
      hfirst]
  have hpos := runLength_pos hat (7 - (q - 8 * (start / 8)))
  rw [show 7 - (q - 8 * (start / 8)) + 1 = 8 - (q - 8 * (start / 8)) by omega] at hpos
  refine ⟨_, hpos, ?_, fun m hset hclear => ?_⟩
  · unfold ntdllFindSetRun findRun
    rw [firstByte_inByte hne hmask (by rw [hoff]; exact hend), hoff]
    simp only [Prod.mk.injEq, and_true]
    congr 1
    omega
  · have hm : q + m ≤ start - start % 8 + 7 := by
      by_contra hlt
      rw [hset _ (by omega) (by omega)] at h7
      exact absurd h7 (by decide)
    apply runLength_eq m _ _ (by omega)
    · intro j h1 h2
      rw [hbits j h1 (by omega)]
      exact hset _ (by omega) (by omega)
    · rw [hbits _ (by omega) (by omega),
        show 8 * (start / 8) + (q - 8 * (start / 8) + m) = q + m by omega, hclear]

end InByte

/-- From a `start` inside a byte whose first set bit at or after `start` is `q`, below the
byte's last bit, which is clear: the run is found, with a length, at `q + (start & 7)`. The
first loop adds the place of `q` in its byte to `start` where it should add it to the start
of the byte. -/
theorem rtlFindNextForwardRunSet_unaligned (bm : RtlBitmap) {start : Nat} (hstart : start < bm.size)
    {q : Nat} (hq : start ≤ q) (hq7 : q < start - start % 8 + 7) (hfirst : bm.bit q = true)
    (hbefore : ∀ i, start ≤ i → i < q → bm.bit i = false)
    (h7 : bm.bit (start - start % 8 + 7) = false) :
    ∃ n, 0 < n ∧ rtlFindNextForwardRunSet bm start = (n, some ((q + start % 8) % 2 ^ 32)) := by
  obtain ⟨n, hpos, hrun, -⟩ := ntdllFindSetRun_inByte bm hq hq7 hfirst hbefore h7
  refine ⟨n, hpos, ?_⟩
  rw [rtlFindNextForwardRunSet, if_pos hstart, hrun]

theorem rtlFindNextForwardRunSet_byte4_from1 :
    ∃ n, 0 < n ∧ rtlFindNextForwardRunSet
      { size := 8, buffer := fun i => if i = 0 then 4 else 0, size_lt := by decide,
        buffer_lt := fun i => by split <;> decide } 1 = (n, some ((2 + 1 % 8) % 2 ^ 32)) :=
  rtlFindNextForwardRunSet_unaligned _ (by decide) (q := 2) (by decide) (by decide) (by decide)
    (fun i h1 h2 => by
      obtain rfl : i = 1 := by omega
      decide) (by decide)

end Runs

/-! ## The search from a hint -/

section Search

/-- A hint past the end of the bitmap is to be replaced by `0`, but when `ulHint + ulCount`
wraps past `2^32` the sum is small and the hint is kept: the search starts past the end and
finds nothing, whatever the bits. -/
theorem rtlFindSetBits_wrapped_hint (bm : RtlBitmap) {count hint : Nat} (hcount : 0 < count)
    (hsize : count ≤ bm.size) (hhint : bm.size ≤ hint) (hhint32 : hint < 2 ^ 32)
    (hwrap : 2 ^ 32 ≤ hint + count) :
    rtlFindSetBits bm count hint = ulongMax := by
  have hsum : (hint + count) % 2 ^ 32 = hint + count - 2 ^ 32 := by
    rw [Nat.mod_eq_sub_mod hwrap]
    exact Nat.mod_eq_of_lt (by omega)
  have hkept : ¬bm.size < (hint + count) % 2 ^ 32 := by
    rw [hsum]
    omega
  unfold rtlFindSetBits findBits
  rw [if_neg (by omega)]
  simp only
  rw [if_neg hkept, findBitsLoop, if_neg (by omega)]

theorem rtlFindSetBits_full_from_max_hint :
    rtlFindSetBits
      { size := 32, buffer := fun _ => ulongMax, size_lt := by decide,
        buffer_lt := fun _ => by decide } 1 ulongMax = ulongMax ∧
    RtlBitmap.bit
      { size := 32, buffer := fun _ => ulongMax, size_lt := by decide,
        buffer_lt := fun _ => by decide } 0 = true :=
  ⟨rtlFindSetBits_wrapped_hint _ (by decide) (by decide) (by decide) (by decide) (by decide),
    by decide⟩

end Search

end Wine.Ntdll.Bitmap
