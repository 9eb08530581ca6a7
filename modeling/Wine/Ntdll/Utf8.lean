import Wine.Status
import Mathlib

/-!
# UTF-8 conversions (`dlls/ntdll/locale_private.h`)

`utf8_mbstowcs` and `utf8_wcstombs` with `decode_utf8_char` and `get_utf16`. Bytes and code
units are naturals below `2^8` and `2^16`; every value the code stores fits its type, so no
truncation is modelled. A source is the list of its `srclen` elements and a destination the
list of what is written below `dstlen`.

Above them, the scalar values of Unicode with their UTF-16 and UTF-8 encodings, and the
well-formed sequences of each encoding form (for UTF-8, Table 3-7 of the Unicode standard);
the conversions map the encoding of every list of scalars to the other encoding.
-/

namespace Wine.Ntdll.Utf8

set_option autoImplicit false

/-! ## The code -/

def isHighSurrogate (ch : Nat) : Bool := 0xd800 ≤ ch && ch ≤ 0xdbff
def isLowSurrogate (ch : Nat) : Bool := 0xdc00 ≤ ch && ch ≤ 0xdfff

/-- `get_utf16`: the code point at the head of `src` and how many units it takes. -/
def getUtf16 : List Nat → Option (Nat × Nat)
  | [] => none
  | c :: rest =>
    if isHighSurrogate c then
      match rest with
      | [] => none
      | d :: _ =>
        if !isLowSurrogate d then none
        else some (0x10000 + ((c &&& 0x3ff) <<< 10) + (d &&& 0x3ff), 2)
    else if isLowSurrogate c then none
    else some (c, 1)

/-- `utf8_length[ch - 0x80]`: the number of bytes after a lead byte. -/
def utf8Length (ch : Nat) : Nat :=
  if ch < 0xc2 then 0 else if ch < 0xe0 then 1 else if ch < 0xf0 then 2 else if ch < 0xf5 then 3
  else 0

def utf8Mask : Nat → Nat
  | 0 => 0x7f
  | 1 => 0x1f
  | 2 => 0x0f
  | _ => 0x07

/-- The `~0` of an invalid sequence. -/
def invalidChar : Nat := 0xffffffff

/-- `case 1:` the byte `end[-1]`; the result and how far `*str` moved. -/
def decodeCase1 (res adv b : Nat) : Nat × Nat :=
  let c := b ^^^ 0x80
  if 0x40 ≤ c then (invalidChar, adv)
  else
    let res := res <<< 6 ||| c
    if res < 0x80 then (invalidChar, adv + 1) else (res, adv + 1)

/-- `case 2:` the byte `end[-2]`, falling through to `case 1`. -/
def decodeCase2 (res adv b b1 : Nat) : Nat × Nat :=
  let c := b ^^^ 0x80
  if 0x40 ≤ c then (invalidChar, adv)
  else
    let res := res <<< 6 ||| c
    if 0x110000 >>> 6 ≤ res then (invalidChar, adv)
    else if res < 0x20 then (invalidChar, adv + 1)
    else if 0xd800 >>> 6 ≤ res ∧ res ≤ 0xdfff >>> 6 then (invalidChar, adv + 1)
    else decodeCase1 res (adv + 1) b1

/-- `case 3:` the byte `end[-3]`, falling through to `case 2`. -/
def decodeCase3 (res b b1 b2 : Nat) : Nat × Nat :=
  let c := b ^^^ 0x80
  if 0x40 ≤ c then (invalidChar, 0)
  else
    let res := res <<< 6 ||| c
    if res < 0x10 then (invalidChar, 1) else decodeCase2 res 1 b1 b2

/-- `decode_utf8_char( ch, &str, strend )` with `str` the bytes after the lead byte `ch`: the
value and how far `*str` moved. A sequence cut by `strend` moves it to the sequence's end. -/
def decodeUtf8Char (ch : Nat) (str : List Nat) : Nat × Nat :=
  let len := utf8Length ch
  let res := ch &&& utf8Mask len
  if str.length < len then (invalidChar, len)
  else match len, str with
    | 3, b :: b1 :: b2 :: _ => decodeCase3 res b b1 b2
    | 2, b :: b1 :: _ => decodeCase2 res 0 b b1
    | 1, b :: _ => decodeCase1 res 0 b
    | _, _ => (invalidChar, 0)

/-- The loop of `utf8_mbstowcs` with `room` units left in the destination: the units written,
the bytes not read, and `status`. -/
def mbsLoop : Nat → Nat → List Nat → NtStatus → List Nat × List Nat × NtStatus
  | 0, _, src, status => ([], src, status)
  | _ + 1, _, [], status => ([], [], status)
  | fuel + 1, room, ch :: src, status =>
    if room = 0 then ([], ch :: src, status)
    else if ch < 0x80 then
      let r := mbsLoop fuel (room - 1) src status
      (ch :: r.1, r.2)
    else
      let d := decodeUtf8Char ch src
      let src := src.drop d.2
      if d.1 ≤ 0xffff then
        let r := mbsLoop fuel (room - 1) src status
        (d.1 :: r.1, r.2)
      else if d.1 ≤ 0x10ffff then
        let res := d.1 - 0x10000
        -- the second surrogate needs a second unit
        if room = 1 then ([0xd800 ||| (res >>> 10)], src, .bufferTooSmall)
        else
          let r := mbsLoop fuel (room - 2) src status
          ((0xd800 ||| (res >>> 10)) :: (0xdc00 ||| (res &&& 0x3ff)) :: r.1, r.2)
      else
        let r := mbsLoop fuel (room - 1) src .someNotMapped
        (0xfffd :: r.1, r.2)

/-- `utf8_mbstowcs( dst, dstlen, &reslen, src, srclen )`: the `reslen` units and the status. -/
def utf8Mbstowcs (dstlen : Nat) (src : List Nat) : List Nat × NtStatus :=
  let r := mbsLoop src.length dstlen src .success
  (r.1, if r.2.1 ≠ [] then .bufferTooSmall else r.2.2)

-- the encoded surrogate `ED A0 80`: `ED A0` is one invalid sequence, `80` another
example : utf8Mbstowcs 20 [0xed, 0xa0, 0x80] = ([0xfffd, 0xfffd], .someNotMapped) := by decide

/-- The bytes of a code point of 3 or 4 bytes, as the code shifts them out. -/
def threeBytes (val : Nat) : List Nat :=
  [0xe0 ||| (val >>> 12), 0x80 ||| ((val >>> 6) &&& 0x3f), 0x80 ||| (val &&& 0x3f)]

def fourBytes (val : Nat) : List Nat :=
  [0xf0 ||| (val >>> 18), 0x80 ||| ((val >>> 12) &&& 0x3f), 0x80 ||| ((val >>> 6) &&& 0x3f),
    0x80 ||| (val &&& 0x3f)]

/-- The loop of `utf8_wcstombs` with `room` bytes left: the bytes written, the units not
converted, and `status`. -/
def wcsLoop : Nat → List Nat → NtStatus → List Nat × List Nat × NtStatus
  | _, [], status => ([], [], status)
  | room, ch :: src, status =>
    if ch < 0x80 then
      if room < 1 then ([], ch :: src, status)
      else
        let r := wcsLoop (room - 1) src status
        (ch :: r.1, r.2)
    else if ch < 0x800 then
      if room < 2 then ([], ch :: src, status)
      else
        let r := wcsLoop (room - 2) src status
        ((0xc0 ||| (ch >>> 6)) :: (0x80 ||| (ch &&& 0x3f)) :: r.1, r.2)
    else
      let g := getUtf16 (ch :: src)
      let val := match g with | some p => p.1 | none => 0xfffd
      let status := if g.isNone then .someNotMapped else status
      if val < 0x10000 then
        if room < 3 then ([], ch :: src, status)
        else
          let r := wcsLoop (room - 3) src status
          (threeBytes val ++ r.1, r.2)
      else if room < 4 then ([], ch :: src, status)
      else
        -- the low surrogate is consumed with the high one
        match src with
        | [] => ([], [], status)
        | _ :: src =>
          let r := wcsLoop (room - 4) src status
          (fourBytes val ++ r.1, r.2)

/-- `utf8_wcstombs( dst, dstlen, &reslen, src, srclen )`: the `reslen` bytes and the status. -/
def utf8Wcstombs (dstlen : Nat) (src : List Nat) : List Nat × NtStatus :=
  let r := wcsLoop dstlen src .success
  (r.1, if r.2.1 ≠ [] then .bufferTooSmall else r.2.2)

/-- The loop of `utf8_wcstombs_size`: the bytes the units take, and `status`. -/
def wcsSizeLoop : List Nat → NtStatus → Nat × NtStatus
  | [], status => (0, status)
  | ch :: src, status =>
    if ch < 0x80 then
      let r := wcsSizeLoop src status
      (r.1 + 1, r.2)
    else if ch < 0x800 then
      let r := wcsSizeLoop src status
      (r.1 + 2, r.2)
    else
      let g := getUtf16 (ch :: src)
      let val := match g with | some p => p.1 | none => 0xfffd
      let status := if g.isNone then .someNotMapped else status
      if val < 0x10000 then
        let r := wcsSizeLoop src status
        (r.1 + 3, r.2)
      else
        match src with
        | [] => (4, status)
        | _ :: src =>
          let r := wcsSizeLoop src status
          (r.1 + 4, r.2)

/-- `utf8_wcstombs_size( src, srclen, &reslen )`: `reslen` and the status. -/
def utf8WcstombsSize (src : List Nat) : Nat × NtStatus := wcsSizeLoop src .success

/-- The loop of `utf8_mbstowcs_size`: the units the bytes take, and `status`. -/
def mbsSizeLoop : Nat → List Nat → NtStatus → Nat × NtStatus
  | 0, _, status => (0, status)
  | _ + 1, [], status => (0, status)
  | fuel + 1, ch :: src, status =>
    if ch < 0x80 then
      let r := mbsSizeLoop fuel src status
      (r.1 + 1, r.2)
    else
      let d := decodeUtf8Char ch src
      let src := src.drop d.2
      if 0x10ffff < d.1 then
        let r := mbsSizeLoop fuel src .someNotMapped
        (r.1 + 1, r.2)
      else if 0xffff < d.1 then
        -- a surrogate pair
        let r := mbsSizeLoop fuel src status
        (r.1 + 2, r.2)
      else
        let r := mbsSizeLoop fuel src status
        (r.1 + 1, r.2)

/-- `utf8_mbstowcs_size( src, srclen, &reslen )`: `reslen` and the status. -/
def utf8MbstowcsSize (src : List Nat) : Nat × NtStatus := mbsSizeLoop src.length src .success

-- a lone high surrogate is counted as the three bytes of U+FFFD
example : utf8WcstombsSize [0xd800, 0x41] = (4, .someNotMapped) := by decide

/-! ## Scalar values and the two encoding forms -/

def IsScalar (c : Nat) : Prop := c < 0x110000 ∧ ¬(0xd800 ≤ c ∧ c ≤ 0xdfff)

def utf16Units (c : Nat) : List Nat :=
  if c < 0x10000 then [c] else [0xd800 + (c - 0x10000) / 0x400, 0xdc00 + (c - 0x10000) % 0x400]

/-- The UTF-8 bytes of a scalar value. -/
def utf8Bytes (c : Nat) : List Nat :=
  if c < 0x80 then [c]
  else if c < 0x800 then [0xc0 + c / 64, 0x80 + c % 64]
  else if c < 0x10000 then [0xe0 + c / 4096, 0x80 + c / 64 % 64, 0x80 + c % 64]
  else [0xf0 + c / 262144, 0x80 + c / 4096 % 64, 0x80 + c / 64 % 64, 0x80 + c % 64]

/-- UTF-16 without unpaired surrogates. -/
inductive Utf16Ok : List Nat → Prop where
  | nil : Utf16Ok []
  | unit {c : Nat} {rest : List Nat} : c < 0x10000 → ¬(0xd800 ≤ c ∧ c ≤ 0xdfff) → Utf16Ok rest →
      Utf16Ok (c :: rest)
  | pair {h l : Nat} {rest : List Nat} : 0xd800 ≤ h → h ≤ 0xdbff → 0xdc00 ≤ l → l ≤ 0xdfff →
      Utf16Ok rest → Utf16Ok (h :: l :: rest)

def IsTail (b : Nat) : Prop := 0x80 ≤ b ∧ b ≤ 0xbf

/-- A well-formed byte sequence of one scalar value, a row of Table 3-7. -/
inductive Char8 : List Nat → Prop where
  | one {a : Nat} : a ≤ 0x7f → Char8 [a]
  | two {a b : Nat} : 0xc2 ≤ a → a ≤ 0xdf → IsTail b → Char8 [a, b]
  | e0 {b c : Nat} : 0xa0 ≤ b → b ≤ 0xbf → IsTail c → Char8 [0xe0, b, c]
  | e1ec {a b c : Nat} : 0xe1 ≤ a → a ≤ 0xec → IsTail b → IsTail c → Char8 [a, b, c]
  | ed {b c : Nat} : 0x80 ≤ b → b ≤ 0x9f → IsTail c → Char8 [0xed, b, c]
  | eeef {a b c : Nat} : 0xee ≤ a → a ≤ 0xef → IsTail b → IsTail c → Char8 [a, b, c]
  | f0 {b c d : Nat} : 0x90 ≤ b → b ≤ 0xbf → IsTail c → IsTail d → Char8 [0xf0, b, c, d]
  | f1f3 {a b c d : Nat} : 0xf1 ≤ a → a ≤ 0xf3 → IsTail b → IsTail c → IsTail d →
      Char8 [a, b, c, d]
  | f4 {b c d : Nat} : 0x80 ≤ b → b ≤ 0x8f → IsTail c → IsTail d → Char8 [0xf4, b, c, d]

/-- Well-formed UTF-8: a sequence of rows of Table 3-7. -/
inductive Utf8Ok : List Nat → Prop where
  | nil : Utf8Ok []
  | cons {c rest : List Nat} : Char8 c → Utf8Ok rest → Utf8Ok (c ++ rest)

theorem length_utf16Units_pos (c : Nat) : 0 < (utf16Units c).length := by
  unfold utf16Units
  split <;> simp

theorem length_utf16Units_le (c : Nat) :
    (utf16Units c).length ≤ (utf8Bytes c).length := by
  by_cases h : c < 0x10000
  · have : 1 ≤ (utf8Bytes c).length := by unfold utf8Bytes; split_ifs <;> simp
    simpa [utf16Units, h] using this
  · simp [utf16Units, utf8Bytes, h, show ¬c < 0x80 by omega, show ¬c < 0x800 by omega]

theorem length_utf8Bytes_le (c : Nat) : (utf8Bytes c).length ≤ 3 * (utf16Units c).length := by
  unfold utf16Units utf8Bytes
  split_ifs <;> simp

theorem utf16Units_pair {h l : Nat} (hh : 0xd800 ≤ h) (hh' : h ≤ 0xdbff) (hl : 0xdc00 ≤ l)
    (hl' : l ≤ 0xdfff) : utf16Units (0x10000 + (h - 0xd800) * 0x400 + (l - 0xdc00)) = [h, l] := by
  rw [utf16Units, if_neg (by omega)]
  simp only [List.cons.injEq, and_true]
  omega

theorem Utf16Ok.exists_scalars {s : List Nat} (hs : Utf16Ok s) :
    ∃ cs : List Nat, (∀ c ∈ cs, IsScalar c) ∧ s = cs.flatMap utf16Units := by
  induction hs with
  | nil => exact ⟨[], by simp, rfl⟩
  | @unit c rest hc hsur _ ih =>
    obtain ⟨cs, hcs, rfl⟩ := ih
    exact ⟨c :: cs, List.forall_mem_cons.mpr ⟨⟨by omega, hsur⟩, hcs⟩, by simp [utf16Units, hc]⟩
  | @pair h l rest hh hh' hl hl' _ ih =>
    obtain ⟨cs, hcs, rfl⟩ := ih
    have hscalar : IsScalar (0x10000 + (h - 0xd800) * 0x400 + (l - 0xdc00)) := by
      unfold IsScalar
      omega
    refine ⟨_ :: cs, ?_, by rw [List.flatMap_cons, utf16Units_pair hh hh' hl hl']; rfl⟩
    intro x hx
    rcases List.mem_cons.mp hx with hx | hx
    · rw [hx]
      exact hscalar
    · exact hcs x hx

theorem utf8Bytes_two {a b : Nat} (ha : 0xc2 ≤ a) (ha' : a ≤ 0xdf) (hb : IsTail b) :
    utf8Bytes ((a - 0xc0) * 64 + (b - 0x80)) = [a, b] := by
  obtain ⟨hb, hb'⟩ := hb
  rw [utf8Bytes, if_neg (by omega), if_pos (by omega)]
  simp only [List.cons.injEq, and_true]
  omega

theorem utf8Bytes_three {a b c : Nat} (ha : 0xe0 ≤ a) (ha' : a ≤ 0xef) (hb : IsTail b)
    (hc : IsTail c) (hlo : 0x800 ≤ (a - 0xe0) * 4096 + (b - 0x80) * 64 + (c - 0x80)) :
    utf8Bytes ((a - 0xe0) * 4096 + (b - 0x80) * 64 + (c - 0x80)) = [a, b, c] := by
  obtain ⟨hb, hb'⟩ := hb
  obtain ⟨hc, hc'⟩ := hc
  rw [utf8Bytes, if_neg (by omega), if_neg (by omega), if_pos (by omega)]
  simp only [List.cons.injEq, and_true]
  omega

theorem utf8Bytes_four {a b c d : Nat} (ha : 0xf0 ≤ a) (ha' : a ≤ 0xf4) (hb : IsTail b)
    (hc : IsTail c) (hd : IsTail d)
    (hlo : 0x10000 ≤ (a - 0xf0) * 262144 + (b - 0x80) * 4096 + (c - 0x80) * 64 + (d - 0x80)) :
    utf8Bytes ((a - 0xf0) * 262144 + (b - 0x80) * 4096 + (c - 0x80) * 64 + (d - 0x80)) =
      [a, b, c, d] := by
  obtain ⟨hb, hb'⟩ := hb
  obtain ⟨hc, hc'⟩ := hc
  obtain ⟨hd, hd'⟩ := hd
  rw [utf8Bytes, if_neg (by omega), if_neg (by omega), if_neg (by omega)]
  simp only [List.cons.injEq, and_true]
  omega

theorem Char8.exists_scalar {b : List Nat} (hb : Char8 b) :
    ∃ c, IsScalar c ∧ b = utf8Bytes c := by
  cases hb with
  | @one a ha => exact ⟨a, ⟨by omega, by omega⟩, by simp [utf8Bytes, show a < 0x80 by omega]⟩
  | @two a b ha ha' hb =>
    have := hb
    obtain ⟨hb1, hb2⟩ := this
    exact ⟨_, ⟨by omega, by omega⟩, (utf8Bytes_two ha ha' hb).symm⟩
  | @e0 b c hb hb' hc =>
    have := hc
    obtain ⟨hc1, hc2⟩ := this
    exact ⟨_, ⟨by omega, by omega⟩, (utf8Bytes_three le_rfl (by omega) ⟨hb.trans' (by omega), hb'⟩ hc (by omega)).symm⟩
  | @e1ec a b c ha ha' hb hc =>
    have := hb
    have := hc
    unfold IsTail at *
    exact ⟨_, ⟨by omega, by omega⟩, (utf8Bytes_three (by omega) (by omega) hb hc (by omega)).symm⟩
  | @ed b c hb hb' hc =>
    have := hc
    unfold IsTail at *
    exact ⟨_, ⟨by omega, by omega⟩, (utf8Bytes_three (by omega) (by omega) ⟨hb, by omega⟩ hc (by omega)).symm⟩
  | @eeef a b c ha ha' hb hc =>
    unfold IsTail at *
    exact ⟨_, ⟨by omega, by omega⟩, (utf8Bytes_three (by omega) ha' hb hc (by omega)).symm⟩
  | @f0 b c d hb hb' hc hd =>
    unfold IsTail at *
    exact ⟨_, ⟨by omega, by omega⟩, (utf8Bytes_four le_rfl (by omega) ⟨by omega, hb'⟩ hc hd (by omega)).symm⟩
  | @f1f3 a b c d ha ha' hb hc hd =>
    unfold IsTail at *
    exact ⟨_, ⟨by omega, by omega⟩, (utf8Bytes_four (by omega) (by omega) hb hc hd (by omega)).symm⟩
  | @f4 b c d hb hb' hc hd =>
    unfold IsTail at *
    exact ⟨_, ⟨by omega, by omega⟩, (utf8Bytes_four (by omega) le_rfl ⟨hb, by omega⟩ hc hd (by omega)).symm⟩

theorem Utf8Ok.exists_scalars {b : List Nat} (hb : Utf8Ok b) :
    ∃ cs : List Nat, (∀ c ∈ cs, IsScalar c) ∧ b = cs.flatMap utf8Bytes := by
  induction hb with
  | nil => exact ⟨[], by simp, rfl⟩
  | cons hc _ ih =>
    obtain ⟨c, hsc, rfl⟩ := hc.exists_scalar
    obtain ⟨cs, hcs, rfl⟩ := ih
    exact ⟨c :: cs, List.forall_mem_cons.mpr ⟨hsc, hcs⟩, by simp⟩

/-! ## The bit operations of the conversions as arithmetic -/

theorem or_eq_add {n x : Nat} (k a : Nat) (hn : n = 2 ^ k * a) (hx : x < 2 ^ k) :
    n ||| x = n + x := by
  subst hn
  exact (Nat.two_pow_add_eq_or_of_lt hx a).symm

theorem and_eq_mod (x : Nat) {m : Nat} (k : Nat) (hm : m = 2 ^ k - 1) : x &&& m = x % 2 ^ k := by
  subst hm
  exact Nat.and_two_pow_sub_one_eq_mod x k

theorem shiftLeft_six_or {res y : Nat} (hy : y < 64) : res <<< 6 ||| y = res * 64 + y := by
  rw [Nat.shiftLeft_eq, or_eq_add 6 res (Nat.mul_comm _ _) hy]
  rfl

theorem tail_xor {y : Nat} (hy : y < 64) : (0x80 + y) ^^^ 0x80 = y := by
  have key : ∀ y < 64, (0x80 + y) ^^^ 0x80 = y := by decide
  exact key y hy

theorem twoBytes_eq {ch : Nat} (h : ch < 0x800) :
    [0xc0 ||| (ch >>> 6), 0x80 ||| (ch &&& 0x3f)] = [0xc0 + ch / 64, 0x80 + ch % 64] := by
  have h1 : ch >>> 6 < 2 ^ 6 := by rw [Nat.shiftRight_eq_div_pow]; omega
  rw [or_eq_add (n := 0xc0) 6 3 rfl h1, and_eq_mod ch (m := 0x3f) 6 rfl, or_eq_add (n := 0x80) 6 2 rfl (Nat.mod_lt _ (by omega)),
    Nat.shiftRight_eq_div_pow]
  rfl

theorem threeBytes_eq {val : Nat} (h : val < 0x10000) :
    threeBytes val = [0xe0 + val / 4096, 0x80 + val / 64 % 64, 0x80 + val % 64] := by
  have h1 : val >>> 12 < 2 ^ 4 := by rw [Nat.shiftRight_eq_div_pow]; omega
  unfold threeBytes
  rw [or_eq_add (n := 0xe0) 4 14 rfl h1, and_eq_mod _ (m := 0x3f) 6 rfl, and_eq_mod val (m := 0x3f) 6 rfl,
    or_eq_add (n := 0x80) 6 2 rfl (Nat.mod_lt _ (by omega)), or_eq_add (n := 0x80) 6 2 rfl (Nat.mod_lt _ (by omega)),
    Nat.shiftRight_eq_div_pow, Nat.shiftRight_eq_div_pow]
  rfl

theorem fourBytes_eq {val : Nat} (h : val < 0x110000) :
    fourBytes val =
      [0xf0 + val / 262144, 0x80 + val / 4096 % 64, 0x80 + val / 64 % 64, 0x80 + val % 64] := by
  have h1 : val >>> 18 < 2 ^ 3 := by rw [Nat.shiftRight_eq_div_pow]; omega
  unfold fourBytes
  rw [or_eq_add (n := 0xf0) 3 30 rfl h1, and_eq_mod _ (m := 0x3f) 6 rfl, and_eq_mod _ (m := 0x3f) 6 rfl, and_eq_mod val (m := 0x3f) 6 rfl,
    or_eq_add (n := 0x80) 6 2 rfl (Nat.mod_lt _ (by omega)), or_eq_add (n := 0x80) 6 2 rfl (Nat.mod_lt _ (by omega)),
    or_eq_add (n := 0x80) 6 2 rfl (Nat.mod_lt _ (by omega)), Nat.shiftRight_eq_div_pow,
    Nat.shiftRight_eq_div_pow, Nat.shiftRight_eq_div_pow]
  rfl

theorem surrogates_eq {c : Nat} (h : 0x10000 ≤ c) (h' : c < 0x110000) :
    [0xd800 ||| ((c - 0x10000) >>> 10), 0xdc00 ||| ((c - 0x10000) &&& 0x3ff)] =
      utf16Units c := by
  have h1 : (c - 0x10000) >>> 10 < 2 ^ 10 := by rw [Nat.shiftRight_eq_div_pow]; omega
  rw [or_eq_add (n := 0xd800) 10 54 rfl h1, and_eq_mod _ (m := 0x3ff) 10 rfl, or_eq_add (n := 0xdc00) 10 55 rfl (Nat.mod_lt _ (by omega)),
    Nat.shiftRight_eq_div_pow, utf16Units, if_neg (by omega)]
  rfl

/-! ## `utf8_wcstombs` on UTF-16 without unpaired surrogates -/

theorem getUtf16_unit {c : Nat} (hc : c < 0x10000) (hsur : ¬(0xd800 ≤ c ∧ c ≤ 0xdfff))
    (rest : List Nat) : getUtf16 (c :: rest) = some (c, 1) := by
  have hh : isHighSurrogate c = false := by simp [isHighSurrogate]; omega
  have hl : isLowSurrogate c = false := by simp [isLowSurrogate]; omega
  simp [getUtf16, hh, hl]

theorem getUtf16_pair {c : Nat} (h : 0x10000 ≤ c) (h' : c < 0x110000) (rest : List Nat) :
    getUtf16 (utf16Units c ++ rest) = some (c, 2) := by
  have hh : isHighSurrogate (0xd800 + (c - 0x10000) / 0x400) = true := by
    simp [isHighSurrogate]; omega
  have hl : isLowSurrogate (0xdc00 + (c - 0x10000) % 0x400) = true := by
    simp [isLowSurrogate]; omega
  rw [utf16Units, if_neg (by omega)]
  simp only [List.cons_append, List.nil_append, getUtf16, hh, hl, if_true, Bool.not_true,
    Bool.false_eq_true, if_false, and_eq_mod _ (m := 0x3ff) 10 rfl, Nat.shiftLeft_eq,
    Option.some.injEq, Prod.mk.injEq, and_true]
  omega

theorem wcsLoop_scalar {c room : Nat} (hc : IsScalar c) (hroom : (utf8Bytes c).length ≤ room)
    (rest : List Nat) (status : NtStatus) :
    wcsLoop room (utf16Units c ++ rest) status =
      let r := wcsLoop (room - (utf8Bytes c).length) rest status
      (utf8Bytes c ++ r.1, r.2) := by
  obtain ⟨hmax, hsur⟩ := hc
  by_cases h1 : c < 0x80
  · have hb : utf8Bytes c = [c] := by simp [utf8Bytes, h1]
    rw [hb] at hroom ⊢
    rw [utf16Units, if_pos (by omega), List.singleton_append, wcsLoop.eq_2, if_pos h1,
      if_neg (by simp at hroom; omega)]
    rfl
  by_cases h2 : c < 0x800
  · have hb : utf8Bytes c = [0xc0 + c / 64, 0x80 + c % 64] := by simp [utf8Bytes, h1, h2]
    rw [hb] at hroom ⊢
    rw [utf16Units, if_pos (by omega), List.singleton_append, wcsLoop.eq_2, if_neg h1, if_pos h2,
      if_neg (by simp at hroom; omega)]
    simp only [← twoBytes_eq h2]
    rfl
  by_cases h3 : c < 0x10000
  · have hb : utf8Bytes c = threeBytes c := by simp [utf8Bytes, h1, h2, h3, threeBytes_eq h3]
    rw [hb] at hroom ⊢
    rw [utf16Units, if_pos h3, List.singleton_append, wcsLoop.eq_2, if_neg h1, if_neg h2]
    simp only [getUtf16_unit h3 hsur, Option.isNone_some, if_pos h3,
      if_neg (show ¬room < 3 by simp [threeBytes] at hroom; omega)]
    rfl
  · have hb : utf8Bytes c = fourBytes c := by simp [utf8Bytes, h1, h2, h3, fourBytes_eq hmax]
    have hunits : utf16Units c = [0xd800 + (c - 0x10000) / 0x400, 0xdc00 + (c - 0x10000) % 0x400] := by
      simp [utf16Units, h3]
    have hg := getUtf16_pair (by omega) hmax rest
    rw [hunits, List.cons_append, List.cons_append, List.nil_append] at hg
    rw [hb] at hroom ⊢
    rw [hunits, List.cons_append, List.cons_append, List.nil_append, wcsLoop.eq_2,
      if_neg (by omega), if_neg (by omega)]
    simp only [hg, Option.isNone_some, if_neg h3,
      if_neg (show ¬room < 4 by simp [fourBytes] at hroom; omega)]
    rfl

theorem wcsLoop_flatMap (cs : List Nat) (hcs : ∀ c ∈ cs, IsScalar c) (room : Nat)
    (hroom : (cs.flatMap utf8Bytes).length ≤ room) (status : NtStatus) :
    wcsLoop room (cs.flatMap utf16Units) status = (cs.flatMap utf8Bytes, [], status) := by
  induction cs generalizing room with
  | nil => simp [wcsLoop]
  | cons c cs ih =>
    have hc := hcs c (by simp)
    have hroom' : (utf8Bytes c).length + (cs.flatMap utf8Bytes).length ≤ room := by
      simpa using hroom
    rw [List.flatMap_cons, List.flatMap_cons, wcsLoop_scalar hc (by omega),
      ih (fun x hx => hcs x (by simp [hx])) _ (by omega)]

/-! ## `utf8_mbstowcs` on well-formed UTF-8 -/

theorem decodeCase1_tail {res adv y : Nat} (hy : y < 64) :
    decodeCase1 res adv (0x80 + y) =
      if res * 64 + y < 0x80 then (invalidChar, adv + 1) else (res * 64 + y, adv + 1) := by
  simp only [decodeCase1, tail_xor hy, if_neg (show ¬0x40 ≤ y by omega), shiftLeft_six_or hy]

theorem decodeCase2_tail {res adv y b1 : Nat} (hy : y < 64) :
    decodeCase2 res adv (0x80 + y) b1 =
      if 0x4400 ≤ res * 64 + y then (invalidChar, adv)
      else if res * 64 + y < 0x20 then (invalidChar, adv + 1)
      else if 0x360 ≤ res * 64 + y ∧ res * 64 + y ≤ 0x37f then (invalidChar, adv + 1)
      else decodeCase1 (res * 64 + y) (adv + 1) b1 := by
  simp only [decodeCase2, tail_xor hy, if_neg (show ¬0x40 ≤ y by omega), shiftLeft_six_or hy]
  rfl

theorem decodeCase3_tail {res y b1 b2 : Nat} (hy : y < 64) :
    decodeCase3 res (0x80 + y) b1 b2 =
      if res * 64 + y < 0x10 then (invalidChar, 1) else decodeCase2 (res * 64 + y) 1 b1 b2 := by
  simp only [decodeCase3, tail_xor hy, if_neg (show ¬0x40 ≤ y by omega), shiftLeft_six_or hy]

theorem decodeUtf8Char_two {c : Nat} (h : 0x80 ≤ c) (h' : c < 0x800) (rest : List Nat) :
    decodeUtf8Char (0xc0 + c / 64) ((0x80 + c % 64) :: rest) = (c, 1) := by
  have hlen : utf8Length (0xc0 + c / 64) = 1 := by unfold utf8Length; split_ifs <;> omega
  have hres : (0xc0 + c / 64) &&& utf8Mask 1 = c / 64 := by
    rw [utf8Mask, and_eq_mod _ (m := 0x1f) 5 rfl]
    omega
  simp only [decodeUtf8Char, hlen, hres, List.length_cons]
  rw [if_neg (by omega), decodeCase1_tail (by omega), if_neg (by omega)]
  congr 1
  omega

theorem decodeUtf8Char_three {c : Nat} (h : 0x800 ≤ c) (h' : c < 0x10000)
    (hsur : ¬(0xd800 ≤ c ∧ c ≤ 0xdfff)) (rest : List Nat) :
    decodeUtf8Char (0xe0 + c / 4096) ((0x80 + c / 64 % 64) :: (0x80 + c % 64) :: rest) =
      (c, 2) := by
  have hlen : utf8Length (0xe0 + c / 4096) = 2 := by unfold utf8Length; split_ifs <;> omega
  have hres : (0xe0 + c / 4096) &&& utf8Mask 2 = c / 4096 := by
    rw [utf8Mask, and_eq_mod _ (m := 0x0f) 4 rfl]
    omega
  have e1 : c / 4096 * 64 + c / 64 % 64 = c / 64 := by omega
  simp only [decodeUtf8Char, hlen, hres, List.length_cons]
  rw [if_neg (by omega), decodeCase2_tail (by omega), e1, if_neg (by omega), if_neg (by omega),
    if_neg (by omega), decodeCase1_tail (by omega), if_neg (by omega)]
  congr 1
  omega

theorem decodeUtf8Char_four {c : Nat} (h : 0x10000 ≤ c) (h' : c < 0x110000) (rest : List Nat) :
    decodeUtf8Char (0xf0 + c / 262144)
        ((0x80 + c / 4096 % 64) :: (0x80 + c / 64 % 64) :: (0x80 + c % 64) :: rest) = (c, 3) := by
  have hlen : utf8Length (0xf0 + c / 262144) = 3 := by unfold utf8Length; split_ifs <;> omega
  have hres : (0xf0 + c / 262144) &&& utf8Mask 3 = c / 262144 := by
    rw [show utf8Mask 3 = 0x07 from rfl, and_eq_mod _ (m := 0x07) 3 rfl]
    omega
  have e1 : c / 262144 * 64 + c / 4096 % 64 = c / 4096 := by omega
  have e2 : c / 4096 * 64 + c / 64 % 64 = c / 64 := by omega
  simp only [decodeUtf8Char, hlen, hres, List.length_cons]
  rw [if_neg (by omega), decodeCase3_tail (by omega), e1, if_neg (by omega),
    decodeCase2_tail (by omega), e2, if_neg (by omega), if_neg (by omega), if_neg (by omega),
    decodeCase1_tail (by omega), if_neg (by omega)]
  congr 1
  omega

theorem utf8Bytes_decode {c : Nat} (hc : IsScalar c) (h : 0x80 ≤ c) :
    ∃ lead tail, utf8Bytes c = lead :: tail ∧ 0x80 ≤ lead ∧
      ∀ rest, decodeUtf8Char lead (tail ++ rest) = (c, tail.length) := by
  obtain ⟨hmax, hsur⟩ := hc
  have h1 : ¬c < 0x80 := by omega
  by_cases h2 : c < 0x800
  · exact ⟨0xc0 + c / 64, [0x80 + c % 64], by simp [utf8Bytes, h1, h2], by omega,
      fun rest => decodeUtf8Char_two h h2 rest⟩
  by_cases h3 : c < 0x10000
  · exact ⟨0xe0 + c / 4096, [0x80 + c / 64 % 64, 0x80 + c % 64], by simp [utf8Bytes, h1, h2, h3],
      by omega, fun rest => decodeUtf8Char_three (by omega) h3 hsur rest⟩
  · exact ⟨0xf0 + c / 262144, [0x80 + c / 4096 % 64, 0x80 + c / 64 % 64, 0x80 + c % 64],
      by simp [utf8Bytes, h1, h2, h3], by omega, fun rest => decodeUtf8Char_four (by omega) hmax rest⟩

theorem mbsLoop_lead {lead c room fuel : Nat} {tail rest : List Nat} (hc : IsScalar c)
    (hroom : (utf16Units c).length ≤ room) (hlead : 0x80 ≤ lead)
    (hd : decodeUtf8Char lead (tail ++ rest) = (c, tail.length)) (status : NtStatus) :
    mbsLoop (fuel + 1) room (lead :: (tail ++ rest)) status =
      let r := mbsLoop fuel (room - (utf16Units c).length) rest status
      (utf16Units c ++ r.1, r.2) := by
  obtain ⟨hmax, -⟩ := hc
  have hroom0 : room ≠ 0 := by have := length_utf16Units_pos c; omega
  rw [mbsLoop.eq_3, if_neg hroom0, if_neg (by omega)]
  simp only [hd, List.drop_left]
  by_cases h : c ≤ 0xffff
  · have hu : utf16Units c = [c] := by simp [utf16Units]; omega
    rw [if_pos h, hu]
    rfl
  · have hu := surrogates_eq (by omega) hmax
    have hroom2 : 2 ≤ room := by rw [← hu] at hroom; simpa using hroom
    rw [if_neg h, if_pos (by omega), if_neg (by omega), ← hu]
    rfl

theorem mbsLoop_scalar {c room : Nat} (hc : IsScalar c) (hroom : (utf16Units c).length ≤ room)
    (fuel : Nat) (rest : List Nat) (status : NtStatus) :
    mbsLoop (fuel + 1) room (utf8Bytes c ++ rest) status =
      let r := mbsLoop fuel (room - (utf16Units c).length) rest status
      (utf16Units c ++ r.1, r.2) := by
  by_cases h : c < 0x80
  · have hb : utf8Bytes c = [c] := by simp [utf8Bytes, h]
    have hu : utf16Units c = [c] := by simp [utf16Units]; omega
    rw [hu] at hroom ⊢
    rw [hb, List.singleton_append, mbsLoop.eq_3, if_neg (by simp at hroom; omega), if_pos h]
    rfl
  · obtain ⟨lead, tail, hb, hlead, hd⟩ := utf8Bytes_decode hc (by omega)
    rw [hb, List.cons_append]
    exact mbsLoop_lead hc hroom hlead (hd rest) status

theorem mbsLoop_flatMap_append (cs : List Nat) (hcs : ∀ c ∈ cs, IsScalar c) (fuel room : Nat)
    (hfuel : (cs.flatMap utf8Bytes).length ≤ fuel)
    (hroom : (cs.flatMap utf16Units).length ≤ room) (rest : List Nat) (status : NtStatus) :
    mbsLoop fuel room (cs.flatMap utf8Bytes ++ rest) status =
      let r := mbsLoop (fuel - cs.length) (room - (cs.flatMap utf16Units).length) rest status
      (cs.flatMap utf16Units ++ r.1, r.2) := by
  induction cs generalizing fuel room with
  | nil => simp
  | cons c cs ih =>
    have hc := hcs c (by simp)
    have hpos := length_utf16Units_pos c
    have hle := length_utf16Units_le c
    simp only [List.flatMap_cons, List.length_append] at hfuel hroom
    obtain ⟨fuel, rfl⟩ : ∃ f, fuel = f + 1 := ⟨fuel - 1, by omega⟩
    rw [List.flatMap_cons, List.flatMap_cons, List.append_assoc, mbsLoop_scalar hc (by omega),
      ih (fun x hx => hcs x (by simp [hx])) _ _ (by omega) (by omega)]
    have hfuel' : fuel + 1 - (c :: cs).length = fuel - cs.length := by simp
    have hroom' : room - (utf16Units c ++ cs.flatMap utf16Units).length =
        room - (utf16Units c).length - (cs.flatMap utf16Units).length := by simp; omega
    rw [hfuel', hroom']
    simp

theorem mbsLoop_flatMap (cs : List Nat) (hcs : ∀ c ∈ cs, IsScalar c) (fuel room : Nat)
    (hfuel : (cs.flatMap utf8Bytes).length ≤ fuel)
    (hroom : (cs.flatMap utf16Units).length ≤ room) (status : NtStatus) :
    mbsLoop fuel room (cs.flatMap utf8Bytes) status = (cs.flatMap utf16Units, [], status) := by
  have h := mbsLoop_flatMap_append cs hcs fuel room hfuel hroom [] status
  rw [List.append_nil] at h
  rw [h]
  generalize fuel - cs.length = f
  cases f <;> simp [mbsLoop]

/-! ## The round trip -/

theorem length_flatMap_utf16Units_le (cs : List Nat) :
    (cs.flatMap utf16Units).length ≤ (cs.flatMap utf8Bytes).length := by
  induction cs with
  | nil => simp
  | cons c cs ih =>
    have := length_utf16Units_le c
    simp only [List.flatMap_cons, List.length_append]
    omega

theorem length_le_flatMap_utf16Units (cs : List Nat) : cs.length ≤ (cs.flatMap utf16Units).length := by
  induction cs with
  | nil => simp
  | cons c cs ih =>
    have := length_utf16Units_pos c
    simp only [List.flatMap_cons, List.length_append, List.length_cons]
    omega

theorem length_flatMap_utf8Bytes_le (cs : List Nat) :
    (cs.flatMap utf8Bytes).length ≤ 3 * (cs.flatMap utf16Units).length := by
  induction cs with
  | nil => simp
  | cons c cs ih =>
    have := length_utf8Bytes_le c
    simp only [List.flatMap_cons, List.length_append]
    omega

theorem utf8Wcstombs_flatMap (cs : List Nat) (hcs : ∀ c ∈ cs, IsScalar c) (dstlen : Nat)
    (hlen : (cs.flatMap utf8Bytes).length ≤ dstlen) :
    utf8Wcstombs dstlen (cs.flatMap utf16Units) = (cs.flatMap utf8Bytes, .success) := by
  rw [utf8Wcstombs, wcsLoop_flatMap cs hcs dstlen hlen]
  simp

theorem utf8Mbstowcs_flatMap (cs : List Nat) (hcs : ∀ c ∈ cs, IsScalar c) (dstlen : Nat)
    (hlen : (cs.flatMap utf16Units).length ≤ dstlen) :
    utf8Mbstowcs dstlen (cs.flatMap utf8Bytes) = (cs.flatMap utf16Units, .success) := by
  rw [utf8Mbstowcs, mbsLoop_flatMap cs hcs _ dstlen le_rfl hlen]
  simp

/-- `utf8_wcstombs` and `utf8_mbstowcs` invert each other on well-formed strings of either
encoding form, with destinations of `3` bytes a unit and `1` unit a byte. -/
theorem utf8_conversions_round_trip :
    (∀ s : List Nat, Utf16Ok s → ∀ dstlen, 3 * s.length ≤ dstlen →
      ∃ b, utf8Wcstombs dstlen s = (b, .success) ∧
        ∀ dstlen', s.length ≤ dstlen' → utf8Mbstowcs dstlen' b = (s, .success)) ∧
    (∀ b : List Nat, Utf8Ok b → ∀ dstlen, b.length ≤ dstlen →
      ∃ s, utf8Mbstowcs dstlen b = (s, .success) ∧
        ∀ dstlen', 3 * s.length ≤ dstlen' → utf8Wcstombs dstlen' s = (b, .success)) := by
  constructor
  · intro s hs dstlen hlen
    obtain ⟨cs, hcs, rfl⟩ := hs.exists_scalars
    refine ⟨cs.flatMap utf8Bytes,
      utf8Wcstombs_flatMap cs hcs dstlen ((length_flatMap_utf8Bytes_le cs).trans hlen), ?_⟩
    intro dstlen' hlen'
    exact utf8Mbstowcs_flatMap cs hcs dstlen' hlen'
  · intro b hb dstlen hlen
    obtain ⟨cs, hcs, rfl⟩ := hb.exists_scalars
    refine ⟨cs.flatMap utf16Units,
      utf8Mbstowcs_flatMap cs hcs dstlen ((length_flatMap_utf16Units_le cs).trans hlen), ?_⟩
    intro dstlen' hlen'
    exact utf8Wcstombs_flatMap cs hcs dstlen' ((length_flatMap_utf8Bytes_le cs).trans hlen')

theorem utf8_conversions_round_trip_smile :
    Utf16Ok [0x41, 0xd83d, 0xde00] ∧ Utf8Ok [0x41, 0xf0, 0x9f, 0x98, 0x80] ∧
      (∃ b, utf8Wcstombs 9 [0x41, 0xd83d, 0xde00] = (b, .success) ∧
        ∀ dstlen', 3 ≤ dstlen' → utf8Mbstowcs dstlen' b = ([0x41, 0xd83d, 0xde00], .success)) ∧
      (∃ s, utf8Mbstowcs 5 [0x41, 0xf0, 0x9f, 0x98, 0x80] = (s, .success) ∧
        ∀ dstlen', 3 * s.length ≤ dstlen' →
          utf8Wcstombs dstlen' s = ([0x41, 0xf0, 0x9f, 0x98, 0x80], .success)) := by
  have h16 : Utf16Ok [0x41, 0xd83d, 0xde00] :=
    .unit (by decide) (by decide) (.pair (by decide) (by decide) (by decide) (by decide) .nil)
  have h8 : Utf8Ok [0x41, 0xf0, 0x9f, 0x98, 0x80] :=
    Utf8Ok.cons (c := [0x41]) (.one (by decide))
      (Utf8Ok.cons (c := [0xf0, 0x9f, 0x98, 0x80])
        (.f0 (by decide) (by decide) ⟨by decide, by decide⟩ ⟨by decide, by decide⟩) .nil)
  exact ⟨h16, h8, utf8_conversions_round_trip.1 _ h16 9 (by decide),
    utf8_conversions_round_trip.2 _ h8 5 (by decide)⟩

/-! ## Sequences cut short by the end of the input -/

theorem mbsLoop_truncated {ch : Nat} (hch : 0x80 ≤ ch) {tail : List Nat}
    (htail : tail.length < utf8Length ch) (fuel : Nat) {room : Nat} (hroom : 0 < room)
    (status : NtStatus) :
    mbsLoop (fuel + 1) room (ch :: tail) status = ([0xfffd], [], .someNotMapped) := by
  have hd : decodeUtf8Char ch tail = (invalidChar, utf8Length ch) := by
    unfold decodeUtf8Char
    rw [if_pos htail]
  rw [mbsLoop.eq_3, if_neg (by omega), if_neg (by omega)]
  simp only [hd, List.drop_eq_nil_of_le (Nat.le_of_lt htail)]
  rw [if_neg (by decide), if_neg (by decide)]
  cases fuel <;> rfl

/-- After well-formed text, a sequence cut short by the end of the input turns into one
U+FFFD, and the bytes after its lead byte, whatever they are, into nothing. -/
theorem utf8Mbstowcs_truncated_drops_tail (cs : List Nat) (hcs : ∀ c ∈ cs, IsScalar c)
    {ch : Nat} (hch : 0x80 ≤ ch) (tail : List Nat) (htail : tail.length < utf8Length ch)
    (dstlen : Nat) (hlen : (cs.flatMap utf16Units).length < dstlen) :
    utf8Mbstowcs dstlen (cs.flatMap utf8Bytes ++ ch :: tail) =
      (cs.flatMap utf16Units ++ [0xfffd], .someNotMapped) := by
  have hle := length_flatMap_utf16Units_le cs
  have hcs_le := length_le_flatMap_utf16Units cs
  unfold utf8Mbstowcs
  rw [mbsLoop_flatMap_append cs hcs _ dstlen (by simp) (by omega)]
  obtain ⟨f, hf⟩ : ∃ f, (cs.flatMap utf8Bytes ++ ch :: tail).length - cs.length = f + 1 :=
    ⟨(cs.flatMap utf8Bytes ++ ch :: tail).length - cs.length - 1, by
      rw [List.length_append, List.length_cons]
      omega⟩
  simp only [hf, mbsLoop_truncated hch htail f
    (by omega : 0 < dstlen - (cs.flatMap utf16Units).length)]
  simp

theorem utf8Mbstowcs_e0_a : utf8Mbstowcs 2 [0xe0, 0x41] = ([0xfffd], .someNotMapped) := by
  simpa using utf8Mbstowcs_truncated_drops_tail [] (by simp) (by decide) [0x41] (by decide) 2
    (by decide)

/-! ## The size functions

`utf8_wcstombs_size` and `utf8_mbstowcs_size` repeat the case analysis of the converters. Both
converters are read one character at a time: `wcsChar` is what `utf8_wcstombs` writes for the
character at the head of its input, and every fact about the two loops follows from one
equation per loop in its terms. -/

/-- The code point `utf8_wcstombs` encodes for a unit at or above `0x800`: what `get_utf16`
reads there, or U+FFFD. -/
def wcsVal (ch : Nat) (src : List Nat) : Nat :=
  match getUtf16 (ch :: src) with | some p => p.1 | none => 0xfffd

/-- What `utf8_wcstombs` writes for the character that starts with the unit `ch`, the units
after the character, and whether it was not mapped. -/
def wcsChar (ch : Nat) (src : List Nat) : List Nat × List Nat × Bool :=
  if ch < 0x80 then ([ch], src, false)
  else if ch < 0x800 then ([0xc0 ||| (ch >>> 6), 0x80 ||| (ch &&& 0x3f)], src, false)
  else if wcsVal ch src < 0x10000 then (threeBytes (wcsVal ch src), src, (getUtf16 (ch :: src)).isNone)
  else (fourBytes (wcsVal ch src), src.tail, (getUtf16 (ch :: src)).isNone)

theorem wcsChar_rest (ch : Nat) (src : List Nat) :
    ∃ pre, ch :: src = pre ++ (wcsChar ch src).2.1 := by
  unfold wcsChar
  split
  · exact ⟨[ch], rfl⟩
  · split
    · exact ⟨[ch], rfl⟩
    · split
      · exact ⟨[ch], rfl⟩
      · cases src with
        | nil => exact ⟨[ch], rfl⟩
        | cons d src => exact ⟨[ch, d], rfl⟩

theorem length_wcsChar_rest (ch : Nat) (src : List Nat) :
    (wcsChar ch src).2.1.length < (ch :: src).length := by
  obtain ⟨pre, hpre⟩ := wcsChar_rest ch src
  have hlen := congrArg List.length hpre
  have hpos : pre ≠ [] := by
    rintro rfl
    unfold wcsChar at hpre
    split at hpre
    · exact List.cons_ne_self ch src hpre
    · split at hpre
      · exact List.cons_ne_self ch src hpre
      · split at hpre
        · exact List.cons_ne_self ch src hpre
        · have := congrArg List.length hpre
          simp at this
          omega
  have := List.length_pos_iff.mpr hpos
  simp only [List.length_append] at hlen
  omega

theorem mem_of_mem_wcsChar_rest {ch x : Nat} {src : List Nat} (hx : x ∈ (wcsChar ch src).2.1) :
    x ∈ ch :: src := by
  obtain ⟨pre, hpre⟩ := wcsChar_rest ch src
  rw [hpre]
  exact List.mem_append_right _ hx

theorem wcsChar_induct {motive : List Nat → Prop} (nil : motive [])
    (cons : ∀ ch src, motive (wcsChar ch src).2.1 → motive (ch :: src)) (src : List Nat) :
    motive src := by
  induction hn : src.length using Nat.strong_induction_on generalizing src with
  | _ n ih =>
    cases src with
    | nil => exact nil
    | cons ch src =>
      exact cons ch src (ih _ (hn ▸ length_wcsChar_rest ch src) _ rfl)

theorem ne_nil_of_wcsVal {ch : Nat} (hch : ch < 0x10000) {src : List Nat}
    (hval : ¬ wcsVal ch src < 0x10000) : src ≠ [] := by
  rintro rfl
  simp only [wcsVal, getUtf16] at hval
  split_ifs at hval
  all_goals simp_all

theorem wcsSizeLoop_cons (ch : Nat) (src : List Nat) (status : NtStatus) :
    wcsSizeLoop (ch :: src) status =
      ((wcsSizeLoop (wcsChar ch src).2.1
            (if (wcsChar ch src).2.2 then .someNotMapped else status)).1 +
          (wcsChar ch src).1.length,
        (wcsSizeLoop (wcsChar ch src).2.1
          (if (wcsChar ch src).2.2 then .someNotMapped else status)).2) := by
  rw [wcsSizeLoop.eq_2]
  dsimp only
  unfold wcsChar
  rw [← wcsVal]
  split
  · simp
  · split
    · simp
    · split
      · simp [threeBytes]
      · cases src with
        | nil => simp [fourBytes, wcsSizeLoop]
        | cons d src => simp [fourBytes]

theorem wcsLoop_cons {ch : Nat} (hch : ch < 0x10000) (room : Nat) (src : List Nat)
    (status : NtStatus) :
    wcsLoop room (ch :: src) status =
      if room < (wcsChar ch src).1.length then
        ([], ch :: src, if (wcsChar ch src).2.2 then .someNotMapped else status)
      else
        ((wcsChar ch src).1 ++ (wcsLoop (room - (wcsChar ch src).1.length) (wcsChar ch src).2.1
            (if (wcsChar ch src).2.2 then .someNotMapped else status)).1,
          (wcsLoop (room - (wcsChar ch src).1.length) (wcsChar ch src).2.1
            (if (wcsChar ch src).2.2 then .someNotMapped else status)).2) := by
  rw [wcsLoop.eq_2]
  dsimp only
  unfold wcsChar
  rw [← wcsVal]
  split
  · simp only [Bool.false_eq_true, if_false, List.length_singleton, List.singleton_append]
  · split
    · simp only [Bool.false_eq_true, if_false, List.length_cons, List.length_nil,
        List.cons_append, List.nil_append]
    · split
      · simp [threeBytes]
      · obtain ⟨d, src, rfl⟩ := List.exists_cons_of_ne_nil (ne_nil_of_wcsVal hch ‹_›)
        simp [fourBytes]

theorem wcsLoop_status (src : List Nat) (hsrc : ∀ c ∈ src, c < 0x10000) (room : Nat)
    (status status' : NtStatus) :
    (wcsLoop room src status).1 = (wcsLoop room src status').1 ∧
      (wcsLoop room src status).2.1 = (wcsLoop room src status').2.1 := by
  induction src using wcsChar_induct generalizing room status status' with
  | nil => exact ⟨rfl, rfl⟩
  | cons ch src ih =>
    have hch := hsrc ch List.mem_cons_self
    have hrest := fun c hc => hsrc c (mem_of_mem_wcsChar_rest hc)
    rw [wcsLoop_cons hch, wcsLoop_cons hch]
    split
    · exact ⟨rfl, rfl⟩
    · obtain ⟨h1, h2⟩ := ih hrest (room - (wcsChar ch src).1.length)
        (if (wcsChar ch src).2.2 then .someNotMapped else status)
        (if (wcsChar ch src).2.2 then .someNotMapped else status')
      exact ⟨by rw [h1], h2⟩

theorem wcsSizeLoop_status (src : List Nat) (status status' : NtStatus) :
    (wcsSizeLoop src status).1 = (wcsSizeLoop src status').1 := by
  induction src using wcsChar_induct generalizing status status' with
  | nil => rfl
  | cons ch src ih =>
    rw [wcsSizeLoop_cons, wcsSizeLoop_cons, ih]

theorem length_wcsLoop_le (src : List Nat) (hsrc : ∀ c ∈ src, c < 0x10000) (room : Nat)
    (status : NtStatus) : (wcsLoop room src status).1.length ≤ room := by
  induction src using wcsChar_induct generalizing room status with
  | nil => simp [wcsLoop]
  | cons ch src ih =>
    have hch := hsrc ch List.mem_cons_self
    rw [wcsLoop_cons hch]
    split
    · simp
    · have := ih (fun c hc => hsrc c (mem_of_mem_wcsChar_rest hc))
        (room - (wcsChar ch src).1.length)
        (if (wcsChar ch src).2.2 then .someNotMapped else status)
      simp only [List.length_append]
      omega

theorem wcsLoop_of_size_le (src : List Nat) (hsrc : ∀ c ∈ src, c < 0x10000) (room : Nat)
    (status : NtStatus) (hroom : (wcsSizeLoop src status).1 ≤ room) :
    (wcsLoop room src status).2 = ([], (wcsSizeLoop src status).2) ∧
      (wcsLoop room src status).1.length = (wcsSizeLoop src status).1 := by
  induction src using wcsChar_induct generalizing room status with
  | nil => exact ⟨rfl, rfl⟩
  | cons ch src ih =>
    have hch := hsrc ch List.mem_cons_self
    simp only [wcsSizeLoop_cons] at hroom ⊢
    rw [wcsLoop_cons hch, if_neg (by omega)]
    obtain ⟨h1, h2⟩ := ih (fun c hc => hsrc c (mem_of_mem_wcsChar_rest hc))
      (room - (wcsChar ch src).1.length) (if (wcsChar ch src).2.2 then .someNotMapped else status)
      (by omega)
    refine ⟨h1, ?_⟩
    rw [List.length_append, h2, Nat.add_comm]

theorem wcsLoop_of_lt_size (src : List Nat) (hsrc : ∀ c ∈ src, c < 0x10000) (room : Nat)
    (status : NtStatus) (hroom : room < (wcsSizeLoop src status).1) (status₀ : NtStatus) :
    (wcsLoop room src status).2.1 ≠ [] ∧
      ∃ pre, src = pre ++ (wcsLoop room src status).2.1 ∧
        (wcsLoop room src status).1 ++
            (wcsLoop (wcsSizeLoop (wcsLoop room src status).2.1 status₀).1
              (wcsLoop room src status).2.1 status₀).1 =
          (wcsLoop (wcsSizeLoop src status).1 src status).1 := by
  induction src using wcsChar_induct generalizing room status with
  | nil => simp [wcsSizeLoop] at hroom
  | cons ch src ih =>
    have hch := hsrc ch List.mem_cons_self
    have hrest := fun c hc => hsrc c (mem_of_mem_wcsChar_rest hc)
    have hsize := wcsSizeLoop_cons ch src status
    by_cases hfit : room < (wcsChar ch src).1.length
    · rw [wcsLoop_cons hch room, if_pos hfit]
      refine ⟨List.cons_ne_nil _ _, [], rfl, ?_⟩
      rw [List.nil_append, wcsSizeLoop_status _ status₀ status]
      exact (wcsLoop_status _ hsrc _ status₀ status).1
    · rw [hsize] at hroom
      obtain ⟨hne, pre, hpre, hout⟩ := ih hrest (room - (wcsChar ch src).1.length)
        (if (wcsChar ch src).2.2 then .someNotMapped else status) (by dsimp only at hroom; omega)
      obtain ⟨pre₀, hpre₀⟩ := wcsChar_rest ch src
      rw [wcsLoop_cons hch room, if_neg hfit, hsize]
      dsimp only
      rw [wcsLoop_cons hch (_ + _), if_neg (Nat.not_lt.mpr (Nat.le_add_left _ _)),
        Nat.add_sub_cancel]
      refine ⟨hne, pre₀ ++ pre, by rw [hpre₀, List.append_assoc, ← hpre], ?_⟩
      rw [List.append_assoc, hout]

/-- With room for what `utf8_mbstowcs_size` counts, `utf8_mbstowcs` reads every byte, writes
that many units, and ends with the same status. -/
theorem mbsLoop_of_size_le (fuel : Nat) (src : List Nat) (hfuel : src.length ≤ fuel) (room : Nat)
    (status : NtStatus) (hroom : (mbsSizeLoop fuel src status).1 ≤ room) :
    (mbsLoop fuel room src status).2 = ([], (mbsSizeLoop fuel src status).2) ∧
      (mbsLoop fuel room src status).1.length = (mbsSizeLoop fuel src status).1 := by
  induction fuel generalizing src room status with
  | zero =>
    rw [List.length_eq_zero_iff.mp (Nat.le_zero.mp hfuel)]
    exact ⟨rfl, rfl⟩
  | succ fuel ih =>
    cases src with
    | nil => exact ⟨rfl, rfl⟩
    | cons ch src =>
      have hlen : src.length ≤ fuel := Nat.le_of_succ_le_succ hfuel
      rw [mbsSizeLoop.eq_3] at hroom ⊢
      rw [mbsLoop.eq_3]
      dsimp only at hroom ⊢
      by_cases hascii : ch < 0x80
      · simp only [hascii, if_true] at hroom ⊢
        obtain ⟨h1, h2⟩ := ih src hlen (room - 1) status (by omega)
        simp only [show room ≠ 0 by omega, if_false, List.length_cons, h1, h2, true_and]
      · have hdrop : (src.drop (decodeUtf8Char ch src).2).length ≤ fuel := by
          rw [List.length_drop]
          omega
        simp only [hascii, if_false] at hroom ⊢
        by_cases hbad : 0x10ffff < (decodeUtf8Char ch src).1
        · simp only [hbad, if_true] at hroom ⊢
          obtain ⟨h1, h2⟩ := ih _ hdrop (room - 1) .someNotMapped (by omega)
          simp only [show room ≠ 0 by omega, show ¬ (decodeUtf8Char ch src).1 ≤ 0xffff by omega,
            show ¬ (decodeUtf8Char ch src).1 ≤ 0x10ffff by omega, if_false, List.length_cons, h1,
            h2, true_and]
        · by_cases hpair : 0xffff < (decodeUtf8Char ch src).1
          · simp only [hbad, hpair, if_true, if_false] at hroom ⊢
            obtain ⟨h1, h2⟩ := ih _ hdrop (room - 2) status (by omega)
            simp only [show room ≠ 0 by omega, show room ≠ 1 by omega,
              show ¬ (decodeUtf8Char ch src).1 ≤ 0xffff by omega,
              show (decodeUtf8Char ch src).1 ≤ 0x10ffff by omega, if_true, if_false,
              List.length_cons, h1, h2, true_and]
          · simp only [hbad, hpair, if_false] at hroom ⊢
            obtain ⟨h1, h2⟩ := ih _ hdrop (room - 1) status (by omega)
            simp only [show room ≠ 0 by omega, show (decodeUtf8Char ch src).1 ≤ 0xffff by omega,
              if_true, if_false, List.length_cons, h1, h2, true_and]

/-- The size functions agree with the converters: with a buffer of at least the size they
report, `utf8_wcstombs` and `utf8_mbstowcs` write exactly that many units and end with the same
status, and with a smaller buffer `utf8_wcstombs` reports `STATUS_BUFFER_TOO_SMALL` after whole
characters: what it wrote, followed by the conversion of the units it left, is the conversion of
the whole string. The units of `src` are WCHARs. -/
theorem utf8Size_matches_conversion (src : List Nat) (hsrc : ∀ c ∈ src, c < 0x10000)
    (bytes : List Nat) :
    (∀ dstlen, (utf8WcstombsSize src).1 ≤ dstlen →
      (utf8Wcstombs dstlen src).1.length = (utf8WcstombsSize src).1 ∧
        (utf8Wcstombs dstlen src).2 = (utf8WcstombsSize src).2) ∧
    (∀ dstlen, (utf8MbstowcsSize bytes).1 ≤ dstlen →
      (utf8Mbstowcs dstlen bytes).1.length = (utf8MbstowcsSize bytes).1 ∧
        (utf8Mbstowcs dstlen bytes).2 = (utf8MbstowcsSize bytes).2) ∧
    (∀ dstlen, dstlen < (utf8WcstombsSize src).1 →
      (utf8Wcstombs dstlen src).2 = .bufferTooSmall ∧
        (utf8Wcstombs dstlen src).1.length ≤ dstlen ∧
        ∃ pre post, src = pre ++ post ∧ post ≠ [] ∧
          (utf8Wcstombs dstlen src).1 ++ (utf8Wcstombs (utf8WcstombsSize post).1 post).1 =
            (utf8Wcstombs (utf8WcstombsSize src).1 src).1) := by
  refine ⟨fun dstlen hroom => ?_, fun dstlen hroom => ?_, fun dstlen hroom => ?_⟩
  · obtain ⟨h1, h2⟩ := wcsLoop_of_size_le src hsrc dstlen .success hroom
    simp only [utf8Wcstombs, utf8WcstombsSize, h1, h2, ne_eq, not_true_eq_false, if_false, and_self]
  · obtain ⟨h1, h2⟩ := mbsLoop_of_size_le bytes.length bytes le_rfl dstlen .success hroom
    simp only [utf8Mbstowcs, utf8MbstowcsSize, h1, h2, ne_eq, not_true_eq_false, if_false, and_self]
  · obtain ⟨hne, pre, hpre, hout⟩ := wcsLoop_of_lt_size src hsrc dstlen .success hroom .success
    refine ⟨if_pos hne, length_wcsLoop_le src hsrc dstlen .success, pre, _, hpre, hne, hout⟩

theorem utf8Size_matches_conversion_euro :
    (∀ c ∈ [0x41, 0x20ac, 0xd83d, 0xde00], c < 0x10000) ∧
    (utf8WcstombsSize [0x41, 0x20ac, 0xd83d, 0xde00]).1 = 8 ∧
    (∀ dstlen, (utf8WcstombsSize [0x41, 0x20ac, 0xd83d, 0xde00]).1 ≤ dstlen →
      (utf8Wcstombs dstlen [0x41, 0x20ac, 0xd83d, 0xde00]).1.length =
          (utf8WcstombsSize [0x41, 0x20ac, 0xd83d, 0xde00]).1 ∧
        (utf8Wcstombs dstlen [0x41, 0x20ac, 0xd83d, 0xde00]).2 =
          (utf8WcstombsSize [0x41, 0x20ac, 0xd83d, 0xde00]).2) ∧
    (∀ dstlen, (utf8MbstowcsSize [0xe2, 0x82, 0xac, 0xff]).1 ≤ dstlen →
      (utf8Mbstowcs dstlen [0xe2, 0x82, 0xac, 0xff]).1.length =
          (utf8MbstowcsSize [0xe2, 0x82, 0xac, 0xff]).1 ∧
        (utf8Mbstowcs dstlen [0xe2, 0x82, 0xac, 0xff]).2 =
          (utf8MbstowcsSize [0xe2, 0x82, 0xac, 0xff]).2) ∧
    (∀ dstlen, dstlen < (utf8WcstombsSize [0x41, 0x20ac, 0xd83d, 0xde00]).1 →
      (utf8Wcstombs dstlen [0x41, 0x20ac, 0xd83d, 0xde00]).2 = .bufferTooSmall ∧
        (utf8Wcstombs dstlen [0x41, 0x20ac, 0xd83d, 0xde00]).1.length ≤ dstlen ∧
        ∃ pre post, [0x41, 0x20ac, 0xd83d, 0xde00] = pre ++ post ∧ post ≠ [] ∧
          (utf8Wcstombs dstlen [0x41, 0x20ac, 0xd83d, 0xde00]).1 ++
              (utf8Wcstombs (utf8WcstombsSize post).1 post).1 =
            (utf8Wcstombs (utf8WcstombsSize [0x41, 0x20ac, 0xd83d, 0xde00]).1
              [0x41, 0x20ac, 0xd83d, 0xde00]).1) :=
  ⟨by decide, by decide, utf8Size_matches_conversion [0x41, 0x20ac, 0xd83d, 0xde00] (by decide)
    [0xe2, 0x82, 0xac, 0xff]⟩

end Wine.Ntdll.Utf8
