import Wine.Lib.Digits
import Wine.Ntdll.Utf8

/-!
# Escaped strings of the server (`server/unicode.c`)

`dump_strW` writes a string of `WCHAR`s as text with C escapes, `parse_strW` reads such text
back up to `endchar`, and `memicmp_strW` compares names through the case map `to_lower`. The
text is a C string: the list of its bytes, whose end reads as the terminating NUL. The case
map is loaded by the server at startup and is a parameter here; the server's `utf8_length` and
`utf8_mask` tables are those of ntdll.

The round trip: the text `dump_strW` writes for any string, followed by `endchar`, is read
back by `parse_strW` as the string and a terminating NUL, when `endchar` is one of the two
characters `dump_strW` was told to escape.
-/

namespace Wine.Server

open Wine.Ntdll.Utf8 (utf8Length utf8Mask)

set_option autoImplicit false

/-! ## The code -/

/-- `*p`: past the end of the list is the terminating NUL. -/
def peek : List Nat → Nat
  | [] => 0
  | c :: _ => c

def isXdigit (c : Nat) : Bool :=
  ('0'.toNat ≤ c && c ≤ '9'.toNat) || ('A'.toNat ≤ c && c ≤ 'F'.toNat) ||
    ('a'.toNat ≤ c && c ≤ 'f'.toNat)

/-- `to_hex`, on a hex digit. -/
def toHex (c : Nat) : Nat :=
  if c ≤ '9'.toNat then c - '0'.toNat
  else if c ≤ 'F'.toNat then c - 'A'.toNat + 10 else c - 'a'.toNat + 10

def hexDigit (c : Nat) : Option Nat := if isXdigit c then some (toHex c) else none

def isOctal (c : Nat) : Bool := '0'.toNat ≤ c && c ≤ '7'.toNat

def octDigit (c : Nat) : Option Nat := if isOctal c then some (c - '0'.toNat) else none

/-- The letters of the switch of `parse_strW`, with the characters they stand for. -/
def cEscape (c : Nat) : Option Nat :=
  if c = 'a'.toNat then some 7 else if c = 'b'.toNat then some 8
  else if c = 'e'.toNat then some 27 else if c = 'f'.toNat then some 12
  else if c = 'n'.toNat then some 10 else if c = 'r'.toNat then some 13
  else if c = 't'.toNat then some 9 else if c = 'v'.toNat then some 11 else none

def utf8Minval : Nat → Nat
  | 0 => 0
  | 1 => 0x80
  | 2 => 0x800
  | _ => 0x10000

/-- The fall-through cases `3`, `2`, `1` of the UTF-8 switch: `n` continuation bytes, the
first one that is not a continuation byte left unread. -/
def utf8Cont : Nat → Nat → List Nat → List Nat × Option Nat
  | 0, res, p => (p, some res)
  | n + 1, res, p =>
    if 0x40 ≤ peek p ^^^ 0x80 then (p, none)
    else utf8Cont n (res <<< 6 ||| (peek p ^^^ 0x80)) p.tail

/-- The normal character handling of the loop of `parse_strW` at `p`, with `room` the
characters the buffer holds: an ASCII byte is stored, a UTF-8 sequence is decoded, an invalid
one is skipped as far as it was read. -/
def parseByte (room : Nat) (dest : List Nat) : List Nat → List Nat × List Nat
  | [] => (dest, [])
  | ch :: p =>
    if ch < 0x80 then (dest ++ [ch], p)
    else if utf8Length ch = 0 then (dest, p)
    else
      match utf8Cont (utf8Length ch) (ch &&& utf8Mask (utf8Length ch)) p with
      | (p', none) => (dest, p')
      | (p', some res) =>
        if res < utf8Minval (utf8Length ch) ∨ 0x10ffff < res then (dest, p')
        else if res ≤ 0xffff then (dest ++ [res], p')
        -- a surrogate pair; the low half only if the buffer has room for it
        else if dest.length + 1 < room then
          (dest ++ [0xd800 ||| ((res - 0x10000) >>> 10), 0xdc00 ||| ((res - 0x10000) &&& 0x3ff)], p')
        else (dest ++ [0xd800 ||| ((res - 0x10000) >>> 10)], p')

/-- The loop body after a backslash, at the character `q` that follows it; `none` when the
text ends there (`break`). An unknown escape is the character itself. -/
def parseEscape (room : Nat) (dest : List Nat) (q : List Nat) : Option (List Nat × List Nat) :=
  if peek q = 0 then none
  else match cEscape (peek q) with
    | some w => some (dest ++ [w], q.tail)
    | none =>
      if peek q = 'x'.toNat then
        match hexDigit (peek q.tail) with
        | none => some (dest ++ ['x'.toNat], q.tail)
        | some d =>
          -- the three `if (isxdigit(*p))` that follow the first digit
          let (v, r) := Digits.readUpTo hexDigit 16 3 d q.tail.tail
          some (dest ++ [v], r)
      else
        match octDigit (peek q) with
        | some d =>
          let (v, r) := Digits.readUpTo octDigit 8 2 d q.tail
          some (dest ++ [v], r)
        | none => some (parseByte room dest q)

/-- The loop of `parse_strW`, while `*p && *p != endchar && dest < end`: what is written and
where `p` stops. -/
def parseLoop (endchar room : Nat) : Nat → List Nat → List Nat → List Nat × List Nat
  | 0, dest, p => (dest, p)
  | fuel + 1, dest, p =>
    if peek p = 0 ∨ peek p = endchar ∨ room ≤ dest.length then (dest, p)
    else if peek p = '\\'.toNat then
      match parseEscape room dest p.tail with
      | some (dest', p') => parseLoop endchar room fuel dest' p'
      | none => (dest, p.tail)
    else
      match parseByte room dest p with
      | (dest', p') => parseLoop endchar room fuel dest' p'

/-- `parse_strW(buffer, &len, src, endchar)`: the characters written, the new `*len` and the
count returned; `none` for `-1` (the buffer is full, or `endchar` is missing). Every pass of
the loop reads a byte, so `src.length + 1` passes are enough. -/
def parseStrW (len : Nat) (src : List Nat) (endchar : Nat) : Option (List Nat × Nat × Nat) :=
  match parseLoop endchar (len / 2) (src.length + 1) [] src with
  | (dest, p) =>
    if len / 2 ≤ dest.length then none
    else if peek p = 0 then none
    else some (dest ++ [0], (dest.length + 1) * 2, src.length - p.length + 1)

/-- `escapes[c]` for `c < 32`, when it is not `'.'`. -/
def escapeLetter (c : Nat) : Option Nat :=
  if c = 7 then some 'a'.toNat else if c = 8 then some 'b'.toNat
  else if c = 9 then some 't'.toNat else if c = 10 then some 'n'.toNat
  else if c = 11 then some 'v'.toNat else if c = 12 then some 'f'.toNat
  else if c = 13 then some 'r'.toNat else if c = 27 then some 'e'.toNat else none

def hexChar (d : Nat) : Nat := if d < 10 then '0'.toNat + d else 'a'.toNat + (d - 10)

def octChar (d : Nat) : Nat := '0'.toNat + d

/-- What `dump_strW` writes for the character `c`, followed by `next` in the string; `e0` and
`e1` are the two characters of `escape`. -/
def dumpChar (e0 e1 c : Nat) (next : Option Nat) : List Nat :=
  if 127 < c then
    -- `\x%04x` when a hex digit follows, so that it is not read as part of the escape
    match next with
    | some n =>
      if n < 128 ∧ isXdigit n then '\\'.toNat :: 'x'.toNat :: (Digits.format 16 4 c).map hexChar
      else '\\'.toNat :: 'x'.toNat :: (Digits.format 16 0 c).map hexChar
    | none => '\\'.toNat :: 'x'.toNat :: (Digits.format 16 0 c).map hexChar
  else if c < 32 then
    match escapeLetter c with
    | some l => ['\\'.toNat, l]
    | none =>
      match next with
      | some n =>
        if isOctal n then '\\'.toNat :: (Digits.format 8 3 c).map octChar
        else '\\'.toNat :: (Digits.format 8 0 c).map octChar
      | none => '\\'.toNat :: (Digits.format 8 0 c).map octChar
  else if c = '\\'.toNat ∨ c = e0 ∨ c = e1 then ['\\'.toNat, c]
  else [c]

/-- `dump_strW(str, len, f, escape)`: the text written; its length is the count returned. The
staging buffer of 256 bytes is flushed before it could overflow and is not modelled. -/
def dumpStrW (e0 e1 : Nat) : List Nat → List Nat
  | [] => []
  | c :: rest => dumpChar e0 e1 c rest.head? ++ dumpStrW e0 e1 rest

/-- The loop of `memicmp_strW` over `n` characters: the first difference of the case-mapped
characters. -/
def memicmpLoop (toLower : Nat → Nat) : List Nat → List Nat → Nat → Int
  | a :: as, b :: bs, n + 1 =>
    if (toLower a : Int) - toLower b ≠ 0 then (toLower a : Int) - toLower b
    else memicmpLoop toLower as bs n
  | _, _, _ => 0

/-- `memicmp_strW(str1, str2, len)`, with `len` in bytes. -/
def memicmpStrW (toLower : Nat → Nat) (str1 str2 : List Nat) (len : Nat) : Int :=
  memicmpLoop toLower str1 str2 (len / 2)

/-- `hash_strW(str, len, hash_size)`, with `len` in bytes, in `unsigned int` arithmetic. -/
def hashStrW (toLower : Nat → Nat) (str : List Nat) (len hashSize : Nat) : Nat :=
  (str.take (len / 2)).foldl (fun hash c => (hash * 65599 + toLower c) % 2 ^ 32) 0 % hashSize

/-! ## The escapes read back -/

/-- A character `dump_strW` can be told to escape and `parse_strW` to stop at: printable ASCII
that is no backslash, no escape letter and no digit of an escape. -/
structure Plain (e : Nat) : Prop where
  printable : 32 ≤ e
  ascii : e < 128
  not_backslash : e ≠ '\\'.toNat
  not_x : e ≠ 'x'.toNat
  not_letter : cEscape e = none
  not_octal : isOctal e = false
  not_hex : isXdigit e = false

instance (e : Nat) : Decidable (Plain e) :=
  decidable_of_iff (32 ≤ e ∧ e < 128 ∧ e ≠ '\\'.toNat ∧ e ≠ 'x'.toNat ∧ cEscape e = none ∧
      isOctal e = false ∧ isXdigit e = false)
    ⟨fun ⟨h1, h2, h3, h4, h5, h6, h7⟩ => ⟨h1, h2, h3, h4, h5, h6, h7⟩,
      fun h => ⟨h.1, h.2, h.3, h.4, h.5, h.6, h.7⟩⟩

example : Plain '"'.toNat ∧ Plain '['.toNat ∧ Plain ']'.toNat := by decide

/-- The first byte `dump_strW` writes for `c`. -/
def headByte (e0 e1 c : Nat) : Nat :=
  if 127 < c ∨ c < 32 ∨ c = '\\'.toNat ∨ c = e0 ∨ c = e1 then '\\'.toNat else c

/-- The byte after the text of a character: that of the next character, or `endchar`. -/
def nextByte (e0 e1 endchar : Nat) : Option Nat → Nat
  | some n => headByte e0 e1 n
  | none => endchar

theorem hexDigit_hexChar : ∀ d, d < 16 → hexDigit (hexChar d) = some d := by decide

theorem octDigit_octChar : ∀ d, d < 8 → octDigit (octChar d) = some d := by decide

theorem octChar_plain : ∀ d, d < 8 →
    octChar d ≠ 0 ∧ octChar d ≠ 'x'.toNat ∧ cEscape (octChar d) = none := by decide

theorem cEscape_escapeLetter {c l : Nat} (h : escapeLetter c = some l) : cEscape l = some c := by
  unfold escapeLetter at h
  split_ifs at h <;> (cases h; subst_vars; decide)

theorem escapeLetter_ne_zero {c l : Nat} (h : escapeLetter c = some l) : l ≠ 0 := by
  rintro rfl
  have := cEscape_escapeLetter h
  simp [cEscape] at this

theorem head_dumpChar (e0 e1 c : Nat) (next : Option Nat) :
    ∃ tl, dumpChar e0 e1 c next = headByte e0 e1 c :: tl := by
  by_cases hbig : 127 < c
  · have hh : headByte e0 e1 c = '\\'.toNat := if_pos (Or.inl hbig)
    rw [hh]
    unfold dumpChar
    rw [if_pos hbig]
    cases next with
    | none => exact ⟨_, rfl⟩
    | some n => dsimp only; split_ifs <;> exact ⟨_, rfl⟩
  · by_cases hsmall : c < 32
    · have hh : headByte e0 e1 c = '\\'.toNat := if_pos (Or.inr (Or.inl hsmall))
      rw [hh]
      unfold dumpChar
      rw [if_neg hbig, if_pos hsmall]
      split
      · exact ⟨_, rfl⟩
      · cases next with
        | none => exact ⟨_, rfl⟩
        | some n => dsimp only; split_ifs <;> exact ⟨_, rfl⟩
    · unfold dumpChar
      rw [if_neg hbig, if_neg hsmall]
      by_cases hq : c = '\\'.toNat ∨ c = e0 ∨ c = e1
      · have hh : headByte e0 e1 c = '\\'.toNat := if_pos (Or.inr (Or.inr hq))
        rw [hh, if_pos hq]
        exact ⟨_, rfl⟩
      · have hh : headByte e0 e1 c = c := if_neg (by omega)
        rw [hh, if_neg hq]
        exact ⟨[], rfl⟩

theorem length_dumpStrW (e0 e1 : Nat) : ∀ s, s.length ≤ (dumpStrW e0 e1 s).length := by
  intro s
  induction s with
  | nil => simp [dumpStrW]
  | cons c s ih =>
    obtain ⟨tl, htl⟩ := head_dumpChar e0 e1 c s.head?
    simp only [dumpStrW, htl, List.cons_append, List.length_cons, List.length_append]
    omega

theorem peek_dumpStrW_append (e0 e1 endchar : Nat) (s rest : List Nat) :
    peek (dumpStrW e0 e1 s ++ endchar :: rest) = nextByte e0 e1 endchar s.head? := by
  cases s with
  | nil => rfl
  | cons n s =>
    obtain ⟨tl, htl⟩ := head_dumpChar e0 e1 n s.head?
    simp [dumpStrW, htl, peek, nextByte]

theorem hexChar_printable : ∀ d, d < 16 → 32 ≤ hexChar d ∧ hexChar d < 128 := by decide

theorem octChar_printable : ∀ d, d < 8 → 32 ≤ octChar d ∧ octChar d < 128 := by decide

theorem escapeLetter_printable {c l : Nat} (h : escapeLetter c = some l) : 32 ≤ l ∧ l < 128 := by
  unfold escapeLetter at h
  split_ifs at h <;> (cases h; decide)

/-- Every character `dump_strW` writes is printable ASCII: the others are escaped. -/
theorem dumpChar_printable (e0 e1 c : Nat) (next : Option Nat) :
    ∀ x ∈ dumpChar e0 e1 c next, 32 ≤ x ∧ x < 128 := by
  have hhex : ∀ w, ∀ x ∈ '\\'.toNat :: 'x'.toNat :: (Digits.format 16 w c).map hexChar,
      32 ≤ x ∧ x < 128 := by
    intro w x hx
    rcases List.mem_cons.mp hx with rfl | hx
    · decide
    rcases List.mem_cons.mp hx with rfl | hx
    · decide
    obtain ⟨d, hd, rfl⟩ := List.mem_map.mp hx
    exact hexChar_printable d (Digits.format_lt (by decide) w c d hd)
  have hoct : ∀ w, ∀ x ∈ '\\'.toNat :: (Digits.format 8 w c).map octChar, 32 ≤ x ∧ x < 128 := by
    intro w x hx
    rcases List.mem_cons.mp hx with rfl | hx
    · decide
    obtain ⟨d, hd, rfl⟩ := List.mem_map.mp hx
    exact octChar_printable d (Digits.format_lt (by decide) w c d hd)
  intro x hx
  unfold dumpChar at hx
  split_ifs at hx with hbig hsmall hq
  · split at hx
    · split_ifs at hx
      · exact hhex 4 x hx
      · exact hhex 0 x hx
    · exact hhex 0 x hx
  · split at hx
    · rename_i l hl
      rcases List.mem_pair.mp hx with rfl | rfl
      · decide
      · exact escapeLetter_printable hl
    · split at hx
      · split_ifs at hx
        · exact hoct 3 x hx
        · exact hoct 0 x hx
      · exact hoct 0 x hx
  · rcases List.mem_pair.mp hx with rfl | rfl
    · decide
    · omega
  · rw [List.mem_singleton] at hx
    omega

theorem dumpStrW_printable (e0 e1 : Nat) : ∀ s, ∀ x ∈ dumpStrW e0 e1 s, 32 ≤ x ∧ x < 128 := by
  intro s
  induction s with
  | nil => simp [dumpStrW]
  | cons c s ih =>
    intro x hx
    rcases List.mem_append.mp hx with hx | hx
    · exact dumpChar_printable e0 e1 c s.head? x hx
    · exact ih x hx

section Parse

variable {endchar room : Nat}

theorem parseLoop_end {fuel : Nat} {dest p : List Nat} (hp : peek p = endchar) :
    parseLoop endchar room (fuel + 1) dest p = (dest, p) := by
  rw [parseLoop, if_pos (Or.inr (Or.inl hp))]

theorem parseLoop_ascii {fuel c : Nat} {dest rest : List Nat} (h0 : c ≠ 0) (hend : c ≠ endchar)
    (hbs : c ≠ '\\'.toNat) (hc : c < 0x80) (hroom : dest.length < room) :
    parseLoop endchar room (fuel + 1) dest (c :: rest) =
      parseLoop endchar room fuel (dest ++ [c]) rest := by
  have hstop : ¬(peek (c :: rest) = 0 ∨ peek (c :: rest) = endchar ∨ room ≤ dest.length) := by
    simp only [peek]
    omega
  rw [parseLoop, if_neg hstop, if_neg (by simpa [peek] using hbs)]
  simp [parseByte, hc]

theorem parseLoop_escape {fuel : Nat} {dest q dest' q' : List Nat} (hend : endchar ≠ '\\'.toNat)
    (hroom : dest.length < room) (h : parseEscape room dest q = some (dest', q')) :
    parseLoop endchar room (fuel + 1) dest ('\\'.toNat :: q) =
      parseLoop endchar room fuel dest' q' := by
  have hstop : ¬(peek ('\\'.toNat :: q) = 0 ∨ peek ('\\'.toNat :: q) = endchar ∨
      room ≤ dest.length) := by
    simp only [peek, Char.reduceToNat] at hend ⊢
    omega
  rw [parseLoop, if_neg hstop, if_pos (show peek ('\\'.toNat :: q) = '\\'.toNat from rfl)]
  simp [h]

theorem parseEscape_letter {c w : Nat} {dest q : List Nat} (h0 : c ≠ 0) (hw : cEscape c = some w) :
    parseEscape room dest (c :: q) = some (dest ++ [w], q) := by
  simp [parseEscape, peek, h0, hw]

theorem parseEscape_ascii {c : Nat} {dest q : List Nat} (h0 : c ≠ 0) (hw : cEscape c = none)
    (hx : c ≠ 'x'.toNat) (ho : isOctal c = false) (hc : c < 0x80) :
    parseEscape room dest (c :: q) = some (dest ++ [c], q) := by
  have hoct : octDigit c = none := by simp [octDigit, ho]
  have hx' : c ≠ 120 := hx
  simp [parseEscape, peek, h0, hw, hx', hoct, parseByte, hc]

theorem parseEscape_octal {d v : Nat} {dest q r : List Nat} (hd : d < 8)
    (hread : Digits.readUpTo octDigit 8 2 d q = (v, r)) :
    parseEscape room dest (octChar d :: q) = some (dest ++ [v], r) := by
  obtain ⟨h0, hx, hw⟩ := octChar_plain d hd
  have hx' : octChar d ≠ 120 := hx
  simp [parseEscape, peek, h0, hx', hw, octDigit_octChar d hd, hread]

theorem parseEscape_hex {d v : Nat} {dest q r : List Nat} (hd : d < 16)
    (hread : Digits.readUpTo hexDigit 16 3 d q = (v, r)) :
    parseEscape room dest ('x'.toNat :: hexChar d :: q) = some (dest ++ [v], r) := by
  simp [parseEscape, peek, cEscape, hexDigit_hexChar d hd, hread]

end Parse

theorem Plain.hexDigit_eq_none {e : Nat} (h : Plain e) : hexDigit e = none := by
  simp [hexDigit, h.not_hex]

theorem Plain.octDigit_eq_none {e : Nat} (h : Plain e) : octDigit e = none := by
  simp [octDigit, h.not_octal]

theorem hexDigit_headByte {e0 e1 n : Nat} (hn : ¬(n < 128 ∧ isXdigit n = true)) :
    hexDigit (headByte e0 e1 n) = none := by
  unfold headByte
  split_ifs with h
  · decide
  · have hlt : n < 128 := by omega
    have hx : isXdigit n = false := by simpa [hlt] using hn
    simp [hexDigit, hx]

theorem octDigit_headByte {e0 e1 n : Nat} (hn : isOctal n = false) :
    octDigit (headByte e0 e1 n) = none := by
  unfold headByte
  split_ifs
  · decide
  · simp [octDigit, hn]

section Dump

variable {endchar room : Nat}

theorem parseLoop_hexEscape (hend : endchar ≠ '\\'.toNat) {fuel c w : Nat} {dest tail : List Nat}
    (hc : c < 0x10000) (hw : w ≤ 4)
    (hstop : (Digits.format 16 w c).length < 4 → ∀ x, tail.head? = some x → hexDigit x = none)
    (hroom : dest.length < room) :
    parseLoop endchar room (fuel + 1) dest
        (('\\'.toNat :: 'x'.toNat :: (Digits.format 16 w c).map hexChar) ++ tail) =
      parseLoop endchar room fuel (dest ++ [c]) tail := by
  obtain ⟨d, ds, hds, hread⟩ := Digits.readUpTo_format (k := 3) (by norm_num) hexDigit_hexChar
    (show c < 16 ^ (3 + 1) by norm_num; omega) hw tail hstop
  have hd : d < 16 := Digits.format_lt (by norm_num) w c d (by simp [hds])
  rw [hds, List.map_cons, List.cons_append, List.cons_append, List.cons_append]
  exact parseLoop_escape hend hroom (parseEscape_hex hd hread)

theorem parseLoop_octEscape (hend : endchar ≠ '\\'.toNat) {fuel c w : Nat} {dest tail : List Nat}
    (hc : c < 32) (hw : w ≤ 3)
    (hstop : (Digits.format 8 w c).length < 3 → ∀ x, tail.head? = some x → octDigit x = none)
    (hroom : dest.length < room) :
    parseLoop endchar room (fuel + 1) dest
        (('\\'.toNat :: (Digits.format 8 w c).map octChar) ++ tail) =
      parseLoop endchar room fuel (dest ++ [c]) tail := by
  obtain ⟨d, ds, hds, hread⟩ := Digits.readUpTo_format (k := 2) (by norm_num) octDigit_octChar
    (show c < 8 ^ (2 + 1) by norm_num; omega) hw tail hstop
  have hd : d < 8 := Digits.format_lt (by norm_num) w c d (by simp [hds])
  rw [hds, List.map_cons, List.cons_append, List.cons_append]
  exact parseLoop_escape hend hroom (parseEscape_octal hd hread)

theorem parseLoop_letterEscape (hend : endchar ≠ '\\'.toNat) {fuel c l : Nat} {dest tail : List Nat}
    (hl : escapeLetter c = some l) (hroom : dest.length < room) :
    parseLoop endchar room (fuel + 1) dest (['\\'.toNat, l] ++ tail) =
      parseLoop endchar room fuel (dest ++ [c]) tail :=
  parseLoop_escape hend hroom (parseEscape_letter (escapeLetter_ne_zero hl) (cEscape_escapeLetter hl))

theorem parseLoop_quoted (hend : endchar ≠ '\\'.toNat) {fuel c : Nat} {dest tail : List Nat}
    (h0 : c ≠ 0) (hw : cEscape c = none) (hx : c ≠ 'x'.toNat) (ho : isOctal c = false)
    (hc : c < 0x80) (hroom : dest.length < room) :
    parseLoop endchar room (fuel + 1) dest (['\\'.toNat, c] ++ tail) =
      parseLoop endchar room fuel (dest ++ [c]) tail :=
  parseLoop_escape hend hroom (parseEscape_ascii h0 hw hx ho hc)

variable {e0 e1 : Nat}

/-- One character: its text is read back as the character, whatever follows it in the string,
as long as the text that follows is what `dump_strW` writes next. -/
theorem parseLoop_dumpChar (he0 : Plain e0) (he1 : Plain e1) (hend : endchar = e0 ∨ endchar = e1)
    {fuel c : Nat} {dest tail : List Nat} (hc : c < 0x10000) (next : Option Nat)
    (htail : ∀ x, tail.head? = some x → x = nextByte e0 e1 endchar next)
    (hroom : dest.length < room) :
    parseLoop endchar room (fuel + 1) dest (dumpChar e0 e1 c next ++ tail) =
      parseLoop endchar room fuel (dest ++ [c]) tail := by
  have hE : Plain endchar := by rcases hend with rfl | rfl <;> assumption
  have hbs : endchar ≠ '\\'.toNat := hE.not_backslash
  unfold dumpChar
  by_cases hbig : 127 < c
  · rw [if_pos hbig]
    cases next with
    | none =>
      refine parseLoop_hexEscape hbs hc (by omega) (fun _ x hx => ?_) hroom
      rw [htail x hx]
      exact hE.hexDigit_eq_none
    | some n =>
      dsimp only
      split_ifs with hn
      · have h4 := Digits.le_length_format (b := 16) 4 c
        exact parseLoop_hexEscape hbs hc (Nat.le_refl 4) (fun h => absurd h (by omega)) hroom
      · refine parseLoop_hexEscape hbs hc (by omega) (fun _ x hx => ?_) hroom
        rw [htail x hx]
        exact hexDigit_headByte hn
  · rw [if_neg hbig]
    by_cases hsmall : c < 32
    · rw [if_pos hsmall]
      cases hl : escapeLetter c with
      | some l => exact parseLoop_letterEscape hbs hl hroom
      | none =>
        cases next with
        | none =>
          refine parseLoop_octEscape hbs hsmall (by omega) (fun _ x hx => ?_) hroom
          rw [htail x hx]
          exact hE.octDigit_eq_none
        | some n =>
          dsimp only
          split_ifs with hn
          · have h3 := Digits.le_length_format (b := 8) 3 c
            exact parseLoop_octEscape hbs hsmall (Nat.le_refl 3) (fun h => absurd h (by omega)) hroom
          · refine parseLoop_octEscape hbs hsmall (by omega) (fun _ x hx => ?_) hroom
            rw [htail x hx]
            exact octDigit_headByte (by simpa using hn)
    · rw [if_neg hsmall]
      split_ifs with hq
      · rcases hq with rfl | rfl | rfl
        · exact parseLoop_quoted hbs (by decide) (by decide) (by decide) (by decide) (by decide) hroom
        · exact parseLoop_quoted hbs (by have := he0.printable; omega) he0.not_letter he0.not_x
            he0.not_octal he0.ascii hroom
        · exact parseLoop_quoted hbs (by have := he1.printable; omega) he1.not_letter he1.not_x
            he1.not_octal he1.ascii hroom
      · have hne : c ≠ endchar := by rcases hend with rfl | rfl <;> omega
        exact parseLoop_ascii (by omega) hne (by omega) (by omega) hroom

theorem parseLoop_dumpStrW (he0 : Plain e0) (he1 : Plain e1) (hend : endchar = e0 ∨ endchar = e1)
    (rest : List Nat) :
    ∀ (s dest : List Nat) (fuel : Nat), (∀ c ∈ s, c < 0x10000) → s.length ≤ fuel →
      dest.length + s.length ≤ room →
      parseLoop endchar room (fuel + 1) dest (dumpStrW e0 e1 s ++ endchar :: rest) =
        (dest ++ s, endchar :: rest) := by
  intro s
  induction s with
  | nil =>
    intro dest fuel _ _ _
    simp only [dumpStrW, List.nil_append, List.append_nil]
    exact parseLoop_end rfl
  | cons c s ih =>
    intro dest fuel hs hfuel hroom
    obtain ⟨fuel, rfl⟩ : ∃ f, fuel = f + 1 := ⟨fuel - 1, by simp at hfuel; omega⟩
    have htail : ∀ x, (dumpStrW e0 e1 s ++ endchar :: rest).head? = some x →
        x = nextByte e0 e1 endchar s.head? := by
      intro x hx
      rw [← peek_dumpStrW_append e0 e1 endchar s rest]
      cases h : dumpStrW e0 e1 s ++ endchar :: rest with
      | nil => simp at h
      | cons y ys => rw [h] at hx; simp at hx; simp [peek, hx]
    simp only [List.length_cons] at hfuel hroom
    rw [dumpStrW, List.append_assoc,
      parseLoop_dumpChar he0 he1 hend (hs c (by simp)) s.head? htail (by omega),
      ih (dest ++ [c]) fuel (fun x hx => hs x (by simp [hx])) (by omega) (by simp; omega)]
    simp

end Dump

theorem parseStrW_dumpStrW {e0 e1 endchar : Nat} (he0 : Plain e0) (he1 : Plain e1)
    (hend : endchar = e0 ∨ endchar = e1) (s : List Nat) (hs : ∀ c ∈ s, c < 0x10000) {len : Nat}
    (hlen : s.length < len / 2) (rest : List Nat) :
    parseStrW len (dumpStrW e0 e1 s ++ endchar :: rest) endchar =
      some (s ++ [0], (s.length + 1) * 2, (dumpStrW e0 e1 s).length + 1) := by
  have hE : Plain endchar := by rcases hend with rfl | rfl <;> assumption
  have hdump := length_dumpStrW e0 e1 s
  have hloop : parseLoop endchar (len / 2) ((dumpStrW e0 e1 s ++ endchar :: rest).length + 1) []
      (dumpStrW e0 e1 s ++ endchar :: rest) = ([] ++ s, endchar :: rest) :=
    parseLoop_dumpStrW he0 he1 hend rest s [] _ hs (by simp; omega) (by simp; omega)
  have hpeek : peek (endchar :: rest) ≠ 0 := by simp only [peek]; have := hE.printable; omega
  simp only [parseStrW, hloop, List.nil_append]
  rw [if_neg (by omega), if_neg hpeek]
  simp only [List.length_append, List.length_cons]
  rw [Nat.add_sub_cancel]

theorem plain_quote : Plain '"'.toNat := by decide

theorem plain_lbracket : Plain '['.toNat := by decide

theorem plain_rbracket : Plain ']'.toNat := by decide

/-- The names the server writes with the escape pair `"[]"` or `"\"\""` and closes with the
second character: `parse_strW` returns the string with its NUL and consumes exactly the dump and
the terminator. -/
theorem parseStrW_dump_roundtrip {e0 e1 : Nat}
    (hpair : (e0 = '['.toNat ∧ e1 = ']'.toNat) ∨ (e0 = '"'.toNat ∧ e1 = '"'.toNat))
    (s : List Nat) (hs : ∀ c ∈ s, c < 0x10000) {len : Nat} (hlen : s.length < len / 2)
    (rest : List Nat) :
    parseStrW len (dumpStrW e0 e1 s ++ e1 :: rest) e1 =
      some (s ++ [0], (s.length + 1) * 2, (dumpStrW e0 e1 s).length + 1) := by
  rcases hpair with ⟨rfl, rfl⟩ | ⟨rfl, rfl⟩
  · exact parseStrW_dumpStrW plain_lbracket plain_rbracket (Or.inr rfl) s hs hlen rest
  · exact parseStrW_dumpStrW plain_quote plain_quote (Or.inr rfl) s hs hlen rest

/-- A key name holding the closing bracket and a NUL. -/
theorem parseStrW_dump_roundtrip_bracket :
    parseStrW 10 (dumpStrW '['.toNat ']'.toNat [']'.toNat, 0] ++ [']'.toNat]) ']'.toNat =
      some ([']'.toNat, 0, 0], 6, (dumpStrW '['.toNat ']'.toNat [']'.toNat, 0]).length + 1) :=
  parseStrW_dump_roundtrip (Or.inl ⟨rfl, rfl⟩) [']'.toNat, 0] (by decide) (by decide) []

/-! ## Names compared without case -/

theorem memicmpLoop_eq_zero_iff (toLower : Nat → Nat) : ∀ {s₁ s₂ : List Nat}, s₁.length = s₂.length →
    (memicmpLoop toLower s₁ s₂ s₁.length = 0 ↔ s₁.map toLower = s₂.map toLower)
  | [], [], _ => by simp [memicmpLoop]
  | [], _ :: _, h => absurd h (by simp)
  | _ :: _, [], h => absurd h (by simp)
  | c₁ :: s₁, c₂ :: s₂, h => by
    have hlen : s₁.length = s₂.length := by simpa using h
    simp only [List.length_cons, memicmpLoop, List.map_cons, List.cons.injEq]
    by_cases hc : toLower c₁ = toLower c₂
    · have hret : (toLower c₁ : Int) - toLower c₂ = 0 := by rw [hc, Int.sub_self]
      rw [if_neg (not_not.mpr hret)]
      exact (memicmpLoop_eq_zero_iff toLower hlen).trans ⟨fun h => ⟨hc, h⟩, fun h => h.2⟩
    · have hret : (toLower c₁ : Int) - toLower c₂ ≠ 0 := by omega
      rw [if_pos hret]
      exact ⟨fun h => absurd h hret, fun h => absurd h.1 hc⟩

theorem hashStrW_eq (toLower : Nat → Nat) (str : List Nat) (hashSize : Nat) :
    hashStrW toLower str (2 * str.length) hashSize =
      (str.map toLower).foldl (fun hash c => (hash * 65599 + c) % 2 ^ 32) 0 % hashSize := by
  rw [hashStrW, show 2 * str.length / 2 = str.length by omega, List.take_length, List.foldl_map]

end Wine.Server
