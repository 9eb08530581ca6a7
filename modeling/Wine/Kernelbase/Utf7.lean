import Mathlib.Data.List.TakeWhile
import Wine.Lib.BigEndian

/-!
# UTF-7 (`dlls/kernelbase/locale.c`)

`wcstombs_utf7` and `mbstowcs_utf7`, the conversions of `WideCharToMultiByte` and
`MultiByteToWideChar` for `CP_UTF7`. Code units are naturals below `2^16` and bytes naturals below
`2^8`; `byte_pair` is 32 bits wide in both, so it is kept modulo `2^32`, and `dst[pos] = ch` of
`mbstowcs_utf7` stores the low 16 bits. A source is the list of its `srclen` elements, and the
`OUTPUT` macro is the writer of what is written to `dst` and of `pos`, which jumps to `overflow`
when `dst` is full. `defchar` and `used` stand for whether the pointers are given.

Above the code, the encoding it writes: units are grouped into maximal blocks of units that are
not directly encodable, and each block is written as `+`, the bits of its units in base64 padded
to a whole sextet, and `-`.
-/

namespace Wine.Kernelbase.Utf7

open BigEndian

set_option autoImplicit false

/-! ## The code -/

/-- The errors the two functions set with `SetLastError`. -/
inductive LastError where
  | invalidFlags
  | invalidParameter
  | insufficientBuffer
deriving DecidableEq, Repr

/-- `directly_encodable[]` of `wcstombs_utf7`, for `0x00 .. 0x7a`. -/
def directlyEncodable : List Nat :=
  [1, 0, 0, 0, 0, 0, 0, 0, 0, 1, 1, 0, 0, 1, 0, 0,
   0, 0, 0, 0, 0, 0, 0, 0, 0, 0, 0, 0, 0, 0, 0, 0,
   1, 0, 0, 0, 0, 0, 0, 1, 1, 1, 0, 1, 1, 1, 1, 1,
   1, 1, 1, 1, 1, 1, 1, 1, 1, 1, 1, 0, 0, 0, 0, 1,
   0, 1, 1, 1, 1, 1, 1, 1, 1, 1, 1, 1, 1, 1, 1, 1,
   1, 1, 1, 1, 1, 1, 1, 1, 1, 1, 1, 0, 0, 0, 0, 0,
   0, 1, 1, 1, 1, 1, 1, 1, 1, 1, 1, 1, 1, 1, 1, 1,
   1, 1, 1, 1, 1, 1, 1, 1, 1, 1, 1]

/-- `ENCODABLE(ch)` -/
def encodable (ch : Nat) : Bool := ch ≤ 0x7a && directlyEncodable.getD ch 0 != 0

def base64EncodingTable : List Char :=
  "ABCDEFGHIJKLMNOPQRSTUVWXYZabcdefghijklmnopqrstuvwxyz0123456789+/".toList

/-- `base64_encoding_table[i]` as a byte. -/
def base64Char (i : Nat) : Nat := (base64EncodingTable.getD i 'A').toNat

/-- `base64_decoding_table[]` of `mbstowcs_utf7`, for `0x00 .. 0x7f`. -/
def base64DecodingTable : List Int :=
  [-1, -1, -1, -1, -1, -1, -1, -1, -1, -1, -1, -1, -1, -1, -1, -1,
   -1, -1, -1, -1, -1, -1, -1, -1, -1, -1, -1, -1, -1, -1, -1, -1,
   -1, -1, -1, -1, -1, -1, -1, -1, -1, -1, -1, 62, -1, -1, -1, 63,
   52, 53, 54, 55, 56, 57, 58, 59, 60, 61, -1, -1, -1, -1, -1, -1,
   -1,  0,  1,  2,  3,  4,  5,  6,  7,  8,  9, 10, 11, 12, 13, 14,
   15, 16, 17, 18, 19, 20, 21, 22, 23, 24, 25, -1, -1, -1, -1, -1,
   -1, 26, 27, 28, 29, 30, 31, 32, 33, 34, 35, 36, 37, 38, 39, 40,
   41, 42, 43, 44, 45, 46, 47, 48, 49, 50, 51, -1, -1, -1, -1, -1]

/-- What the `OUTPUT` macro has done: the elements written to `dst`, and `pos`. -/
structure Out where
  dst : List Nat
  pos : Nat
deriving DecidableEq, Repr

/-- `OUTPUT( ch )`: with `dstlen > 0` it stores `dst[pos]`, or jumps to `overflow` once `pos`
reaches `dstlen`, with what is written so far; with `dstlen = 0` it only counts. -/
def output (dstlen ch : Nat) (out : Out) : Except (List Nat) Out :=
  if dstlen > 0 then
    if out.pos ≥ dstlen then .error out.dst else .ok ⟨out.dst ++ [ch], out.pos + 1⟩
  else .ok ⟨out.dst, out.pos + 1⟩

/-- `while (offset >= 6) { offset -= 6; OUTPUT( base64_encoding_table[(byte_pair >> offset) &
0x3f] ); }`: the sextets of the pending bits, the highest first, and the `offset` left. -/
def emitSextets (dstlen bytePair : Nat) : Nat → Out → Except (List Nat) (Nat × Out)
  | offset + 6, out => do
    let out ← output dstlen (base64Char ((bytePair >>> offset) &&& 0x3f)) out
    emitSextets dstlen bytePair offset out
  | offset, out => .ok (offset, out)

/-- `while (src < source_end && !ENCODABLE(*src))` of `wcstombs_utf7`, with `offset` and
`byte_pair`: the rest of the source where the block ends. -/
def encodeBlock (dstlen : Nat) :
    List Nat → Nat → Nat → Out → Except (List Nat) (List Nat × Nat × Nat × Out)
  | [], offset, bytePair, out => .ok ([], offset, bytePair, out)
  | c :: src, offset, bytePair, out =>
    if encodable c then .ok (c :: src, offset, bytePair, out)
    else do
      let bytePair := ((bytePair <<< 16) ||| c) % 2 ^ 32
      let (offset, out) ← emitSextets dstlen bytePair (offset + 16) out
      encodeBlock dstlen src offset bytePair out

/-- The end of a block: `if (offset)` the last bits padded to a sextet, only when there is room
for it and for the `-`, and then the `-`. -/
def endBlock (dstlen offset bytePair : Nat) (out : Out) : Except (List Nat) Out :=
  if offset ≠ 0 then
    if dstlen > 0 ∧ out.pos + 1 ≥ dstlen then .error out.dst
    else do
      let out ← output dstlen (base64Char (((bytePair <<< (6 - offset)) % 2 ^ 32) &&& 0x3f)) out
      output dstlen 0x2d out
  else output dstlen 0x2d out

section Bind

variable {ε α β : Type} {x : Except ε α} {f : α → Except ε β}

@[simp] theorem ok_bind {a : α} : (.ok a : Except ε α) >>= f = f a := rfl

@[simp] theorem error_bind {e : ε} : (.error e : Except ε α) >>= f = .error e := rfl

theorem bind_eq_ok {b : β} : x >>= f = .ok b ↔ ∃ a, x = .ok a ∧ f a = .ok b := by
  cases x <;> simp [Bind.bind, Except.bind]

end Bind

theorem encodeBlock_rest_length (dstlen : Nat) : ∀ (src : List Nat) (offset bytePair : Nat)
    (out : Out) {rest : List Nat} {offset' bytePair' : Nat} {out' : Out},
    encodeBlock dstlen src offset bytePair out = .ok (rest, offset', bytePair', out') →
    rest.length ≤ src.length ∧ ∀ c src', src = c :: src' → encodable c = false →
      rest.length ≤ src'.length
  | [], _, _, _, _, _, _, _, h => by
    rw [encodeBlock] at h
    cases h
    exact ⟨Nat.le_refl _, fun _ _ h => (nomatch h)⟩
  | c :: src, offset, bytePair, out, rest, offset', bytePair', out', h => by
    rw [encodeBlock] at h
    split at h
    · rename_i henc
      cases h
      refine ⟨Nat.le_refl _, fun c' src' hs hc => ?_⟩
      obtain ⟨rfl, rfl⟩ := List.cons.inj hs
      rw [henc] at hc
      cases hc
    · obtain ⟨⟨o, out₁⟩, -, h⟩ := bind_eq_ok.mp h
      have hrest := (encodeBlock_rest_length dstlen src o _ out₁ h).1
      refine ⟨Nat.le_succ_of_le hrest, fun c' src' hs _ => ?_⟩
      rw [(List.cons.inj hs).2] at hrest
      exact hrest

/-- The loop of `wcstombs_utf7` over the source. -/
def wcsLoop (dstlen : Nat) (src : List Nat) (out : Out) : Except (List Nat) Out :=
  match src with
  | [] => .ok out
  | c :: rest =>
    if c = 0x2b then do
      let out ← output dstlen 0x2b out
      let out ← output dstlen 0x2d out
      wcsLoop dstlen rest out
    else if encodable c then do
      let out ← output dstlen c out
      wcsLoop dstlen rest out
    else
      output dstlen 0x2b out >>= fun out =>
        match _hblock : encodeBlock dstlen (c :: rest) 0 0 out with
        | .error dst => .error dst
        | .ok (rest', offset, bytePair, out) =>
          endBlock dstlen offset bytePair out >>= fun out => wcsLoop dstlen rest' out
termination_by src.length
decreasing_by
  all_goals simp only [List.length_cons]
  · omega
  · omega
  · have := (encodeBlock_rest_length dstlen _ _ _ _ _hblock).2 c rest rfl
      (Bool.eq_false_iff.mpr ‹¬ encodable c = true›)
    omega

/-- `wcstombs_utf7( flags, src, srclen, dst, dstlen, defchar, used )`: the value returned, what
is written to `dst`, and the error set. -/
def wcstombsUtf7 (flags : Nat) (src : List Nat) (dstlen : Nat) (defchar used : Bool) :
    Nat × List Nat × Option LastError :=
  if defchar || used then (0, [], some .invalidParameter)
  else if flags ≠ 0 then (0, [], some .invalidFlags)
  else match wcsLoop dstlen src ⟨[], 0⟩ with
    | .ok out => (out.pos, out.dst, none)
    | .error dst => (0, dst, some .insufficientBuffer)

/-- The `do ... while (src < source_end)` loop of `mbstowcs_utf7` after a `+` not followed by
`-`, with `offset` and `byte_pair`: the rest of the source where it stops. A `-` is skipped and
the unfinished unit dropped; a byte above `0x7f` stops it and keeps the unit; any other byte
that is not base64 stops it and drops the unit. -/
def decodeBlock (dstlen : Nat) :
    List Nat → Nat → Nat → Out → Except (List Nat) (List Nat × Nat × Nat × Out)
  | [], offset, bytePair, out => .ok ([], offset, bytePair, out)
  | c :: src, offset, bytePair, out =>
    if c = 0x2d then .ok (src, 0, bytePair, out)
    else if c ≥ 0x80 then .ok (c :: src, offset, bytePair, out)
    else
      let sextet := base64DecodingTable.getD c (-1)
      if sextet = -1 then .ok (c :: src, 0, bytePair, out)
      else
        let bytePair := ((bytePair <<< 6) ||| sextet.toNat) % 2 ^ 32
        if offset + 6 ≥ 16 then do
          -- this byte pair is done
          let out ← output dstlen ((bytePair >>> (offset + 6 - 16)) % 2 ^ 16) out
          decodeBlock dstlen src (offset + 6 - 16) bytePair out
        else decodeBlock dstlen src (offset + 6) bytePair out

theorem decodeBlock_rest_length (dstlen : Nat) : ∀ (src : List Nat) (offset bytePair : Nat)
    (out : Out) {rest : List Nat} {offset' bytePair' : Nat} {out' : Out},
    decodeBlock dstlen src offset bytePair out = .ok (rest, offset', bytePair', out') →
    rest.length ≤ src.length
  | [], _, _, _, _, _, _, _, h => by
    rw [decodeBlock] at h
    cases h
    exact Nat.le_refl _
  | c :: src, offset, bytePair, out, rest, offset', bytePair', out', h => by
    rw [decodeBlock] at h
    split at h
    · cases h
      exact Nat.le_succ _
    split at h
    · cases h
      exact Nat.le_refl _
    dsimp only at h
    split at h
    · cases h
      exact Nat.le_refl _
    split at h
    · obtain ⟨out₁, -, h⟩ := bind_eq_ok.mp h
      exact Nat.le_succ_of_le (decodeBlock_rest_length dstlen src _ _ out₁ h)
    · exact Nat.le_succ_of_le (decodeBlock_rest_length dstlen src _ _ out h)

/-- The loop of `mbstowcs_utf7` over the source, with `offset` and `byte_pair`, which last from
one block to the next. -/
def mbsLoop (dstlen : Nat) (src : List Nat) (offset bytePair : Nat) (out : Out) :
    Except (List Nat) Out :=
  match src with
  | [] => .ok out
  | c :: rest =>
    if c = 0x2b then
      match rest with
      | [] => .ok out
      | d :: rest =>
        if d = 0x2d then do
          -- just a plus sign escaped as +-
          let out ← output dstlen 0x2b out
          mbsLoop dstlen rest offset bytePair out
        else
          match _hblock : decodeBlock dstlen (d :: rest) offset bytePair out with
          | .error dst => .error dst
          | .ok (rest', offset, bytePair, out) => mbsLoop dstlen rest' offset bytePair out
    else do
      let out ← output dstlen c out
      mbsLoop dstlen rest offset bytePair out
termination_by src.length
decreasing_by
  all_goals simp only [List.length_cons]
  · omega
  · have := decodeBlock_rest_length dstlen _ _ _ _ _hblock
    simp only [List.length_cons] at this
    omega
  · omega

/-- `mbstowcs_utf7( flags, src, srclen, dst, dstlen )`: the value returned, what is written to
`dst`, and the error set. -/
def mbstowcsUtf7 (flags : Nat) (src : List Nat) (dstlen : Nat) : Nat × List Nat × Option LastError :=
  if flags ≠ 0 then (0, [], some .invalidFlags)
  else match mbsLoop dstlen src 0 0 ⟨[], 0⟩ with
    | .ok out => (out.pos, out.dst, none)
    | .error dst => (0, dst, some .insufficientBuffer)

/-! ## The encoding -/

/-- The zero bits that pad the `16 * n` bits of `n` units to a whole number of sextets. -/
def padBits (n : Nat) : Nat := (6 - 16 * n % 6) % 6

/-- The sextets of a block: the bits of its units, the first unit highest, padded with zeros. -/
def sextetsOf (us : List Nat) : List Nat :=
  digits 64 ((16 * us.length + padBits us.length) / 6) (value 0x10000 us * 2 ^ padBits us.length)

/-- A block as it is written: `+`, its sextets in base64, and `-`. -/
def blockBytes (us : List Nat) : List Nat := 0x2b :: (sextetsOf us).map base64Char ++ [0x2d]

/-- A directly encodable unit as it is written; `+` is escaped as `+-`. -/
def directBytes (c : Nat) : List Nat := if c = 0x2b then [0x2b, 0x2d] else [c]

/-- The bytes of the block gathered so far, none when it is empty. -/
def flushBlock (block : List Nat) : List Nat := if block = [] then [] else blockBytes block

/-- The encoding of `src` after the units of `block`, none of them directly encodable. -/
def encodeFrom (block : List Nat) : List Nat → List Nat
  | [] => flushBlock block
  | c :: src =>
    if encodable c then flushBlock block ++ directBytes c ++ encodeFrom [] src
    else encodeFrom (block ++ [c]) src

/-- The UTF-7 encoding of a string of units. -/
def utf7Encode (src : List Nat) : List Nat := encodeFrom [] src

example : utf7Encode [0x41, 0x20ac, 0x2b] = [0x41, 0x2b, 0x49, 0x4b, 0x77, 0x2d, 0x2b, 0x2d] := by
  decide

/-- Where a block ends: at the end of the source or before a directly encodable unit. -/
def endsBlock : List Nat → Bool
  | [] => true
  | c :: _ => encodable c

/-! ## Writing to `dst` -/

/-- `out` after `OUTPUT` of each element of `l`, none overflowing. -/
def Out.emit (dstlen : Nat) (out : Out) (l : List Nat) : Out :=
  ⟨if dstlen = 0 then out.dst else out.dst ++ l, out.pos + l.length⟩

/-- Room in `dst` for `n` more elements from `pos`, or a call that only counts. -/
def Fits (dstlen pos n : Nat) : Prop := dstlen = 0 ∨ pos + n ≤ dstlen

section Emit

variable {dstlen : Nat} {out : Out}

@[simp] theorem Out.pos_emit (l : List Nat) : (out.emit dstlen l).pos = out.pos + l.length := rfl

@[simp] theorem Out.emit_nil : out.emit dstlen [] = out := by
  unfold Out.emit
  split <;> simp

theorem Out.emit_emit (l₁ l₂ : List Nat) :
    (out.emit dstlen l₁).emit dstlen l₂ = out.emit dstlen (l₁ ++ l₂) := by
  unfold Out.emit
  split <;> simp [List.append_assoc, Nat.add_assoc]

theorem Fits.left {pos m n : Nat} (h : Fits dstlen pos (m + n)) : Fits dstlen pos m := by
  unfold Fits at *
  omega

theorem Fits.right {pos m n : Nat} (h : Fits dstlen pos (m + n)) : Fits dstlen (pos + m) n := by
  unfold Fits at *
  omega

theorem output_of_fits (ch : Nat) (h : Fits dstlen out.pos 1) :
    output dstlen ch out = .ok (out.emit dstlen [ch]) := by
  unfold output Out.emit Fits at *
  by_cases hd : dstlen = 0
  · rw [if_neg (by omega), if_pos hd]
    rfl
  · rw [if_pos (by omega), if_neg (by omega), if_neg hd]
    rfl

end Emit

/-! ## The encoder -/

section Encoder

variable {dstlen : Nat}

theorem sixty_four_pow_mul (q r : Nat) : 64 ^ q * 2 ^ r = 2 ^ (6 * q + r) := by
  rw [show (64 : Nat) = 2 ^ 6 from rfl, ← Nat.pow_mul, ← Nat.pow_add]

theorem base64Char_window (bytePair offset : Nat) :
    base64Char ((bytePair >>> offset) &&& 0x3f) = base64Char (bytePair / 2 ^ offset % 64) := by
  rw [Nat.shiftRight_eq_div_pow, show (0x3f : Nat) = 2 ^ 6 - 1 from rfl,
    Nat.and_two_pow_sub_one_eq_mod]

theorem emitSextets_of_lt (bytePair : Nat) {offset : Nat} (out : Out) (h : offset < 6) :
    emitSextets dstlen bytePair offset out = .ok (offset, out) := by
  match offset, h with
  | 0, _ | 1, _ | 2, _ | 3, _ | 4, _ | 5, _ => rfl

theorem emitSextets_spec (bytePair : Nat) : ∀ offset : Nat, ∃ S : List Nat,
    S.length = offset / 6 ∧ (∀ s ∈ S, s < 64) ∧
    value 64 S * 2 ^ (offset % 6) + bytePair % 2 ^ (offset % 6) = bytePair % 2 ^ offset ∧
    ∀ out, Fits dstlen out.pos S.length →
      emitSextets dstlen bytePair offset out = .ok (offset % 6, out.emit dstlen (S.map base64Char)) := by
  intro offset
  induction offset using Nat.strongRecOn with
  | ind offset ih =>
    by_cases h : offset < 6
    · refine ⟨[], by rw [Nat.div_eq_of_lt h]; rfl, fun _ h => (nomatch h), ?_, fun out _ => ?_⟩
      · rw [value_nil, Nat.zero_mul, Nat.zero_add, Nat.mod_eq_of_lt h]
      · rw [emitSextets_of_lt _ _ h, Nat.mod_eq_of_lt h, List.map_nil, Out.emit_nil]
    obtain ⟨k, rfl⟩ : ∃ k, offset = k + 6 := ⟨offset - 6, by omega⟩
    obtain ⟨S, hlen, hlt, hval, hrun⟩ := ih k (by omega)
    have hk : (k + 6) % 6 = k % 6 := by omega
    refine ⟨bytePair / 2 ^ k % 64 :: S, ?_, ?_, ?_, fun out hfit => ?_⟩
    · rw [List.length_cons, hlen]
      omega
    · exact List.forall_mem_cons.mpr ⟨Nat.mod_lt _ (by decide), hlt⟩
    · rw [hk, value_cons, hlen, Nat.add_mul, Nat.add_assoc, hval, Nat.mul_assoc,
        sixty_four_pow_mul, Nat.div_add_mod, mod_two_pow_add bytePair k 6]
      rfl
    · rw [List.length_cons, Nat.add_comm] at hfit
      rw [emitSextets, base64Char_window, output_of_fits _ hfit.left, ok_bind, hrun _ hfit.right,
        Out.emit_emit, hk]
      rfl

theorem unit_pow (n : Nat) : (0x10000 : Nat) ^ n = 2 ^ (16 * n) := by
  rw [show (0x10000 : Nat) = 2 ^ 16 from rfl, ← Nat.pow_mul]

theorem encodeBlock_of_endsBlock {r : List Nat} (hr : endsBlock r = true) (offset bytePair : Nat)
    (out : Out) : encodeBlock dstlen r offset bytePair out = .ok (r, offset, bytePair, out) := by
  cases r with
  | nil => rfl
  | cons c r => rw [encodeBlock, if_pos (show encodable c = true from hr)]

theorem shift_unit_window {u : Nat} (hu : u < 0x10000) (offset bytePair : Nat) (ho : offset < 6) :
    ((bytePair <<< 16) ||| u) % 2 ^ 32 % 2 ^ (offset + 16) = bytePair % 2 ^ offset * 2 ^ 16 + u := by
  rw [← Nat.shiftLeft_add_eq_or_of_lt hu, Nat.shiftLeft_eq,
    Nat.mod_mod_of_dvd _ (Nat.pow_dvd_pow 2 (by omega : offset + 16 ≤ 32)),
    shift_in_mod _ _ _ _ hu]

/-- The block loop over units that are not directly encodable writes the bits of the pending
ones and of the units, as sextets, down to fewer than six bits, and stops where the block ends. -/
theorem encodeBlock_spec : ∀ (us r : List Nat), (∀ u ∈ us, encodable u = false ∧ u < 0x10000) →
    endsBlock r = true → ∀ offset bytePair, offset < 6 →
    ∃ S offset' bytePair', 6 * S.length + offset' = 16 * us.length + offset ∧ offset' < 6 ∧
      (∀ s ∈ S, s < 64) ∧
      value 64 S * 2 ^ offset' + bytePair' % 2 ^ offset' =
        bytePair % 2 ^ offset * 2 ^ (16 * us.length) + value 0x10000 us ∧
      ∀ out, Fits dstlen out.pos S.length → encodeBlock dstlen (us ++ r) offset bytePair out =
        .ok (r, offset', bytePair', out.emit dstlen (S.map base64Char))
  | [], r, _, hr, offset, bytePair, ho => by
    refine ⟨[], offset, bytePair, by simp, ho, fun _ h => (nomatch h), by simp, fun out _ => ?_⟩
    rw [List.nil_append, List.map_nil, Out.emit_nil]
    exact encodeBlock_of_endsBlock hr _ _ _
  | u :: us, r, hus, hr, offset, bytePair, ho => by
    obtain ⟨hu, hu16⟩ := hus u List.mem_cons_self
    have hwin := shift_unit_window hu16 offset bytePair ho
    obtain ⟨S₁, hlen₁, hlt₁, hval₁, hrun₁⟩ :=
      @emitSextets_spec dstlen (((bytePair <<< 16) ||| u) % 2 ^ 32) (offset + 16)
    obtain ⟨S₂, o, b, hlen₂, ho', hlt₂, hval₂, hrun₂⟩ := encodeBlock_spec us r
      (fun v hv => hus v (List.mem_cons_of_mem u hv)) hr _ (((bytePair <<< 16) ||| u) % 2 ^ 32)
      (Nat.mod_lt (offset + 16) (by decide))
    refine ⟨S₁ ++ S₂, o, b, ?_, ho', ?_, ?_, fun out hfit => ?_⟩
    · rw [List.length_append, List.length_cons]
      omega
    · intro s hs
      rcases List.mem_append.mp hs with hs | hs
      · exact hlt₁ s hs
      · exact hlt₂ s hs
    · generalize ((bytePair <<< 16) ||| u) % 2 ^ 32 = b₁ at hwin hval₁ hval₂
      calc value 64 (S₁ ++ S₂) * 2 ^ o + b % 2 ^ o
          = value 64 S₁ * (64 ^ S₂.length * 2 ^ o) + (value 64 S₂ * 2 ^ o + b % 2 ^ o) := by
            rw [value_append, Nat.add_mul, Nat.mul_assoc, Nat.add_assoc]
        _ = (value 64 S₁ * 2 ^ ((offset + 16) % 6) + b₁ % 2 ^ ((offset + 16) % 6)) *
              2 ^ (16 * us.length) + value 0x10000 us := by
            rw [sixty_four_pow_mul, hlen₂, hval₂, Nat.pow_add, Nat.add_mul, Nat.mul_assoc,
              Nat.add_assoc, Nat.mul_comm (2 ^ (16 * us.length))]
        _ = bytePair % 2 ^ offset * 2 ^ (16 * (u :: us).length) + value 0x10000 (u :: us) := by
            rw [hval₁, hwin, value_cons, unit_pow, List.length_cons, Nat.mul_succ, Nat.pow_add,
              Nat.add_mul, Nat.add_assoc, Nat.mul_assoc, Nat.mul_comm (2 ^ 16)]
    · rw [List.length_append] at hfit
      rw [List.cons_append, encodeBlock, if_neg (by rw [hu]; decide)]
      dsimp only
      rw [hrun₁ out hfit.left, ok_bind]
      dsimp only
      rw [hrun₂ _ (by rw [Out.pos_emit, List.length_map]; exact hfit.right), Out.emit_emit,
        List.map_append]

theorem padBits_lt (n : Nat) : padBits n < 6 := Nat.mod_lt _ (by decide)

theorem length_sextetsOf (us : List Nat) :
    6 * (sextetsOf us).length = 16 * us.length + padBits us.length := by
  rw [sextetsOf, length_digits]
  unfold padBits
  omega

theorem sextetsOf_lt (us : List Nat) : ∀ s ∈ sextetsOf us, s < 64 := digits_lt (by decide) _ _

theorem value_sextetsOf {us : List Nat} (hus : ∀ u ∈ us, u < 0x10000) :
    value 64 (sextetsOf us) = value 0x10000 us * 2 ^ padBits us.length := by
  have hlt := value_lt (by decide : 1 < 0x10000) hus
  rw [sextetsOf, value_digits, Nat.mod_eq_of_lt]
  have h6 : 6 * ((16 * us.length + padBits us.length) / 6) = 16 * us.length + padBits us.length := by
    unfold padBits
    omega
  rw [show (64 : Nat) = 2 ^ 6 from rfl, ← Nat.pow_mul, h6, Nat.pow_add, ← unit_pow]
  exact Nat.mul_lt_mul_of_pos_right hlt (Nat.two_pow_pos _)

theorem eq_sextetsOf {us S : List Nat} (hlt : ∀ s ∈ S, s < 64)
    (hlen : 6 * S.length = 16 * us.length + padBits us.length)
    (hval : value 64 S = value 0x10000 us * 2 ^ padBits us.length) : S = sextetsOf us := by
  rw [← digits_value (by decide) hlt, hval, sextetsOf, ← hlen, Nat.mul_div_cancel_left _ (by decide)]

theorem pad_window (bytePair : Nat) {offset : Nat} (ho : offset < 6) :
    ((bytePair <<< (6 - offset)) % 2 ^ 32) &&& 0x3f = bytePair % 2 ^ offset * 2 ^ (6 - offset) := by
  rw [show (0x3f : Nat) = 2 ^ 6 - 1 from rfl, Nat.and_two_pow_sub_one_eq_mod, Nat.shiftLeft_eq,
    Nat.mod_mod_of_dvd _ (Nat.pow_dvd_pow 2 (by decide : 6 ≤ 32)),
    show (2 : Nat) ^ 6 = 2 ^ (offset + (6 - offset)) by rw [Nat.add_sub_cancel' (Nat.le_of_lt ho)],
    ← Nat.add_zero (bytePair * _), shift_in_mod _ _ _ _ (Nat.two_pow_pos _), Nat.add_zero]

/-- A whole block: `+` is written before it, and after it the loop and the end of the block
write its sextets and `-`. -/
theorem block_spec {us r : List Nat} (hus : ∀ u ∈ us, encodable u = false ∧ u < 0x10000)
    (hr : endsBlock r = true) (out : Out) (hfit : Fits dstlen out.pos ((sextetsOf us).length + 1)) :
    ∃ offset bytePair out₁, encodeBlock dstlen (us ++ r) 0 0 out = .ok (r, offset, bytePair, out₁) ∧
      endBlock dstlen offset bytePair out₁ =
        .ok (out.emit dstlen ((sextetsOf us).map base64Char ++ [0x2d])) := by
  obtain ⟨S, o, b, hlen, ho, hlt, hval, hrun⟩ := @encodeBlock_spec dstlen us r hus hr 0 0 (by decide)
  rw [Nat.zero_mod, Nat.zero_mul, Nat.zero_add] at hval
  rw [Nat.add_zero] at hlen
  have hus16 : ∀ u ∈ us, u < 0x10000 := fun u hu => (hus u hu).2
  by_cases h0 : o = 0
  · subst h0
    have hpad : padBits us.length = 0 := by
      unfold padBits
      omega
    have hS : S = sextetsOf us := eq_sextetsOf hlt (by rw [hpad]; omega)
      (by rw [hpad, ← hval, Nat.pow_zero, Nat.mul_one, Nat.mul_one, Nat.mod_one, Nat.add_zero])
    subst hS
    refine ⟨0, b, _, hrun out hfit.left, ?_⟩
    rw [endBlock, if_neg (by decide), output_of_fits _ (by rw [Out.pos_emit, List.length_map]; exact hfit.right),
      Out.emit_emit]
  · have hpad : padBits us.length = 6 - o := by
      unfold padBits
      omega
    have hS : S ++ [b % 2 ^ o * 2 ^ (6 - o)] = sextetsOf us := by
      refine eq_sextetsOf ?_ (by rw [List.length_append, List.length_singleton, hpad]; omega) ?_
      · intro s hs
        rcases List.mem_append.mp hs with hs | hs
        · exact hlt s hs
        · rw [List.mem_singleton.mp hs, ← pad_window b ho]
          exact Nat.and_lt_two_pow _ (by decide : (0x3f : Nat) < 2 ^ 6)
      · rw [value_append_singleton, hpad, ← hval, Nat.add_mul, Nat.mul_assoc, ← Nat.pow_add,
          Nat.add_sub_cancel' (Nat.le_of_lt ho)]
    have hfit' : Fits dstlen out.pos (S.length + 2) := by
      rw [← hS, List.length_append, List.length_singleton] at hfit
      exact hfit
    have h2 : Fits dstlen (out.pos + S.length) (1 + 1) := Fits.right hfit'
    have hfit₁ : Fits dstlen (out.emit dstlen (S.map base64Char)).pos 1 := by
      rw [Out.pos_emit, List.length_map]
      exact h2.left
    have hfit₂ : ∀ c, Fits dstlen ((out.emit dstlen (S.map base64Char)).emit dstlen [c]).pos 1 := by
      intro c
      rw [Out.pos_emit, Out.pos_emit, List.length_map, List.length_singleton]
      exact h2.right
    refine ⟨o, b, _, hrun out (Fits.left hfit'), ?_⟩
    rw [endBlock, if_pos h0,
      if_neg (by rw [Out.pos_emit, List.length_map]; unfold Fits at hfit'; omega),
      output_of_fits _ hfit₁, ok_bind, output_of_fits _ (hfit₂ _),
      Out.emit_emit, Out.emit_emit, pad_window b ho, ← hS, List.map_append, List.map_singleton,
      List.append_assoc, List.singleton_append]

end Encoder

/-! ## The encoder writes the encoding -/

theorem encodeFrom_append_block {us : List Nat} (hus : ∀ u ∈ us, encodable u = false) :
    ∀ (block r : List Nat), encodeFrom block (us ++ r) = encodeFrom (block ++ us) r := by
  induction us with
  | nil => intro block r; rw [List.nil_append, List.append_nil]
  | cons u us ih =>
    intro block r
    rw [List.cons_append, encodeFrom, if_neg (by rw [hus u List.mem_cons_self]; decide),
      ih (fun v hv => hus v (List.mem_cons_of_mem u hv)), List.append_assoc, List.singleton_append]

@[simp] theorem flushBlock_nil : flushBlock [] = [] := rfl

theorem encodeFrom_of_endsBlock {r : List Nat} (hr : endsBlock r = true) (block : List Nat) :
    encodeFrom block r = flushBlock block ++ encodeFrom [] r := by
  cases r with
  | nil => rw [encodeFrom, encodeFrom, flushBlock_nil, List.append_nil]
  | cons c r =>
    rw [encodeFrom, encodeFrom, if_pos (show encodable c = true from hr),
      if_pos (show encodable c = true from hr), flushBlock_nil, List.nil_append, List.append_assoc]

theorem utf7Encode_direct {c : Nat} (hc : encodable c = true) (src : List Nat) :
    utf7Encode (c :: src) = directBytes c ++ utf7Encode src := by
  rw [utf7Encode, encodeFrom, if_pos hc, flushBlock_nil, List.nil_append]
  rfl

theorem utf7Encode_block {us r : List Nat} (hne : us ≠ []) (hus : ∀ u ∈ us, encodable u = false)
    (hr : endsBlock r = true) : utf7Encode (us ++ r) = blockBytes us ++ utf7Encode r := by
  rw [utf7Encode, encodeFrom_append_block hus, List.nil_append, encodeFrom_of_endsBlock hr,
    flushBlock, if_neg hne]
  rfl

theorem endsBlock_dropWhile : ∀ l : List Nat, endsBlock (l.dropWhile fun c => !encodable c) = true
  | [] => rfl
  | c :: l => by
    rw [List.dropWhile_cons]
    split
    · exact endsBlock_dropWhile l
    · rename_i h
      simpa [endsBlock] using h

theorem block_split {c : Nat} (hc : encodable c = false) (rest : List Nat) :
    let us := (c :: rest).takeWhile fun c => !encodable c
    let r := (c :: rest).dropWhile fun c => !encodable c
    c :: rest = us ++ r ∧ us ≠ [] ∧ (∀ u ∈ us, encodable u = false) ∧ endsBlock r = true ∧
      r.length ≤ rest.length := by
  refine ⟨(List.takeWhile_append_dropWhile).symm, ?_, fun u hu => ?_, endsBlock_dropWhile _, ?_⟩
  · rw [List.takeWhile_cons, if_pos (by rw [hc]; rfl)]
    exact List.cons_ne_nil _ _
  · simpa using List.mem_takeWhile_imp hu
  · rw [List.dropWhile_cons, if_pos (by rw [hc]; rfl)]
    exact (List.dropWhile_suffix _).length_le

/-- With room for the whole encoding, or as a count, the loop of `wcstombs_utf7` writes the
encoding of its source. The induction is on the length of the source, one block or one
directly encodable unit at a time. -/
theorem wcsLoop_spec {dstlen : Nat} : ∀ (src : List Nat), (∀ c ∈ src, c < 0x10000) → ∀ out : Out,
    Fits dstlen out.pos (utf7Encode src).length →
    wcsLoop dstlen src out = .ok (out.emit dstlen (utf7Encode src)) := by
  intro src
  induction hn : src.length using Nat.strong_induction_on generalizing src with
  | _ n ih =>
    intro hsrc out hfit
    cases src with
    | nil => rw [wcsLoop, show utf7Encode [] = [] from rfl, Out.emit_nil]
    | cons c rest =>
      have hrest : ∀ c ∈ rest, c < 0x10000 := fun d hd => hsrc d (List.mem_cons_of_mem c hd)
      have ih' := ih rest.length (by rw [← hn, List.length_cons]; omega) rest rfl hrest
      by_cases hplus : c = 0x2b
      · subst hplus
        rw [utf7Encode_direct rfl, directBytes, if_pos rfl, List.length_append] at hfit
        have h2 : Fits dstlen out.pos (1 + 1) := hfit.left
        rw [wcsLoop, if_pos rfl, output_of_fits _ h2.left, ok_bind, output_of_fits _ h2.right,
          ok_bind, ih' _ (by rw [Out.pos_emit, Out.pos_emit]; exact hfit.right), Out.emit_emit,
          Out.emit_emit, utf7Encode_direct rfl, directBytes, if_pos rfl]
        rfl
      by_cases henc : encodable c = true
      · rw [utf7Encode_direct henc, directBytes, if_neg hplus, List.length_append] at hfit
        rw [wcsLoop, if_neg hplus, if_pos henc, output_of_fits _ hfit.left, ok_bind,
          ih' _ hfit.right, Out.emit_emit, utf7Encode_direct henc, directBytes, if_neg hplus]
      · have hc : encodable c = false := Bool.eq_false_iff.mpr henc
        obtain ⟨hsplit, hne, hus, hr, hlen⟩ := block_split hc rest
        generalize (c :: rest).takeWhile (fun c => !encodable c) = us at hsplit hne hus
        generalize (c :: rest).dropWhile (fun c => !encodable c) = r at hsplit hr hlen
        have hus16 : ∀ u ∈ us, encodable u = false ∧ u < 0x10000 :=
          fun u hu => ⟨hus u hu, hsrc u (hsplit ▸ List.mem_append_left r hu)⟩
        have hfit' : Fits dstlen out.pos (1 + ((sextetsOf us).length + 1) + (utf7Encode r).length) := by
          rw [hsplit, utf7Encode_block hne hus hr, blockBytes] at hfit
          simp only [List.length_append, List.length_cons, List.length_map] at hfit
          unfold Fits at hfit ⊢
          omega
        have h1 := hfit'.left
        obtain ⟨o, b, out₁, hblock, hend⟩ := block_spec hus16 hr (out.emit dstlen [0x2b])
          (by rw [Out.pos_emit]; exact h1.right)
        have hr16 : ∀ c ∈ r, c < 0x10000 := fun d hd => hsrc d (hsplit ▸ List.mem_append_right us hd)
        have ihr := ih r.length (by rw [← hn, List.length_cons]; omega) r rfl hr16
        rw [wcsLoop, if_neg hplus, if_neg henc, output_of_fits _ h1.left, ok_bind]
        split
        · rename_i hblock'
          rw [hsplit, hblock] at hblock'
          cases hblock'
        · rename_i rest' offset bytePair out' hblock'
          rw [hsplit, hblock] at hblock'
          cases hblock'
          have hfitr := hfit'.right
          rw [hend, ok_bind, ihr _ (by simp only [Out.pos_emit, List.length_append, List.length_map,
            List.length_singleton] at hfitr ⊢; unfold Fits at hfitr ⊢; omega), Out.emit_emit,
            Out.emit_emit, hsplit, utf7Encode_block hne hus hr, blockBytes]
          rfl

/-! ## The decoder reads the encoding back -/

theorem base64Char_spec : ∀ s, s < 64 → base64Char s ≠ 0x2d ∧ ¬ base64Char s ≥ 0x80 ∧
    base64DecodingTable.getD (base64Char s) (-1) = (s : Int) := by
  decide +kernel

theorem shift_sextet_window {s : Nat} (hs : s < 64) (offset bytePair : Nat) (ho : offset < 16) :
    ((bytePair <<< 6) ||| s) % 2 ^ 32 % 2 ^ (offset + 6) = bytePair % 2 ^ offset * 64 + s := by
  rw [← Nat.shiftLeft_add_eq_or_of_lt (show s < 2 ^ 6 from hs), Nat.shiftLeft_eq,
    Nat.mod_mod_of_dvd _ (Nat.pow_dvd_pow 2 (by omega : offset + 6 ≤ 32)),
    shift_in_mod _ _ _ _ (show s < 2 ^ 6 from hs)]
  rfl

section Decoder

variable {dstlen : Nat}

/-- The block loop over base64 characters and a `-` writes the units their bits make up, with
the bits pending before, and keeps what is left of the last unit in `byte_pair`. -/
theorem decodeBlock_spec (rest : List Nat) : ∀ S : List Nat, (∀ s ∈ S, s < 64) →
    ∀ offset bytePair, offset < 16 →
    ∃ U offset' bytePair', 16 * U.length + offset' = 6 * S.length + offset ∧ offset' < 16 ∧
      (∀ u ∈ U, u < 0x10000) ∧
      value 0x10000 U * 2 ^ offset' + bytePair' % 2 ^ offset' =
        bytePair % 2 ^ offset * 2 ^ (6 * S.length) + value 64 S ∧
      ∀ out, Fits dstlen out.pos U.length →
        decodeBlock dstlen (S.map base64Char ++ 0x2d :: rest) offset bytePair out =
          .ok (rest, 0, bytePair', out.emit dstlen U)
  | [], _, offset, bytePair, ho => by
    refine ⟨[], offset, bytePair, by simp, ho, fun _ h => (nomatch h), by simp, fun out _ => ?_⟩
    rw [List.map_nil, List.nil_append, decodeBlock, if_pos rfl, Out.emit_nil]
  | s :: S, hS, offset, bytePair, ho => by
    have hs := hS s List.mem_cons_self
    obtain ⟨hdash, hhigh, htable⟩ := base64Char_spec s hs
    have hwin := shift_sextet_window hs offset bytePair ho
    have hS' : ∀ s ∈ S, s < 64 := fun t ht => hS t (List.mem_cons_of_mem s ht)
    generalize hb₁ : ((bytePair <<< 6) ||| s) % 2 ^ 32 = b₁ at hwin
    -- both branches end on the same value: the new sextet below the pending bits
    have hstep : b₁ % 2 ^ (offset + 6) * 2 ^ (6 * S.length) + value 64 S =
        bytePair % 2 ^ offset * 2 ^ (6 * (s :: S).length) + value 64 (s :: S) := by
      rw [hwin, value_cons, show (64 : Nat) ^ S.length = 2 ^ (6 * S.length) by
        rw [show (64 : Nat) = 2 ^ 6 from rfl, ← Nat.pow_mul], List.length_cons,
        show 6 * (S.length + 1) = 6 * S.length + 6 by omega, Nat.pow_add]
      ring
    have hunfold : ∀ out, decodeBlock dstlen ((s :: S).map base64Char ++ 0x2d :: rest) offset
        bytePair out =
          if offset + 6 ≥ 16 then
            output dstlen (b₁ >>> (offset + 6 - 16) % 2 ^ 16) out >>= fun out =>
              decodeBlock dstlen (S.map base64Char ++ 0x2d :: rest) (offset + 6 - 16) b₁ out
          else decodeBlock dstlen (S.map base64Char ++ 0x2d :: rest) (offset + 6) b₁ out := by
      intro out
      rw [List.map_cons, List.cons_append, decodeBlock, if_neg hdash, if_neg hhigh]
      dsimp only
      rw [htable, if_neg (by omega), Int.toNat_natCast, hb₁]
    by_cases hp : offset + 6 ≥ 16
    · obtain ⟨U, o, b, hlen, ho', hU, hval, hrun⟩ :=
        decodeBlock_spec rest S hS' (offset + 6 - 16) b₁ (by omega)
      have hsplit := mod_two_pow_add b₁ (offset + 6 - 16) 16
      rw [show offset + 6 - 16 + 16 = offset + 6 by omega] at hsplit
      refine ⟨b₁ / 2 ^ (offset + 6 - 16) % 2 ^ 16 :: U, o, b, ?_, ho', ?_, ?_, fun out hfit => ?_⟩
      · rw [List.length_cons, List.length_cons]
        omega
      · exact List.forall_mem_cons.mpr ⟨Nat.mod_lt _ (Nat.two_pow_pos 16), hU⟩
      · rw [← hstep, hsplit, value_cons, unit_pow, Nat.add_mul, Nat.add_assoc, hval, Nat.mul_assoc,
          ← Nat.pow_add, show 16 * U.length + o = 6 * S.length + (offset + 6 - 16) by omega,
          Nat.pow_add, Nat.add_mul, Nat.mul_assoc, Nat.mul_comm (2 ^ (6 * S.length)),
          ← Nat.mul_assoc, Nat.add_assoc]
      · rw [List.length_cons, Nat.add_comm] at hfit
        rw [hunfold, if_pos hp, Nat.shiftRight_eq_div_pow, output_of_fits _ hfit.left, ok_bind,
          hrun _ hfit.right, Out.emit_emit]
        rfl
    · obtain ⟨U, o, b, hlen, ho', hU, hval, hrun⟩ :=
        decodeBlock_spec rest S hS' (offset + 6) b₁ (by omega)
      refine ⟨U, o, b, by rw [List.length_cons]; omega, ho', hU, by rw [hval, hstep], fun out hfit => ?_⟩
      rw [hunfold, if_neg hp, hrun out hfit]

theorem decodeBlock_blockBytes {us : List Nat} (hus : ∀ u ∈ us, u < 0x10000) (rest : List Nat)
    (bytePair : Nat) : ∃ bytePair', ∀ out, Fits dstlen out.pos us.length →
      decodeBlock dstlen ((sextetsOf us).map base64Char ++ 0x2d :: rest) 0 bytePair out =
        .ok (rest, 0, bytePair', out.emit dstlen us) := by
  obtain ⟨U, o, b, hlen, ho, hU, hval, hrun⟩ :=
    @decodeBlock_spec dstlen rest (sextetsOf us) (sextetsOf_lt us) 0 bytePair (by decide)
  have hL := length_sextetsOf us
  have hpad := padBits_lt us.length
  have hUlen : U.length = us.length := by omega
  have ho' : o = padBits us.length := by omega
  rw [Nat.pow_zero, Nat.mod_one, Nat.zero_mul, Nat.zero_add, value_sextetsOf hus, ho'] at hval
  have hUus : U = us := eq_of_value_eq (by decide) hUlen hU hus
    (eq_of_mul_add_eq_mul (Nat.mod_lt _ (Nat.two_pow_pos _)) hval)
  subst hUus
  exact ⟨b, hrun⟩

theorem blockBytes_append (us l : List Nat) :
    blockBytes us ++ l = 0x2b :: ((sextetsOf us).map base64Char ++ 0x2d :: l) := by
  simp [blockBytes]

theorem sextetsOf_ne_nil {us : List Nat} (hne : us ≠ []) : sextetsOf us ≠ [] := by
  intro h
  have hL := length_sextetsOf us
  rw [h, List.length_nil] at hL
  exact hne (List.eq_nil_of_length_eq_zero (by omega))

theorem mbsLoop_of_ne_plus {c : Nat} (hc : c ≠ 0x2b) (rest : List Nat) (offset bytePair : Nat)
    (out : Out) : mbsLoop dstlen (c :: rest) offset bytePair out =
      output dstlen c out >>= fun out => mbsLoop dstlen rest offset bytePair out := by
  cases rest <;> rw [mbsLoop, if_neg hc]

/-- The loop of `mbstowcs_utf7` reads the encoding of a string back as the string, from any
`byte_pair` and no pending bits. The induction follows the one of `wcsLoop_spec`. -/
theorem mbsLoop_utf7Encode : ∀ (src : List Nat), (∀ c ∈ src, c < 0x10000) →
    ∀ (bytePair : Nat) (out : Out), Fits dstlen out.pos src.length →
    mbsLoop dstlen (utf7Encode src) 0 bytePair out = .ok (out.emit dstlen src) := by
  intro src
  induction hn : src.length using Nat.strong_induction_on generalizing src with
  | _ n ih =>
    intro hsrc bytePair out hfit
    cases src with
    | nil => rw [show utf7Encode [] = [] from rfl, mbsLoop, Out.emit_nil]
    | cons c rest =>
      have hrest : ∀ c ∈ rest, c < 0x10000 := fun d hd => hsrc d (List.mem_cons_of_mem c hd)
      have ih' := ih rest.length (by rw [← hn, List.length_cons]; omega) rest rfl hrest
      rw [← hn, List.length_cons, Nat.add_comm] at hfit
      by_cases hplus : c = 0x2b
      · subst hplus
        rw [utf7Encode_direct rfl, directBytes, if_pos rfl, List.cons_append, List.cons_append,
          List.nil_append, mbsLoop, if_pos rfl, if_pos rfl, output_of_fits _ hfit.left, ok_bind,
          ih' _ _ hfit.right, Out.emit_emit]
        rfl
      by_cases henc : encodable c = true
      · rw [utf7Encode_direct henc, directBytes, if_neg hplus, List.cons_append, List.nil_append,
          mbsLoop_of_ne_plus hplus, output_of_fits _ hfit.left, ok_bind, ih' _ _ hfit.right,
          Out.emit_emit]
        rfl
      · have hc : encodable c = false := Bool.eq_false_iff.mpr henc
        obtain ⟨hsplit, hne, hus, hr, hlen⟩ := block_split hc rest
        generalize (c :: rest).takeWhile (fun c => !encodable c) = us at hsplit hne hus
        generalize (c :: rest).dropWhile (fun c => !encodable c) = r at hsplit hr hlen
        have hus16 : ∀ u ∈ us, u < 0x10000 := fun u hu => hsrc u (hsplit ▸ List.mem_append_left r hu)
        have hr16 : ∀ c ∈ r, c < 0x10000 := fun d hd => hsrc d (hsplit ▸ List.mem_append_right us hd)
        have ihr := ih r.length (by rw [← hn, List.length_cons]; omega) r rfl hr16
        have hfit' : Fits dstlen out.pos (us.length + r.length) := by
          rw [← List.length_append, ← hsplit, List.length_cons, Nat.add_comm]
          exact hfit
        obtain ⟨b, hblock⟩ := @decodeBlock_blockBytes dstlen us hus16 (utf7Encode r) bytePair
        obtain ⟨s₀, S, hS⟩ := List.exists_cons_of_ne_nil (sextetsOf_ne_nil hne)
        have hs₀ := base64Char_spec s₀ (sextetsOf_lt us s₀ (by rw [hS]; exact List.mem_cons_self))
        rw [hS, List.map_cons, List.cons_append] at hblock
        rw [hsplit, utf7Encode_block hne hus hr, blockBytes_append, hS, List.map_cons,
          List.cons_append, mbsLoop, if_pos rfl, if_neg hs₀.1]
        split
        · rename_i hblock'
          rw [hblock out hfit'.left] at hblock'
          cases hblock'
        · rename_i rest' offset bytePair' out' hblock'
          rw [hblock out hfit'.left] at hblock'
          cases hblock'
          rw [ihr _ _ (by rw [Out.pos_emit]; exact hfit'.right), Out.emit_emit]

end Decoder

/-! ## Counting and writing agree -/

theorem decodeBlock_emits : ∀ (src : List Nat) (offset bytePair : Nat), ∃ W rest offset' bytePair',
    ∀ dstlen out, Fits dstlen out.pos W.length →
      decodeBlock dstlen src offset bytePair out = .ok (rest, offset', bytePair', out.emit dstlen W)
  | [], offset, bytePair => ⟨[], [], offset, bytePair, fun _ _ _ => by rw [decodeBlock, Out.emit_nil]⟩
  | c :: src, offset, bytePair => by
    by_cases hdash : c = 0x2d
    · exact ⟨[], src, 0, bytePair, fun _ _ _ => by rw [decodeBlock, if_pos hdash, Out.emit_nil]⟩
    by_cases hhigh : c ≥ 0x80
    · exact ⟨[], c :: src, offset, bytePair, fun _ _ _ => by
        rw [decodeBlock, if_neg hdash, if_pos hhigh, Out.emit_nil]⟩
    by_cases hbad : base64DecodingTable.getD c (-1) = -1
    · refine ⟨[], c :: src, 0, bytePair, fun _ _ _ => ?_⟩
      rw [decodeBlock, if_neg hdash, if_neg hhigh]
      dsimp only
      rw [if_pos hbad, Out.emit_nil]
    generalize hb₁ : ((bytePair <<< 6) ||| (base64DecodingTable.getD c (-1)).toNat) % 2 ^ 32 = b₁
    by_cases hp : offset + 6 ≥ 16
    · obtain ⟨W, rest, o, b, hW⟩ := decodeBlock_emits src (offset + 6 - 16) b₁
      refine ⟨b₁ >>> (offset + 6 - 16) % 2 ^ 16 :: W, rest, o, b, fun dstlen out hfit => ?_⟩
      rw [List.length_cons, Nat.add_comm] at hfit
      rw [decodeBlock, if_neg hdash, if_neg hhigh]
      dsimp only
      rw [if_neg hbad, hb₁, if_pos hp, output_of_fits _ hfit.left, ok_bind, hW _ _ hfit.right,
        Out.emit_emit]
      rfl
    · obtain ⟨W, rest, o, b, hW⟩ := decodeBlock_emits src (offset + 6) b₁
      refine ⟨W, rest, o, b, fun dstlen out hfit => ?_⟩
      rw [decodeBlock, if_neg hdash, if_neg hhigh]
      dsimp only
      rw [if_neg hbad, hb₁, if_neg hp, hW _ _ hfit]

/-- Whatever the source, the loop of `mbstowcs_utf7` writes one list of units, counted alone with
`dstlen = 0` and written with room for it. -/
theorem mbsLoop_emits : ∀ (src : List Nat) (offset bytePair : Nat), ∃ W,
    ∀ dstlen out, Fits dstlen out.pos W.length →
      mbsLoop dstlen src offset bytePair out = .ok (out.emit dstlen W) := by
  intro src
  induction hn : src.length using Nat.strong_induction_on generalizing src with
  | _ n ih =>
    intro offset bytePair
    match src, hn with
    | [], _ => exact ⟨[], fun _ _ _ => by rw [mbsLoop, Out.emit_nil]⟩
    | [c], hn =>
      by_cases hplus : c = 0x2b
      · exact ⟨[], fun _ _ _ => by rw [mbsLoop, if_pos hplus, Out.emit_nil]⟩
      · obtain ⟨W, hW⟩ := ih 0 (by rw [← hn]; exact Nat.zero_lt_one) [] rfl offset bytePair
        refine ⟨c :: W, fun dstlen out hfit => ?_⟩
        rw [List.length_cons, Nat.add_comm] at hfit
        rw [mbsLoop_of_ne_plus hplus, output_of_fits _ hfit.left, ok_bind, hW _ _ hfit.right,
          Out.emit_emit]
        rfl
    | c :: d :: rest, hn =>
      by_cases hplus : c = 0x2b
      · by_cases hdash : d = 0x2d
        · obtain ⟨W, hW⟩ := ih rest.length (by rw [← hn]; simp only [List.length_cons]; omega) rest rfl
            offset bytePair
          refine ⟨0x2b :: W, fun dstlen out hfit => ?_⟩
          rw [List.length_cons, Nat.add_comm] at hfit
          rw [mbsLoop, if_pos hplus, if_pos hdash, output_of_fits _ hfit.left, ok_bind,
            hW _ _ hfit.right, Out.emit_emit]
          rfl
        · obtain ⟨W₁, rest', o, b, hW₁⟩ := decodeBlock_emits (d :: rest) offset bytePair
          have hlen := decodeBlock_rest_length 0 _ _ _ _ (hW₁ 0 ⟨[], 0⟩ (Or.inl rfl))
          obtain ⟨W₂, hW₂⟩ := ih rest'.length (by rw [← hn]; simp only [List.length_cons] at hlen ⊢; omega)
            rest' rfl o b
          refine ⟨W₁ ++ W₂, fun dstlen out hfit => ?_⟩
          rw [List.length_append] at hfit
          rw [mbsLoop, if_pos hplus, if_neg hdash]
          split
          · rename_i hblock
            rw [hW₁ _ _ hfit.left] at hblock
            cases hblock
          · rename_i hblock
            rw [hW₁ _ _ hfit.left] at hblock
            cases hblock
            rw [hW₂ _ _ (by rw [Out.pos_emit]; exact hfit.right), Out.emit_emit]
      · obtain ⟨W, hW⟩ := ih (d :: rest).length (by rw [← hn]; simp only [List.length_cons]; omega)
          (d :: rest) rfl offset bytePair
        refine ⟨c :: W, fun dstlen out hfit => ?_⟩
        rw [List.length_cons, Nat.add_comm] at hfit
        rw [mbsLoop_of_ne_plus hplus, output_of_fits _ hfit.left, ok_bind, hW _ _ hfit.right,
          Out.emit_emit]
        rfl

theorem written_eq {dstlen : Nat} {l : List Nat} (h : l.length ≤ dstlen) :
    (if dstlen = 0 then [] else l) = l := by
  split
  · rename_i h0
    exact (List.eq_nil_of_length_eq_zero (by omega)).symm
  · rfl

theorem wcstombsUtf7_eq {src : List Nat} (hsrc : ∀ c ∈ src, c < 0x10000) {dstlen : Nat}
    (hfit : Fits dstlen 0 (utf7Encode src).length) :
    wcstombsUtf7 0 src dstlen false false =
      ((utf7Encode src).length, if dstlen = 0 then [] else utf7Encode src, none) := by
  rw [wcstombsUtf7, if_neg (by decide), if_neg (by decide), wcsLoop_spec src hsrc _ hfit]
  simp [Out.emit]

theorem mbstowcsUtf7_utf7Encode {src : List Nat} (hsrc : ∀ c ∈ src, c < 0x10000) {dstlen : Nat}
    (hfit : Fits dstlen 0 src.length) :
    mbstowcsUtf7 0 (utf7Encode src) dstlen = (src.length, if dstlen = 0 then [] else src, none) := by
  rw [mbstowcsUtf7, if_neg (by decide), mbsLoop_utf7Encode src hsrc 0 _ hfit]
  simp [Out.emit]

theorem mbstowcsUtf7_emits (src : List Nat) : ∃ W, ∀ dstlen, Fits dstlen 0 W.length →
    mbstowcsUtf7 0 src dstlen = (W.length, if dstlen = 0 then [] else W, none) := by
  obtain ⟨W, hW⟩ := mbsLoop_emits src 0 0
  refine ⟨W, fun dstlen hfit => ?_⟩
  rw [mbstowcsUtf7, if_neg (by decide), hW dstlen ⟨[], 0⟩ hfit]
  simp [Out.emit]

/-- For every string of code units, the bytes `wcstombs_utf7` writes into a buffer large enough
for them are read back by `mbstowcs_utf7`, given room for the string, as exactly the string; and
each function called with `dstlen = 0` returns the length it writes, without error, into a
buffer of at least that length, `mbstowcs_utf7` whatever the bytes. -/
theorem utf7_roundtrip (src : List Nat) (hsrc : ∀ c ∈ src, c < 0x10000) (bytes : List Nat) :
    (∀ dstlen, (wcstombsUtf7 0 src 0 false false).1 ≤ dstlen → ∀ dstlen', src.length ≤ dstlen' →
      mbstowcsUtf7 0 (wcstombsUtf7 0 src dstlen false false).2.1 dstlen' = (src.length, src, none)) ∧
    (∀ dstlen, (wcstombsUtf7 0 src 0 false false).1 ≤ dstlen →
      (wcstombsUtf7 0 src dstlen false false).1 = (wcstombsUtf7 0 src 0 false false).1 ∧
      (wcstombsUtf7 0 src dstlen false false).2.1.length = (wcstombsUtf7 0 src 0 false false).1 ∧
      (wcstombsUtf7 0 src dstlen false false).2.2 = none) ∧
    (∀ dstlen, (mbstowcsUtf7 0 bytes 0).1 ≤ dstlen →
      (mbstowcsUtf7 0 bytes dstlen).1 = (mbstowcsUtf7 0 bytes 0).1 ∧
      (mbstowcsUtf7 0 bytes dstlen).2.1.length = (mbstowcsUtf7 0 bytes 0).1 ∧
      (mbstowcsUtf7 0 bytes dstlen).2.2 = none) := by
  have hcount := @wcstombsUtf7_eq src hsrc 0 (Or.inl rfl)
  have hwrite : ∀ dstlen, (utf7Encode src).length ≤ dstlen →
      wcstombsUtf7 0 src dstlen false false = ((utf7Encode src).length, utf7Encode src, none) := by
    intro dstlen h
    rw [wcstombsUtf7_eq hsrc (Or.inr (by omega)), written_eq h]
  obtain ⟨W, hW⟩ := mbstowcsUtf7_emits bytes
  have hmcount := hW 0 (Or.inl rfl)
  refine ⟨fun dstlen h dstlen' h' => ?_, fun dstlen h => ?_, fun dstlen h => ?_⟩
  · rw [hcount] at h
    rw [hwrite dstlen h, mbstowcsUtf7_utf7Encode hsrc (Or.inr (by omega)), written_eq h']
  · rw [hcount] at h ⊢
    rw [hwrite dstlen h]
    exact ⟨rfl, rfl, rfl⟩
  · rw [hmcount] at h ⊢
    rw [hW dstlen (Or.inr (by omega)), written_eq h]
    exact ⟨rfl, rfl, rfl⟩

theorem utf7_roundtrip_euro :
    mbstowcsUtf7 0 (wcstombsUtf7 0 [0x41, 0x20ac, 0x2b, 0xd800]
      (wcstombsUtf7 0 [0x41, 0x20ac, 0x2b, 0xd800] 0 false false).1 false false).2.1 4 =
        (4, [0x41, 0x20ac, 0x2b, 0xd800], none) :=
  (utf7_roundtrip [0x41, 0x20ac, 0x2b, 0xd800] (by decide) []).1 _ (Nat.le_refl _) 4 (Nat.le_refl _)

end Wine.Kernelbase.Utf7
