import Wine.Lib.Memory
import Wine.Status

/-!
# Punycode labels (`dlls/ntdll/locale.c`)

`RtlIdnToUnicode` with `check_invalid_chars`, `get_char_props`, `get_combining_class` and
`put_utf16`. A run returns an `NTSTATUS` through `ExceptT` and stops on undefined behaviour
through `Mem.Run`: an `int` result outside its range is `overflow`, an index outside the
64-entry code-point buffer, the source, the destination or the level-1 property table is
`outOfBounds`. The normalization table is a parameter with the size of its level-1 table
(`0x110000 / 128` entries in `normidna.nls`); its contents are not modelled.
-/

namespace Wine.Ntdll

open Mem

set_option autoImplicit false

abbrev IdnM := ExceptT NtStatus Run

structure NormTable where
  classes : Nat → UInt8
  level1Size : Nat
  level1 : Nat → UInt8
  level2 : Nat → UInt8

def base : Int := 36
def tmin : Int := 1
def tmax : Int := 26
def skew : Int := 38
def damp : Int := 700
def idnAllowUnassigned : UInt32 := 0x1
def idnUseStd3AsciiRules : UInt32 := 0x2
def hangulSBase : Nat := 0xac00

def rol (val count : UInt8) : UInt8 := (val <<< count) ||| (val >>> (8 - count))

def getCharProps (info : NormTable) (ch : Nat) : Run UInt8 :=
  if ch / 128 < info.level1Size then
    let off := info.level1 (ch / 128)
    if off = 0 ∨ 0xfb ≤ off then pure (rol off 5)
    else pure (info.level2 ((off.toNat - 1) * 128 + ch % 128))
  else .error .outOfBounds

def getCombiningClass (info : NormTable) (c : Nat) : Run UInt8 := do
  let props ← getCharProps info c
  let cls := props &&& 0x3f
  pure (if cls = 0x3f then 0 else info.classes cls.toNat)

/-- The two `switch`es of `check_invalid_chars` on `buffer[i]`. -/
def invalidChar (info : NormTable) (flags : UInt32) (buffer : List Nat) (i : Nat) : Run Bool := do
  let c ← load buffer i
  -- a zero-width (non-)joiner must follow a virama
  let bad ←
    (if c = 0x200c ∨ c = 0x200d then
      if i = 0 then pure true
      else do
        let prev ← load buffer (i - 1)
        let cls ← getCombiningClass info prev
        pure (decide (cls ≠ 9))
    else if c = 0x2260 ∨ c = 0x226e ∨ c = 0x226f then pure (flags &&& idnUseStd3AsciiRules ≠ 0)
    else pure false : Run Bool)
  if bad then pure true
  else do
    let props ← getCharProps info c
    pure (if props = 0xbf then true
      else if props = 0xff then !(decide (hangulSBase ≤ c ∧ c < hangulSBase + 0x2c00))
      else if props = 0x7f then flags &&& idnAllowUnassigned = 0
      else false)

def checkChars (info : NormTable) (flags : UInt32) (buffer : List Nat) : Nat → Nat → Run Bool
  | 0, _ => pure false
  | n + 1, i => do
    let bad ← invalidChar info flags buffer i
    if bad then pure true else checkChars info flags buffer n (i + 1)

def checkInvalidChars (info : NormTable) (flags : UInt32) (buffer : List Nat) (len : Nat) :
    Run Bool := do
  let bad ← checkChars info flags buffer len 0
  if bad then pure true
  else if flags &&& idnUseStd3AsciiRules ≠ 0 ∧ len ≠ 0 then do
    let first ← load buffer 0
    if first = 0x2d then pure true
    else do
      let last ← load buffer (len - 1)
      pure (decide (last = 0x2d))
  else pure false

def putUtf16 (dst : List UInt16) (i ch : Nat) : Run (List UInt16) :=
  if 0x10000 ≤ ch then do
    let dst ← store dst i (UInt16.ofNat (0xd800 ||| ((ch - 0x10000) >>> 10)))
    store dst (i + 1) (UInt16.ofNat (0xdc00 ||| ((ch - 0x10000) &&& 0x3ff)))
  else store dst i (UInt16.ofNat ch)

/-- `wcslen`: the index of the first NUL, which must be inside the string. -/
def wcslen : List UInt16 → Run Nat
  | [] => .error .outOfBounds
  | c :: cs => if c = 0 then pure 0 else (· + 1) <$> wcslen cs

/-- The scan of one label from index `i`, `fuel` characters left: where it stops, the last
`-` and the last character read. -/
def scanLabel (src : List UInt16) (srclen : Nat) (flags : UInt32) :
    Nat → Nat → Nat → UInt16 → IdnM (Nat × Nat × UInt16)
  | 0, i, delim, ch => pure (i, delim, ch)
  | fuel + 1, i, delim, ch =>
    if srclen ≤ i then pure (i, delim, ch)
    else do
      let ch ← (load src i : Run UInt16)
      if 0x7f < ch ∨ (i ≠ srclen - 1 ∧ ch = 0) then throw .invalidIdnNormalization
      else if ch = 0 ∨ ch = 0x2e then pure (i, delim, ch)
      else
        let delim := if ch = 0x2d then i else delim
        if flags &&& idnUseStd3AsciiRules = 0 then scanLabel src srclen flags fuel (i + 1) delim ch
        else if (0x61 ≤ ch ∧ ch ≤ 0x7a) ∨ (0x41 ≤ ch ∧ ch ≤ 0x5a) ∨ (0x30 ≤ ch ∧ ch ≤ 0x39) ∨
            ch = 0x2d then scanLabel src srclen flags fuel (i + 1) delim ch
        else throw .invalidIdnNormalization

/-- The basic code points before the delimiter, at most 64 of them. -/
def copyBasic (src : List UInt16) (delim : Nat) :
    Nat → Nat → Nat → List Nat → Run (Nat × Nat × List Nat)
  | 0, i, buflen, buffer => pure (i, buflen, buffer)
  | fuel + 1, i, buflen, buffer =>
    if i < delim ∧ buflen < 64 then do
      let ch ← load src i
      let buffer ← store buffer buflen ch.toNat
      copyBasic src delim fuel (i + 1) (buflen + 1) buffer
    else pure (i, buflen, buffer)

def digitOf (ch : UInt16) : Option Int :=
  if 0x61 ≤ ch ∧ ch ≤ 0x7a then some (ch.toNat - 0x61)
  else if 0x41 ≤ ch ∧ ch ≤ 0x5a then some (ch.toNat - 0x41)
  else if 0x30 ≤ ch ∧ ch ≤ 0x39 then some (ch.toNat - 0x30 + 26)
  else none

/-- The `t` of the inner loop. -/
def threshold (k bias : Int) : Int :=
  if k ≤ bias then tmin else if bias + tmax ≤ k then tmax else k - bias

/-- The decoder's `int` variables and its code-point buffer. -/
structure Puny where
  n : Int
  bias : Int
  pos : Int
  oldPos : Int
  w : Int
  k : Int
  buffer : List Nat
  buflen : Nat
  deriving DecidableEq, Repr

/-- The head of the outer loop: `old_pos = pos; w = 1; k = BASE`. -/
def Puny.startDelta (p : Puny) : Puny := { p with oldPos := p.pos, w := 1, k := base }

/-- `for (k = 0; delta > ((BASE - TMIN) * TMAX) / 2; k += BASE) delta /= BASE - TMIN`;
the fuel `delta` suffices, as each round at least halves `delta`. -/
def adaptLoop : Nat → Int → Int → Int × Int
  | 0, delta, k => (delta, k)
  | fuel + 1, delta, k =>
    if (base - tmin) * tmax / 2 < delta then adaptLoop fuel (delta.tdiv (base - tmin)) (k + base)
    else (delta, k)

/-- The end of one delta: the bias adaptation and the insertion of code point `n` at `pos`. -/
def insertCodePoint (p : Puny) : IdnM Puny := do
  let delta := (p.pos - p.oldPos).tdiv (if p.oldPos = 0 then damp else 2)
  let delta ← (int32 (delta + delta.tdiv (p.buflen + 1)) : Run Int)
  let adapted := adaptLoop delta.toNat delta 0
  let bias := adapted.2 + ((base - tmin + 1) * adapted.1).tdiv (adapted.1 + skew)
  let n ← (int32 (p.n + p.pos.tdiv (p.buflen + 1)) : Run Int)
  let pos := p.pos.tmod (p.buflen + 1)
  if 63 ≤ p.buflen then throw .invalidIdnNormalization
  else do
    -- `buffer + pos` for a negative `pos` is outside the buffer
    let pos ← (if 0 ≤ pos then pure pos.toNat else .error .outOfBounds : Run Nat)
    let buffer ← (copy p.buffer (pos + 1) p.buffer pos (p.buflen - pos) : Run (List Nat))
    let buffer ← (store buffer pos n.toNat : Run (List Nat))
    pure { p with n := n, bias := bias, pos := pos + 1, buffer := buffer, buflen := p.buflen + 1 }

/-- The `while (i < end)` loop and its inner `for (k = BASE; ; k += BASE)` one character a
step, `fuel` characters left; `inDelta` says the inner loop is under way. -/
def decodeDigits (src : List UInt16) (stop : Nat) : Nat → Nat → Bool → Puny → IdnM Puny
  | 0, _, inDelta, p => if inDelta then throw .invalidIdnNormalization else pure p
  | fuel + 1, i, inDelta, p =>
    if stop ≤ i then (if inDelta then throw .invalidIdnNormalization else pure p)
    else do
      let p := if inDelta then p else p.startDelta
      let ch ← (load src i : Run UInt16)
      match digitOf ch with
      | none => throw .invalidIdnNormalization
      | some digit =>
        let prod ← (int32 (digit * p.w) : Run Int)
        let pos ← (int32 (p.pos + prod) : Run Int)
        let t := threshold p.k p.bias
        if digit < t then do
          let p ← insertCodePoint { p with pos := pos }
          decodeDigits src stop fuel (i + 1) false p
        else do
          let w ← (int32 (p.w * (base - t)) : Run Int)
          let k ← (int32 (p.k + base) : Run Int)
          decodeDigits src stop fuel (i + 1) true { p with pos := pos, w := w, k := k }

/-- The output loop of a decoded label: `put_utf16` of each code point from `out`. -/
def putLabel (dst : List UInt16) (dstlen : Nat) (buffer : List Nat) :
    Nat → Nat → Nat → IdnM (List UInt16 × Nat)
  | 0, _, out => pure (dst, out)
  | n + 1, i, out => do
    let c ← (load buffer i : Run Nat)
    let len := if 0x10000 ≤ c then 2 else 1
    if dstlen ≠ 0 then
      if out + len ≤ dstlen then do
        let dst ← (putUtf16 dst out c : Run (List UInt16))
        putLabel dst dstlen buffer n (i + 1) (out + len)
      else throw .bufferTooSmall
    else putLabel dst dstlen buffer n (i + 1) (out + len)

/-- `xn--`, in either case, starts the label at `start`; the code reads these characters only
once the label is 4 long. -/
def isPunycodeLabel (src : List UInt16) (start stop : Nat) : Run Bool :=
  if stop - start < 4 then pure false
  else do
    let c0 ← load src start
    let c1 ← load src (start + 1)
    let c2 ← load src (start + 2)
    let c3 ← load src (start + 3)
    pure ((c0 = 0x78 ∨ c0 = 0x58) ∧ (c1 = 0x6e ∨ c1 = 0x4e) ∧ c2 = 0x2d ∧ c3 = 0x2d)

/-- A label that is not Punycode, copied as it is with its separator. -/
def plainLabel (src : List UInt16) (srclen : Nat) (flags : UInt32) (dst : List UInt16)
    (dstlen start stop out : Nat) : IdnM (List UInt16 × Nat × Nat) := do
  if 63 < stop - start then throw .invalidIdnNormalization
  else do
    let dashed ←
      (if flags &&& idnUseStd3AsciiRules ≠ 0 then do
        let first ← load src start
        if first = 0x2d then pure true
        else do
          -- `src[end - 1]` of an empty first label is before the string
          let last ← loadBack src stop 1
          pure (decide (last = 0x2d))
      else pure false : Run Bool)
    if dashed then throw .invalidIdnNormalization
    else
      let stop := if stop < srclen then stop + 1 else stop
      let dst ←
        (if dstlen ≠ 0 then
          if out + (stop - start) ≤ dstlen then (copy dst out src start (stop - start) : Run _)
          else throw .bufferTooSmall
        else pure dst : IdnM (List UInt16))
      pure (dst, stop, out + (stop - start))

/-- A Punycode label: decoded, checked, written out with its separator. -/
def punycodeLabel (info : NormTable) (src : List UInt16) (srclen : Nat) (flags : UInt32)
    (dst : List UInt16) (dstlen start stop delim out : Nat) : IdnM (List UInt16 × Nat) := do
  let delim := if delim = start + 3 then delim + 1 else delim
  let basic ← (copyBasic src delim (delim - (start + 4)) (start + 4) 0 (List.replicate 64 0) :
    Run (Nat × Nat × List Nat))
  let i := if basic.2.1 ≠ 0 then basic.1 + 1 else basic.1
  let p ← decodeDigits src stop (stop - i) i false ⟨0x80, 72, 0, 0, 1, base, basic.2.2, basic.2.1⟩
  let bad ← (checkInvalidChars info flags p.buffer p.buflen : Run Bool)
  if bad then throw .invalidIdnNormalization
  else do
    let written ← putLabel dst dstlen p.buffer p.buflen 0 out
    if 63 < written.2 - out then throw .invalidIdnNormalization
    else if stop < srclen then
      if dstlen ≠ 0 then
        if written.2 + 1 ≤ dstlen then do
          let sep ← (load src stop : Run UInt16)
          let dst ← (store written.1 written.2 sep : Run (List UInt16))
          pure (dst, written.2 + 1)
        else throw .bufferTooSmall
      else pure (written.1, written.2 + 1)
    else pure written

/-- The loop over the labels from `start`, writing from `out`. -/
def idnLabels (info : NormTable) (flags : UInt32) (src : List UInt16) (srclen dstlen : Nat) :
    Nat → Nat → Nat → UInt16 → List UInt16 → IdnM (List UInt16 × Nat)
  | 0, _, out, _, dst => pure (dst, out)
  | fuel + 1, start, out, ch, dst =>
    if srclen ≤ start then pure (dst, out)
    else do
      let scanned ← scanLabel src srclen flags (srclen - start) start 0 ch
      let stop := scanned.1
      let ch := scanned.2.2
      -- only the last label may be empty
      if start = stop ∧ ch ≠ 0 then throw .invalidIdnNormalization
      else do
        let puny ← (isPunycodeLabel src start stop : Run Bool)
        if !puny then do
          let r ← plainLabel src srclen flags dst dstlen start stop out
          idnLabels info flags src srclen dstlen fuel r.2.1 r.2.2 ch r.1
        else do
          let r ← punycodeLabel info src srclen flags dst dstlen start stop scanned.2.1 out
          idnLabels info flags src srclen dstlen fuel (stop + 1) r.2 ch r.1

/-- `RtlIdnToUnicode( flags, src, srclen, dst, dstlen )` for a table that loaded: the
destination and `*dstlen` on `STATUS_SUCCESS`. -/
def rtlIdnToUnicode (info : NormTable) (flags : UInt32) (src : List UInt16) (srclen : Int)
    (dst : List UInt16) (dstlen : Nat) : IdnM (List UInt16 × Nat) := do
  if srclen < -1 then throw .invalidParameter
  else do
    let srclen ← (if srclen = -1 then (· + 1) <$> wcslen src else pure srclen.toNat : Run Nat)
    idnLabels info flags src srclen dstlen (srclen + 1) 0 0 0 dst

/-! ## Where a run can fault

On a table whose level-1 part covers every nonnegative `int` code point, a run faults only by
`int` overflow: the code-point buffer, the source up to `srclen` and the destination up to
`*dstlen` are accessed only inside. The one exception is the empty first label under
`IDN_USE_STD3_ASCII_RULES`, which reads `src[-1]`. -/

/-- The destination as the caller passed it: `*dstlen` cells, written below `*dstlen`. -/
structure DstOk (dstlen : Nat) (dst : List UInt16) (out : Nat) : Prop where
  length_dst : dst.length = dstlen
  out_le : dstlen ≠ 0 → out ≤ dstlen

/-- What the decoder keeps from character to character. -/
structure Puny.Inv (inDelta : Bool) (p : Puny) : Prop where
  pos_nonneg : 0 ≤ p.pos
  length_buffer : p.buffer.length = 64
  buflen_le : p.buflen ≤ 64
  buffer_lt : ∀ c ∈ p.buffer, c < 2 ^ 31
  w_pos : inDelta = true → 0 < p.w

theorem threshold_lt_base (k bias : Int) : threshold k bias < base := by
  unfold threshold base tmin tmax
  split
  · omega
  · split <;> omega

theorem digitOf_nonneg {ch : UInt16} {d : Int} (h : digitOf ch = some d) : 0 ≤ d := by
  unfold digitOf at h
  split at h
  · next hc => cases h; simp [UInt16.le_iff_toNat_le] at hc; omega
  · split at h
    · next hc => cases h; simp [UInt16.le_iff_toNat_le] at hc; omega
    · split at h
      · next hc => cases h; simp [UInt16.le_iff_toNat_le] at hc; omega
      · cases h

theorem faults_int32 (x : Int) :
    Faults (· = .overflow) (monadLift (int32 x) : IdnM Int)
      fun y => y = x ∧ -2 ^ 31 ≤ x ∧ x < 2 ^ 31 := by
  apply Faults.lift
  · intro f hf
    unfold int32 at hf
    split at hf
    · cases hf
    · cases hf; rfl
  · intro y hy
    unfold int32 at hy
    split at hy
    · next h => cases hy; exact ⟨rfl, h⟩
    · cases hy

theorem Puny.Inv.startDelta {inDelta : Bool} {p : Puny} (hp : p.Inv inDelta) :
    (if inDelta then p else p.startDelta).Inv true := by
  cases inDelta with
  | true => exact hp
  | false =>
    obtain ⟨hpos, hlen, hbuflen, hlt, -⟩ := hp
    exact ⟨hpos, hlen, hbuflen, hlt, fun _ => by simp [Puny.startDelta]⟩

theorem insertCodePoint_inv {p : Puny} (hp : p.Inv true) :
    Faults (· = .overflow) (insertCodePoint p) (Puny.Inv false) := by
  obtain ⟨hpos, hlen, -, hlt, -⟩ := hp
  unfold insertCodePoint
  refine Faults.bind (faults_int32 _) fun delta _ => ?_
  refine Faults.bind (faults_int32 _) fun n hn => ?_
  apply Faults.ite (fun _ => Faults.throw)
  intro hfull
  have hmod0 : 0 ≤ p.pos.tmod (p.buflen + 1) := Int.tmod_nonneg _ hpos
  have hmod : p.pos.tmod (p.buflen + 1) < p.buflen + 1 := Int.tmod_lt_of_pos _ (by omega)
  rw [if_pos hmod0]
  refine Faults.bind (Faults.lift_returns (Returns.pure rfl)) fun pos hpos' => ?_
  have hle : pos ≤ p.buflen := by omega
  -- the memmove stays inside the 64 cells, as the buffer is not full
  refine Faults.bind (Faults.lift_returns
    (returns_copy_forall (by omega) (by omega) hlt hlt)) fun b ⟨hb, hblt⟩ => ?_
  refine Faults.bind (Faults.lift_returns
    (returns_store_forall (by omega) hblt (by omega))) fun b' ⟨hb', hb'lt⟩ => ?_
  apply Faults.pure
  exact ⟨by dsimp only; omega, by simp [hb', hb, hlen], by simp; omega, hb'lt, by simp⟩

theorem decodeDigits_inv {src : List UInt16} {stop : Nat} (hstop : stop ≤ src.length) :
    ∀ fuel i inDelta p, p.Inv inDelta →
      Faults (· = .overflow) (decodeDigits src stop fuel i inDelta p) (Puny.Inv false) := by
  intro fuel
  induction fuel with
  | zero =>
    intro i inDelta p hp
    cases inDelta
    · exact Faults.pure hp
    · exact Faults.throw
  | succ fuel ih =>
    intro i inDelta p hp
    unfold decodeDigits
    apply Faults.ite
    · intro _
      cases inDelta
      · exact Faults.pure hp
      · exact Faults.throw
    intro hi
    have hq := hp.startDelta
    generalize (if inDelta then p else p.startDelta) = q at hq
    obtain ⟨hpos, hlen, hbuflen, hlt, hw⟩ := hq
    refine Faults.bind (Faults.lift_returns
      (returns_load (Q := fun _ => True) (by omega) trivial)) fun ch _ => ?_
    split
    · exact Faults.throw
    next digit hdigit =>
    have hd := digitOf_nonneg hdigit
    refine Faults.bind (faults_int32 _) fun prod hprod => ?_
    refine Faults.bind (faults_int32 _) fun pos hpos' => ?_
    have hprod0 : 0 ≤ prod := hprod.1 ▸ Int.mul_nonneg hd (le_of_lt (hw rfl))
    apply Faults.ite
    · intro _
      refine Faults.bind (insertCodePoint_inv ⟨by dsimp only; omega, hlen, hbuflen, hlt, fun _ => hw rfl⟩)
        fun p' hp' => ih _ _ _ hp'
    · intro _
      have ht := threshold_lt_base q.k q.bias
      refine Faults.bind (faults_int32 _) fun w hw' => ?_
      refine Faults.bind (faults_int32 _) fun k _ => ?_
      apply ih
      refine ⟨by dsimp only; omega, hlen, hbuflen, hlt, fun _ => ?_⟩
      dsimp only
      rw [hw'.1]
      exact Int.mul_pos (hw rfl) (by omega)

theorem returns_wcslen : ∀ {s : List UInt16}, 0 ∈ s → Returns (wcslen s) (· < s.length)
  | [], h => absurd h List.not_mem_nil
  | c :: cs, h => by
    unfold wcslen
    by_cases hc : c = 0
    · rw [if_pos hc]
      exact Returns.pure (by simp)
    · rw [if_neg hc]
      have hcs : 0 ∈ cs := by
        rcases List.mem_cons.mp h with h | h
        · exact absurd h.symm hc
        · exact h
      exact Returns.map (returns_wcslen hcs) fun a ha => by simp; omega

/-- What the scan of a label from `i` leaves: a stop in `[i, srclen]`, the last `-` before it,
and, when it stopped where it started, the character there. -/
def ScanOk (src : List UInt16) (srclen i delim : Nat) (r : Nat × Nat × UInt16) : Prop :=
  i ≤ r.1 ∧ r.1 ≤ srclen ∧ (r.2.1 = delim ∨ r.2.1 < r.1) ∧
    (r.1 = i → i < srclen → src[i]? = some r.2.2)

section Labels

variable {F : Fault → Prop} {src : List UInt16} {srclen : Nat} {flags : UInt32}

theorem scanLabel_faults (hsrc : srclen ≤ src.length) :
    ∀ fuel i delim ch, i ≤ srclen → srclen ≤ i + fuel →
      Faults F (scanLabel src srclen flags fuel i delim ch) (ScanOk src srclen i delim) := by
  intro fuel
  induction fuel with
  | zero =>
    intro i delim ch h1 h2
    exact Faults.pure ⟨le_rfl, h1, .inl rfl, fun _ h => by omega⟩
  | succ fuel ih =>
    intro i delim ch h1 h2
    unfold scanLabel
    refine Faults.ite (fun h => Faults.pure ⟨le_rfl, h1, .inl rfl, fun _ h' => by omega⟩) fun hi => ?_
    refine Faults.bind (Faults.lift_returns (returns_load (Q := fun c => src[i]? = some c)
      (by omega) (List.getElem?_eq_getElem _))) fun c hc => ?_
    have hnext : Faults F (scanLabel src srclen flags fuel (i + 1)
        (if c = 0x2d then i else delim) c) (ScanOk src srclen i delim) := by
      refine (ih _ _ c (by omega) (by omega)).mono fun r ⟨hr1, hr2, hr3, _⟩ =>
        ⟨by omega, hr2, ?_, fun h => by omega⟩
      split at hr3 <;> omega
    refine Faults.ite (fun _ => Faults.throw) fun _ => ?_
    refine Faults.ite (fun _ => Faults.pure ⟨le_rfl, by omega, .inl rfl, fun _ _ => hc⟩) fun _ => ?_
    refine Faults.ite (fun _ => hnext) fun _ => ?_
    exact Faults.ite (fun _ => hnext) fun _ => Faults.throw

theorem returns_isPunycodeLabel {start stop : Nat} (hstop : stop ≤ src.length) :
    Returns (isPunycodeLabel src start stop) fun b => b = true → start + 4 ≤ stop := by
  unfold isPunycodeLabel
  refine Returns.ite (fun _ => Returns.pure fun h => by cases h) fun h4 => ?_
  refine Returns.bind (returns_load (Q := fun _ => True) (by omega) trivial) fun _ _ => ?_
  refine Returns.bind (returns_load (Q := fun _ => True) (by omega) trivial) fun _ _ => ?_
  refine Returns.bind (returns_load (Q := fun _ => True) (by omega) trivial) fun _ _ => ?_
  refine Returns.bind (returns_load (Q := fun _ => True) (by omega) trivial) fun _ _ => ?_
  exact Returns.pure fun _ => by omega

theorem returns_copyBasic {delim : Nat} (hdelim : delim ≤ src.length) :
    ∀ fuel i buflen buffer, buflen ≤ 64 → buffer.length = 64 → (∀ c ∈ buffer, c < 2 ^ 31) →
      Returns (copyBasic src delim fuel i buflen buffer)
        fun r => r.2.1 ≤ 64 ∧ r.2.2.length = 64 ∧ ∀ c ∈ r.2.2, c < 2 ^ 31 := by
  intro fuel
  induction fuel with
  | zero =>
    intro i buflen buffer h1 h2 h3
    exact Returns.pure ⟨h1, h2, h3⟩
  | succ fuel ih =>
    intro i buflen buffer h1 h2 h3
    unfold copyBasic
    refine Returns.ite (fun ⟨hi, hb⟩ => ?_) fun _ => Returns.pure ⟨h1, h2, h3⟩
    refine Returns.bind (returns_load (Q := fun _ => True) (by omega) trivial) fun ch _ => ?_
    have hch := ch.toNat_lt
    refine Returns.bind (returns_store_forall (by omega) h3 (by omega)) fun b ⟨hb1, hb2⟩ => ?_
    exact ih _ _ _ (by omega) (by omega) hb2

theorem returns_putUtf16 {dst : List UInt16} {i ch : Nat}
    (h : i + (if 0x10000 ≤ ch then 2 else 1) ≤ dst.length) :
    Returns (putUtf16 dst i ch) fun d => d.length = dst.length := by
  unfold putUtf16
  split
  · next hc =>
    rw [if_pos hc] at h
    refine Returns.bind (returns_store (Q := fun d => d.length = dst.length) (by omega)
      List.length_set) fun d hd => ?_
    exact returns_store (by omega) (by simp [hd])
  · next hc =>
    rw [if_neg hc] at h
    exact returns_store (by omega) List.length_set

theorem putLabel_faults {dstlen : Nat} {buffer : List Nat} :
    ∀ n i out dst, i + n ≤ buffer.length → DstOk dstlen dst out →
      Faults F (putLabel dst dstlen buffer n i out) (fun r => DstOk dstlen r.1 r.2) := by
  intro n
  induction n with
  | zero =>
    intro i out dst _ hdst
    exact Faults.pure hdst
  | succ n ih =>
    intro i out dst hin ⟨hlen, hout⟩
    unfold putLabel
    refine Faults.bind (Faults.lift_returns (returns_load (Q := fun _ => True) (by omega) trivial))
      fun c _ => ?_
    refine Faults.ite (fun hd0 => ?_) fun hd0 => ih _ _ _ (by omega) ⟨hlen, fun h => absurd h hd0⟩
    refine Faults.ite (fun hfit => ?_) fun _ => Faults.throw
    refine Faults.bind (Faults.lift_returns (returns_putUtf16 (by omega))) fun d hd => ?_
    exact ih _ _ _ (by omega) ⟨by rw [hd, hlen], fun _ => hfit⟩

theorem plainLabel_faults {dst : List UInt16} {dstlen start stop out : Nat}
    (hsrc : srclen ≤ src.length) (hstart : start < srclen) (hstop : stop ≤ srclen) (hback : flags &&& idnUseStd3AsciiRules ≠ 0 → 1 ≤ stop)
    (hdst : DstOk dstlen dst out) :
    Faults F (plainLabel src srclen flags dst dstlen start stop out)
      fun r => DstOk dstlen r.1 r.2.2 := by
  obtain ⟨hlen, hout⟩ := hdst
  unfold plainLabel
  refine Faults.ite (fun _ => Faults.throw) fun _ => ?_
  refine Faults.bind (Faults.lift_returns (Q := fun _ => True) ?_) fun dashed _ => ?_
  · refine Returns.ite (fun hstd => ?_) fun _ => Returns.pure trivial
    refine Returns.bind (returns_load (Q := fun _ => True) (by omega) trivial) fun _ _ => ?_
    refine Returns.ite (fun _ => Returns.pure trivial) fun _ => ?_
    exact Returns.bind (returns_loadBack (Q := fun _ => True) (hback hstd) (by omega) trivial)
      fun _ _ => Returns.pure trivial
  refine Faults.ite (fun _ => Faults.throw) fun _ => ?_
  have hend : (if stop < srclen then stop + 1 else stop) ≤ srclen := by split <;> omega
  refine Faults.bind (P := fun d => DstOk dstlen d (out + ((if stop < srclen then stop + 1 else stop) - start)))
    ?_ fun d hd => Faults.pure hd
  refine Faults.ite (fun hd0 => ?_) fun hd0 => Faults.pure ⟨hlen, fun h => absurd h hd0⟩
  refine Faults.ite (fun hfit => ?_) fun _ => Faults.throw
  exact Faults.lift_returns (returns_copy (by omega) (by omega) fun d hd => ⟨by omega, fun _ => hfit⟩)

end Labels

section Table

variable {info : NormTable} (htab : 2 ^ 24 ≤ info.level1Size)
include htab

theorem returns_getCharProps {ch : Nat} (hch : ch < 2 ^ 31) :
    Returns (getCharProps info ch) fun _ => True := by
  unfold getCharProps
  rw [if_pos (by omega)]
  dsimp only
  split <;> exact Returns.pure trivial

theorem returns_getCombiningClass {c : Nat} (hc : c < 2 ^ 31) :
    Returns (getCombiningClass info c) fun _ => True :=
  Returns.bind (returns_getCharProps htab hc) fun _ _ => Returns.pure trivial

theorem returns_invalidChar {flags : UInt32} {buffer : List Nat} {i : Nat}
    (hi : i < buffer.length) (hbuf : ∀ c ∈ buffer, c < 2 ^ 31) :
    Returns (invalidChar info flags buffer i) fun _ => True := by
  have hget : ∀ j (hj : j < buffer.length), buffer[j] < 2 ^ 31 :=
    fun j hj => hbuf _ (List.getElem_mem hj)
  unfold invalidChar
  refine Returns.bind (returns_load hi (Q := fun c => c < 2 ^ 31) (hget i hi)) fun c hc => ?_
  refine Returns.bind (P := fun _ => True) ?_ fun bad _ => ?_
  · refine Returns.ite (fun _ => ?_) fun _ => ?_
    · refine Returns.ite (fun _ => Returns.pure trivial) fun hi0 => ?_
      refine Returns.bind (returns_load (Q := fun c => c < 2 ^ 31) (by omega) (hget _ _))
        fun prev hprev => ?_
      exact Returns.bind (returns_getCombiningClass htab hprev) fun _ _ => Returns.pure trivial
    · exact Returns.ite (fun _ => Returns.pure trivial) fun _ => Returns.pure trivial
  · refine Returns.ite (fun _ => Returns.pure trivial) fun _ => ?_
    exact Returns.bind (returns_getCharProps htab hc) fun _ _ => Returns.pure trivial

theorem returns_checkChars {flags : UInt32} {buffer : List Nat} (hbuf : ∀ c ∈ buffer, c < 2 ^ 31) :
    ∀ n i, i + n ≤ buffer.length → Returns (checkChars info flags buffer n i) fun _ => True := by
  intro n
  induction n with
  | zero =>
    intro i _
    exact Returns.pure trivial
  | succ n ih =>
    intro i hin
    unfold checkChars
    refine Returns.bind (returns_invalidChar htab (by omega) hbuf) fun bad _ => ?_
    exact Returns.ite (fun _ => Returns.pure trivial) fun _ => ih _ (by omega)

theorem returns_checkInvalidChars {flags : UInt32} {buffer : List Nat} {len : Nat}
    (hlen : len ≤ buffer.length) (hbuf : ∀ c ∈ buffer, c < 2 ^ 31) :
    Returns (checkInvalidChars info flags buffer len) fun _ => True := by
  unfold checkInvalidChars
  refine Returns.bind (returns_checkChars htab hbuf len 0 (by omega)) fun bad _ => ?_
  refine Returns.ite (fun _ => Returns.pure trivial) fun _ => ?_
  refine Returns.ite (fun ⟨_, hlen0⟩ => ?_) fun _ => Returns.pure trivial
  refine Returns.bind (returns_load (Q := fun _ => True) (by omega) trivial) fun _ _ => ?_
  refine Returns.ite (fun _ => Returns.pure trivial) fun _ => ?_
  exact Returns.bind (returns_load (Q := fun _ => True) (by omega) trivial)
    fun _ _ => Returns.pure trivial

theorem punycodeLabel_faults {src : List UInt16} {srclen : Nat} {flags : UInt32}
    {dst : List UInt16} {dstlen start stop delim out : Nat} (hsrc : srclen ≤ src.length)
    (h4 : start + 4 ≤ stop) (hstop : stop ≤ srclen) (hdelim : delim = 0 ∨ delim < stop)
    (hdst : DstOk dstlen dst out) :
    Faults (· = .overflow) (punycodeLabel info src srclen flags dst dstlen start stop delim out)
      (fun r => DstOk dstlen r.1 r.2) := by
  unfold punycodeLabel
  have hdelim' : (if delim = start + 3 then delim + 1 else delim) ≤ src.length := by
    split <;> omega
  refine Faults.bind (Faults.lift_returns (returns_copyBasic hdelim' _ _ _ _ (by omega)
    (by simp) (by simp))) fun basic ⟨hb1, hb2, hb3⟩ => ?_
  refine Faults.bind (decodeDigits_inv (by omega) _ _ _ _ ⟨le_rfl, hb2, hb1, hb3, fun h => by cases h⟩)
    fun p hp => ?_
  refine Faults.bind (Faults.lift_returns
    (returns_checkInvalidChars htab (by have := hp.buflen_le; have := hp.length_buffer; omega)
      hp.buffer_lt)) fun bad _ => ?_
  refine Faults.ite (fun _ => Faults.throw) fun _ => ?_
  refine Faults.bind (putLabel_faults _ _ _ _ (by have := hp.buflen_le; have := hp.length_buffer; omega)
    hdst) fun w ⟨hw1, hw2⟩ => ?_
  refine Faults.ite (fun _ => Faults.throw) fun _ => ?_
  refine Faults.ite (fun hs => ?_) fun _ => Faults.pure ⟨hw1, hw2⟩
  refine Faults.ite (fun hd0 => ?_) fun hd0 => Faults.pure ⟨hw1, fun h => absurd h hd0⟩
  refine Faults.ite (fun hfit => ?_) fun _ => Faults.throw
  refine Faults.bind (Faults.lift_returns (returns_load (Q := fun _ => True) (by omega) trivial))
    fun sep _ => ?_
  refine Faults.bind (Faults.lift_returns (returns_store (Q := fun d => d.length = w.1.length)
    (by omega) List.length_set)) fun d hd => ?_
  exact Faults.pure ⟨hd.trans hw1, fun _ => hfit⟩

theorem idnLabels_faults {src : List UInt16} {srclen : Nat} {flags : UInt32} {dstlen : Nat}
    (hsrc : srclen ≤ src.length)
    (hfirst : flags &&& idnUseStd3AsciiRules = 0 ∨ src[0]? ≠ some 0) :
    ∀ fuel start out ch dst, DstOk dstlen dst out →
      Faults (· = .overflow) (idnLabels info flags src srclen dstlen fuel start out ch dst)
        (fun r => DstOk dstlen r.1 r.2) := by
  intro fuel
  induction fuel with
  | zero =>
    intro start out ch dst hdst
    exact Faults.pure hdst
  | succ fuel ih =>
    intro start out ch dst hdst
    unfold idnLabels
    refine Faults.ite (fun _ => Faults.pure hdst) fun hstart => ?_
    replace hstart : start < srclen := Nat.lt_of_not_le hstart
    refine Faults.bind (scanLabel_faults hsrc _ _ _ _ (by omega) (by omega))
      fun r ⟨hr1, hr2, hr3, hr4⟩ => ?_
    refine Faults.ite (fun _ => Faults.throw) fun hempty => ?_
    refine Faults.bind (Faults.lift_returns (returns_isPunycodeLabel (by omega))) fun puny hpuny => ?_
    -- a label that stops at 0 is an empty first label, whose character is the NUL at src[0]
    have hback : flags &&& idnUseStd3AsciiRules ≠ 0 → 1 ≤ r.1 := by
      intro hstd
      by_contra h0
      have hz : r.1 = start := by omega
      have hch : r.2.2 = 0 := by
        by_contra hne
        exact hempty ⟨hz.symm, hne⟩
      have hget := hr4 hz hstart
      rw [show start = 0 by omega, hch] at hget
      rcases hfirst with h | h
      · exact hstd h
      · exact h hget
    refine Faults.ite (fun _ => ?_) fun hpuny' => ?_
    · exact Faults.bind (plainLabel_faults hsrc hstart hr2 hback hdst) fun q hq => ih _ _ _ _ hq
    · have h4 := hpuny (by simpa using hpuny')
      exact Faults.bind (punycodeLabel_faults htab hsrc h4 hr2 hr3 hdst) fun q hq => ih _ _ _ _ hq

end Table

/-! ## A table cut short

`normidna.nls` has `0x2200` level-1 entries, one for each 128 code points up to `0x10ffff`. A run
over a table is the run over the same table with more level-1 entries, except that it may stop
on a read past the table's end. -/

section Widen

variable {info : NormTable} {n : Nat} (hn : info.level1Size ≤ n)
include hn

theorem getCharProps_narrower (ch : Nat) :
    Narrower (getCharProps info ch) (getCharProps { info with level1Size := n } ch) := by
  unfold getCharProps
  by_cases h : ch / 128 < info.level1Size
  · rw [if_pos h, if_pos (show ch / 128 < n by omega)]
    exact .rfl
  · rw [if_neg h]
    exact .outOfBounds

theorem getCombiningClass_narrower (c : Nat) :
    Narrower (getCombiningClass info c) (getCombiningClass { info with level1Size := n } c) :=
  (getCharProps_narrower hn c).bind fun _ => .rfl

theorem invalidChar_narrower (flags : UInt32) (buffer : List Nat) (i : Nat) :
    Narrower (invalidChar info flags buffer i)
      (invalidChar { info with level1Size := n } flags buffer i) := by
  unfold invalidChar
  refine Narrower.rfl.bind fun c => ?_
  refine Narrower.bind ?_ fun bad => ?_
  · refine Narrower.ite (fun _ => ?_) fun _ => .rfl
    refine Narrower.ite (fun _ => .rfl) fun _ => ?_
    exact Narrower.rfl.bind fun prev => (getCombiningClass_narrower hn prev).bind fun _ => .rfl
  · exact Narrower.ite (fun _ => .rfl) fun _ => (getCharProps_narrower hn c).bind fun _ => .rfl

theorem checkChars_narrower (flags : UInt32) (buffer : List Nat) :
    ∀ k i, Narrower (checkChars info flags buffer k i)
      (checkChars { info with level1Size := n } flags buffer k i) := by
  intro k
  induction k with
  | zero => intro i; exact .rfl
  | succ k ih =>
    intro i
    unfold checkChars
    exact (invalidChar_narrower hn flags buffer i).bind fun _ =>
      Narrower.ite (fun _ => .rfl) fun _ => ih _

theorem checkInvalidChars_narrower (flags : UInt32) (buffer : List Nat) (len : Nat) :
    Narrower (checkInvalidChars info flags buffer len)
      (checkInvalidChars { info with level1Size := n } flags buffer len) := by
  unfold checkInvalidChars
  exact (checkChars_narrower hn flags buffer len 0).bind fun _ => .rfl

theorem punycodeLabel_narrower (src : List UInt16) (srclen : Nat) (flags : UInt32)
    (dst : List UInt16) (dstlen start stop delim out : Nat) :
    Narrower (punycodeLabel info src srclen flags dst dstlen start stop delim out).run
      (punycodeLabel { info with level1Size := n } src srclen flags dst dstlen start stop delim
        out).run := by
  unfold punycodeLabel
  refine Narrower.exceptBind .rfl fun basic => ?_
  refine Narrower.exceptBind .rfl fun p => ?_
  exact Narrower.exceptBind (Narrower.lift (checkInvalidChars_narrower hn _ _ _)) fun _ => .rfl

theorem idnLabels_narrower (flags : UInt32) (src : List UInt16) (srclen dstlen : Nat) :
    ∀ fuel start out ch dst, Narrower (idnLabels info flags src srclen dstlen fuel start out ch dst).run
      (idnLabels { info with level1Size := n } flags src srclen dstlen fuel start out ch dst).run := by
  intro fuel
  induction fuel with
  | zero => intro start out ch dst; exact .rfl
  | succ fuel ih =>
    intro start out ch dst
    unfold idnLabels
    refine Narrower.ite (fun _ => .rfl) fun _ => ?_
    refine Narrower.exceptBind .rfl fun scanned => ?_
    refine Narrower.ite (fun _ => .rfl) fun _ => ?_
    refine Narrower.exceptBind .rfl fun puny => ?_
    refine Narrower.ite (fun _ => ?_) fun _ => ?_
    · exact Narrower.exceptBind .rfl fun r => ih _ _ _ _
    · exact Narrower.exceptBind (punycodeLabel_narrower hn _ _ _ _ _ _ _ _ _) fun r => ih _ _ _ _

theorem rtlIdnToUnicode_narrower (flags : UInt32) (src : List UInt16) (srclen : Int)
    (dst : List UInt16) (dstlen : Nat) :
    Narrower (rtlIdnToUnicode info flags src srclen dst dstlen).run
      (rtlIdnToUnicode { info with level1Size := n } flags src srclen dst dstlen).run := by
  unfold rtlIdnToUnicode
  refine Narrower.ite (fun _ => .rfl) fun _ => ?_
  exact Narrower.exceptBind .rfl fun _ => idnLabels_narrower hn _ _ _ _ _ _ _ _ _

end Widen

theorem rtlIdnToUnicode_faults_only_overflow (info : NormTable) (htab : 2 ^ 24 ≤ info.level1Size)
    (flags : UInt32) (src : List UInt16) (srclen : Int) (hlen : srclen.toNat ≤ src.length)
    (hnul : srclen = -1 → 0 ∈ src)
    (hfirst : flags &&& idnUseStd3AsciiRules = 0 ∨ src[0]? ≠ some 0)
    (dst : List UInt16) (dstlen : Nat) (hdst : dst.length = dstlen) :
    Faults (· = .overflow) (rtlIdnToUnicode info flags src srclen dst dstlen) (fun r => DstOk dstlen r.1 r.2) := by
  unfold rtlIdnToUnicode
  refine Faults.ite (fun _ => Faults.throw) fun hneg => ?_
  refine Faults.bind (Faults.lift_returns (Q := fun n => n ≤ src.length) ?_)
    fun n hn => idnLabels_faults htab hn hfirst _ _ _ _ _ ⟨hdst, fun _ => Nat.zero_le _⟩
  exact Returns.ite (fun h => Returns.map (returns_wcslen (hnul h)) fun _ h => h)
    fun _ => Returns.pure hlen

/-- The size of the level-1 table of `normidna.nls`, with stand-in contents. -/
def idnaTable : NormTable := ⟨fun _ => 0, 0x2200, fun _ => 0, fun _ => 0⟩

/-- "xn--99999999": the eighth digit adds `35 * 122500000` to `pos`. -/
def longDeltaLabel : List UInt16 :=
  [0x78, 0x6e, 0x2d, 0x2d, 0x39, 0x39, 0x39, 0x39, 0x39, 0x39, 0x39, 0x39]

/-- "xn--99999a": one delta of 4760385, the code point `0x80 + 4760385`. -/
def hugeCodePointLabel : List UInt16 := [0x78, 0x6e, 0x2d, 0x2d, 0x39, 0x39, 0x39, 0x39, 0x39, 0x61]

set_option maxRecDepth 8000 in
theorem rtlIdnToUnicode_overflows_and_decodes_past_unicode (info : NormTable)
    (h : info.level1Size = 0x2200) :
    (rtlIdnToUnicode info 0 longDeltaLabel 12 [] 0).run = .error .overflow ∧
      (decodeDigits hugeCodePointLabel 10 6 4 false ⟨0x80, 72, 0, 0, 1, base, List.replicate 64 0, 0⟩).run =
        .ok (.ok ⟨4760513, 68, 1, 0, 1225000, 216, 4760513 :: List.replicate 63 0, 1⟩) ∧
      0x10ffff < 4760513 ∧
      (rtlIdnToUnicode info 0 hugeCodePointLabel 10 [] 0).run = .error .outOfBounds := by
  obtain ⟨classes, level1Size, level1, level2⟩ := info
  subst h
  exact ⟨rfl, by decide +kernel, by decide, rfl⟩

theorem idnaTable_overflows_and_decodes_past_unicode :
    idnaTable.level1Size = 0x2200 ∧
      (rtlIdnToUnicode idnaTable 0 longDeltaLabel 12 [] 0).run = .error .overflow ∧
      (decodeDigits hugeCodePointLabel 10 6 4 false ⟨0x80, 72, 0, 0, 1, base, List.replicate 64 0, 0⟩).run =
        .ok (.ok ⟨4760513, 68, 1, 0, 1225000, 216, 4760513 :: List.replicate 63 0, 1⟩) ∧
      0x10ffff < 4760513 ∧
      (rtlIdnToUnicode idnaTable 0 hugeCodePointLabel 10 [] 0).run = .error .outOfBounds :=
  ⟨rfl, rtlIdnToUnicode_overflows_and_decodes_past_unicode idnaTable rfl⟩

/-- On the layout of `normidna.nls`, `RtlIdnToUnicode` runs as it would over a level-1 table with
an entry for every `int` code point, where it accesses the code-point buffer, the source and
the destination only inside and faults only by `int` overflow, except that it may stop on a
read of the level-1 table past its `0x2200` entries. -/
theorem rtlIdnToUnicode_faults_idna_layout (info : NormTable) (h1 : info.level1Size = 0x2200)
    (flags : UInt32) (src : List UInt16) (srclen : Int) (hlen : srclen.toNat ≤ src.length)
    (hnul : srclen = -1 → 0 ∈ src)
    (hfirst : flags &&& idnUseStd3AsciiRules = 0 ∨ src[0]? ≠ some 0)
    (dst : List UInt16) (dstlen : Nat) (hdst : dst.length = dstlen) :
    Faults (· = .overflow) (rtlIdnToUnicode { info with level1Size := 2 ^ 24 } flags src srclen dst
        dstlen) (fun r => DstOk dstlen r.1 r.2) ∧
      Narrower (rtlIdnToUnicode info flags src srclen dst dstlen).run
        (rtlIdnToUnicode { info with level1Size := 2 ^ 24 } flags src srclen dst dstlen).run :=
  ⟨rtlIdnToUnicode_faults_only_overflow _ le_rfl flags src srclen hlen hnul hfirst dst dstlen hdst,
    rtlIdnToUnicode_narrower (by omega) flags src srclen dst dstlen⟩

set_option maxRecDepth 8000 in
/-- "xn--99999a" decodes to 4760513, whose level-1 entry lies past the table: the run over
`normidna.nls` stops there, the run over the extended table returns. -/
theorem idnaTable_huge_code_point_reads_past_level1 :
    idnaTable.level1Size = 0x2200 ∧ (10 : Int).toNat ≤ hugeCodePointLabel.length ∧
      ((10 : Int) = -1 → 0 ∈ hugeCodePointLabel) ∧
      (0 &&& idnUseStd3AsciiRules = 0 ∨ hugeCodePointLabel[0]? ≠ some 0) ∧
      ([] : List UInt16).length = 0 ∧
      Faults (· = .overflow) (rtlIdnToUnicode { idnaTable with level1Size := 2 ^ 24 } 0
        hugeCodePointLabel 10 [] 0) (fun r => DstOk 0 r.1 r.2) ∧
      Narrower (rtlIdnToUnicode idnaTable 0 hugeCodePointLabel 10 [] 0).run
        (rtlIdnToUnicode { idnaTable with level1Size := 2 ^ 24 } 0 hugeCodePointLabel 10 [] 0).run ∧
      (rtlIdnToUnicode idnaTable 0 hugeCodePointLabel 10 [] 0).run = .error .outOfBounds ∧
      (rtlIdnToUnicode { idnaTable with level1Size := 2 ^ 24 } 0 hugeCodePointLabel 10 [] 0).run =
        .ok (.ok ([], 2)) := by
  obtain ⟨hfaults, hnarrow⟩ := rtlIdnToUnicode_faults_idna_layout idnaTable rfl 0
    hugeCodePointLabel 10 (by decide) (by decide) (by decide) [] 0 rfl
  exact ⟨rfl, by decide, by decide, by decide, rfl, hfaults, hnarrow, rfl, rfl⟩

end Wine.Ntdll
