import Wine.Lib.Memory

/-!
# String-input scanf (`dlls/msvcrt/scanf.h`)

The body of `scanf.h` as compiled for a `char` string input (`STRING`), with the input length
of `_snscanf` (`STRING_LEN`) and the element counts of the `_s` variants (`SECURE`) as
switches, on a 64-bit build (`sizeof(void *) == sizeof(LONGLONG)`). The format, the input and
the `va_list` are checked objects of cells: a read past the end of one of them is a fault. A
destination argument is the index of a caller object, written through checked stores; a
number is stored as the bits of the type its prefix names. `fpnum_parse` is a parameter: the length of the number it
accepts from the characters it is offered; the `get`/`unget` calls around it are replayed.
-/

namespace Wine.Msvcrt

open Mem

set_option autoImplicit false

/-- How the header was compiled: `SECURE`, `STRING_LEN` with its `length`, `_MSVCR_VER`. -/
structure ScanfVariant where
  secure : Bool
  length : Option Nat
  msvcrVer : Nat

/-- The locals of the scan: the format and input pointers as indices, the `va_list` position
and the caller's objects. -/
structure Scan where
  format : Nat
  file : Nat
  consumed : Nat
  nch : Nat
  rd : Nat
  ap : Nat
  objs : List (List Nat)

/-- `isspace` in the C locale. -/
def isSpace (c : Nat) : Bool := c = 0x20 || (0x09 ≤ c && c ≤ 0x0d)

def char2digit (c base : Nat) : Option Nat :=
  if 0x30 ≤ c ∧ c ≤ 0x39 ∧ c + 1 ≤ 0x30 + base then some (c - 0x30)
  else if base ≤ 10 then none
  else if 0x41 ≤ c ∧ c ≤ 0x5a ∧ c + 11 ≤ 0x41 + base then some (c - 0x41 + 10)
  else if 0x61 ≤ c ∧ c ≤ 0x7a ∧ c + 11 ≤ 0x61 + base then some (c - 0x61 + 10)
  else none

/-- `if (width>0) width--` -/
def decWidth (width : Int) : Int := if 0 < width then width - 1 else width

/-- Store `v` at element `k` of the caller's object `p`. -/
def storeAt (objs : List (List Nat)) (p k v : Nat) : Run (List (List Nat)) := do
  let o ← load objs p
  let o ← store o k v
  store objs p o

/-- How a directive ends: on to the next one, out of the loop, or out of the function. -/
inductive Step where
  | next (s : Scan)
  | stop (s : Scan)
  | ret (r : Int) (objs : List (List Nat))

/-- The `h`, `l`, `w` and `I64` prefixes; `L` only chooses the type of a float, whose value the
model does not compute. -/
structure Prefix where
  h : Nat
  l : Bool
  w : Bool
  i64 : Bool

/-- A `[...]` set as the `RtlSetBits` calls that built it: start and count. -/
abbrev CharSet := List (Nat × Nat)

def CharSet.mem (bits : CharSet) (c : Nat) : Bool := bits.any fun r => r.1 ≤ c && c < r.1 + r.2

section Scanner

variable (v : ScanfVariant) (fmt input args : List Nat)

/-- `_GETC_`: `consumed++`, then the next input character, or `'\0'` past `length`. -/
def getc (s : Scan) : Run Scan :=
  let s := { s with consumed := s.consumed + 1 }
  match v.length with
  | some length =>
    if length < s.consumed then pure { s with nch := 0 }
    else do
      let c ← load input s.file
      pure { s with nch := c, file := s.file + 1 }
  | none => do
    let c ← load input s.file
    pure { s with nch := c, file := s.file + 1 }

/-- `nch = _GETC_(file); if (width>0) width--;` -/
def advance (s : Scan) (width : Int) : Run (Scan × Int) := do
  let s ← getc v input s
  pure (s, decWidth width)

def vaArg (s : Scan) : Run (Nat × Scan) := do
  let a ← load args s.ap
  pure (a, { s with ap := s.ap + 1 })

/-- `while ((nch!=_EOF_) && _ISSPACE_(nch)) nch = _GETC_(file);` -/
def skipSpace : Nat → Scan → Run Scan
  | 0, s => pure s
  | fuel + 1, s =>
    if s.nch ≠ 0 ∧ isSpace s.nch then do
      let s ← getc v input s
      skipSpace fuel s
    else pure s

/-- The width digits: `width *= 10; width += *format++ - '0';` -/
def readWidth : Nat → Nat → Int → Run (Nat × Int)
  | 0, f, width => pure (f, width)
  | fuel + 1, f, width => do
    let c ← load fmt f
    if 0x30 ≤ c ∧ c ≤ 0x39 then do
      let width ← int32 (width * 10)
      let width ← int32 (width + (c - 0x30 : Nat))
      readWidth fuel (f + 1) width
    else pure (f, width)

/-- One prefix character at `f`: the position of its last character, or `none` for the type. -/
def prefixChar (f : Nat) (p : Prefix) : Run (Option (Nat × Prefix)) := do
  let c ← load fmt f
  if c = 0x68 then pure (some (f, { p with h := p.h + 1 }))
  else if c = 0x6c then do
    let c1 ← load fmt (f + 1)
    pure (some (if c1 = 0x6c then (f + 1, { p with l := true, i64 := true })
      else (f, { p with l := true })))
  else if c = 0x6a then pure (some (f, { p with i64 := true }))
  else if c = 0x4c then pure (some (f, p))
  else if c = 0x77 then pure (some (f, { p with w := true }))
  else if c = 0x49 then do
    -- "I64" and "I32"; any other 'I' falls through to the size_t case, 64 bits here
    let c1 ← load fmt (f + 1)
    if c1 = 0x36 then do
      let c2 ← load fmt (f + 2)
      pure (some (if c2 = 0x34 then f + 2 else f, { p with i64 := true }))
    else if c1 = 0x33 then do
      let c2 ← load fmt (f + 2)
      pure (some (if c2 = 0x32 then (f + 2, p) else (f, { p with i64 := true })))
    else pure (some (f, { p with i64 := true }))
  else if c = 0x7a ∧ (v.msvcrVer = 0 ∨ 140 ≤ v.msvcrVer) then pure (some (f, { p with i64 := true }))
  else pure none

/-- `while (!prefix_finished)`: the position of the type character, the width, the prefixes. -/
def readPrefix : Nat → Nat → Int → Prefix → Run (Nat × Int × Prefix)
  | 0, f, width, p => pure (f, width, p)
  | fuel + 1, f, width, p => do
    let r ← readWidth fmt (fmt.length + 1) f width
    let q ← prefixChar v fmt r.1 p
    match q with
    | none => pure (r.1, r.2, p)
    | some (f, p) => readPrefix fuel (f + 1) r.2 p

/-- `if (st && !suppress) rd++; else if (!st) break;` -/
def endDirective (st : Nat) (suppress : Bool) (s : Scan) : Step :=
  if st ≠ 0 ∧ !suppress then .next { s with rd := s.rd + 1 }
  else if st = 0 then .stop s
  else .next s

/-! ### Integers -/

/-- The digit loops: `cur = cur*base + digit` on a `ULONGLONG` while the width lasts. -/
def digits (base : Nat) : Nat → Scan → Int → Nat → Bool → Run (Scan × Int × Nat × Bool)
  | 0, s, width, cur, seen => pure (s, width, cur, seen)
  | fuel + 1, s, width, cur, seen =>
    match char2digit s.nch base with
    | some d =>
      if width ≠ 0 ∧ s.nch ≠ 0 then do
        let r ← advance v input s width
        digits base fuel r.1 r.2 ((cur * base + d) % 2 ^ 64) true
      else pure (s, width, cur, seen)
    | none => pure (s, width, cur, seen)

/-- `throw away leading zeros` -/
def zeros : Nat → Scan → Int → Bool → Run (Scan × Int × Bool)
  | 0, s, width, seen => pure (s, width, seen)
  | fuel + 1, s, width, seen =>
    if width ≠ 0 ∧ s.nch = 0x30 then do
      let r ← advance v input s width
      zeros fuel r.1 r.2 true
    else pure (s, width, seen)

/-- The leading `0` or `0x` that sets the base of `%i` and is skipped for `%x`. -/
def basePrefix (t base : Nat) (s : Scan) (width : Int) : Run (Scan × Int × Nat × Bool) :=
  if width ≠ 0 ∧ s.nch = 0x30 ∧ t ≠ 0x70 ∧ t ≠ 0x50 then do
    let r ← advance v input s width
    if r.2 ≠ 0 ∧ (r.1.nch = 0x78 ∨ r.1.nch = 0x58) then
      let base := if base = 0 then 16 else base
      if base = 16 then do
        let r ← advance v input r.1 r.2
        pure (r.1, r.2, base, false)
      else pure (r.1, r.2, base, true)
    else pure (r.1, r.2, if base = 0 then 8 else base, true)
  else pure (s, width, base, false)

/-- The optional sign: whether it was `-`. -/
def readSign (s : Scan) (width : Int) : Run (Scan × Int × Bool) :=
  if s.nch = 0x2d ∨ s.nch = 0x2b then do
    let r ← advance v input s width
    pure (r.1, r.2, decide (s.nch = 0x2d))
  else pure (s, width, false)

/-- The type `_SET_NUMBER_` stores through: `LONGLONG`, `LONG`, `short int`, `char` (from
`_MSVCR_VER` 140 on) or `int`, as its width in bits. -/
def numberBits (v : ScanfVariant) (p : Prefix) : Nat :=
  if p.i64 then 64
  else if p.l then 32
  else if p.h = 1 then 16
  else if p.h = 2 ∧ 140 ≤ v.msvcrVer then 8
  else 32

def scanNumber (t base bits : Nat) (suppress : Bool) (width : Int) (s : Scan) : Run Step := do
  let s ← skipSpace v input (input.length + 1) s
  let sg ← readSign v input s width
  let bp ← basePrefix v input t base sg.1 sg.2.1
  let base := if bp.2.2.1 = 0 then 10 else bp.2.2.1
  let z ← zeros v input (input.length + 1) bp.1 bp.2.1 bp.2.2.2
  let d ← digits v input base (input.length + 1) z.1 z.2.1 0 z.2.2
  let s := d.1
  let cur := d.2.2.1
  if !d.2.2.2 then pure (.stop s)
  else if suppress then pure (endDirective 1 suppress s)
  else do
    let a ← vaArg args s
    let objs ← storeAt a.2.objs a.1 0 ((if sg.2.2 then (2 ^ 64 - cur) % 2 ^ 64 else cur) % 2 ^ bits)
    pure (endDirective 1 suppress { a.2 with objs := objs })

/-! ### Floating point -/

/-- The characters `strtod_scanf_get` would hand out: `nch`, then the input up to its NUL,
at most `width` of them. -/
def floatStream (s : Scan) (width : Int) : List Nat :=
  let avail := (s.nch :: input.drop s.file).takeWhile (· ≠ 0)
  if 0 ≤ width then avail.take width.toNat else avail

/-- `fpnum_parse` as seen by scanf: how many of the characters offered it takes, or `none`
when it sets `ctx.err`. -/
abbrev FpnumParse := List Nat → Option Nat

def scanFloat (fpnum : FpnumParse) (suppress : Bool) (width : Int) (s : Scan) : Run Step := do
  let s ← skipSpace v input (input.length + 1) s
  if s.nch = 0 then pure (.stop s)
  else
    -- the length argument of _snscanf caps the parser as the width does
    let width := match v.length with
      | some length => if (length - s.consumed + 1 : Int) < width ∨ width < 0 then
          (length - s.consumed + 1 : Int) else width
      | none => width
    let stream := floatStream input s width
    match fpnum stream with
    | none => if s.rd = 0 then pure (.ret (-1) s.objs) else pure (.stop s)
    | some 0 => pure (.stop s)
    | some read => do
      -- the parser got one more character and gave it back, unless the offer ran out
      let s ← (if read < stream.length then do
          let c ← load input (s.file + read - 1)
          pure { s with nch := c, file := s.file + read, consumed := s.consumed + read }
        else if 0 ≤ width ∧ stream.length = width.toNat then
          pure { s with nch := 0, file := s.file + read - 1, consumed := s.consumed + read }
        else do
          let c ← load input (s.file + read - 1)
          pure { s with nch := c, file := s.file + read, consumed := s.consumed + read } :
        Run Scan)
      if suppress then pure (endDirective 1 suppress s)
      else do
        let a ← vaArg args s
        let objs ← storeAt a.2.objs a.1 0 0
        pure (endDirective 1 suppress { a.2 with objs := objs })

/-! ### Strings, characters and sets -/

/-- How a copying loop ends: normally with the counters, or with a full destination, after
which the scan returns `rd`. -/
inductive LoopEnd where
  | done (s : Scan) (width : Int) (st k : Nat)
  | full (s : Scan)

/-- The destination and the element count of a string conversion. -/
def destArgs (suppress : Bool) (s : Scan) : Run (Nat × Nat × Scan) :=
  if suppress then pure (0, 2 ^ 32 - 1, s)
  else do
    let a ← vaArg args s
    if v.secure then do
      let b ← vaArg args a.2
      pure (a.1, b.1 % 2 ^ 32, b.2)
    else pure (a.1, 2 ^ 32 - 1, a.2)

/-- `while (width!=0 && (nch!=_EOF_) && !_ISSPACE_(nch))` of `charstring`. -/
def wordLoop (suppress : Bool) (dest : Nat) : Nat → Scan → Int → Nat → Nat → Nat → Run LoopEnd
  | 0, s, width, _, st, k => pure (.done s width st k)
  | fuel + 1, s, width, size, st, k =>
    if width ≠ 0 ∧ s.nch ≠ 0 ∧ !isSpace s.nch then
      if !suppress then do
        let objs ← storeAt s.objs dest k s.nch
        if 1 < size then do
          let r ← advance v input { s with objs := objs } width
          wordLoop suppress dest fuel r.1 r.2 (size - 1) (st + 1) (k + 1)
        else do
          let objs ← storeAt objs dest 0 0
          pure (.full { s with objs := objs })
      else do
        let r ← advance v input s width
        wordLoop suppress dest fuel r.1 r.2 size (st + 1) k
    else pure (.done s width st k)

/-- `charstring` and `widecharstring`; only the second's end-of-input check depends on the
runtime version. -/
def scanWord (wide suppress : Bool) (width : Int) (s : Scan) : Run Step := do
  let da ← destArgs v args suppress s
  let s ← skipSpace v input (input.length + 1) da.2.2
  let e ← wordLoop v input suppress da.1 (input.length + 1) s width da.2.1 0 0
  match e with
  | .full s => pure (.ret s.rd s.objs)
  | .done s _ st k =>
    if s.nch = 0 ∧ s.rd = 0 ∧ st = 0 ∧ (!wide ∨ 80 ≤ v.msvcrVer) then pure (.ret (-1) s.objs)
    else if st ≠ 0 ∧ !suppress then do
      let objs ← storeAt s.objs da.1 k 0
      pure (endDirective st suppress { s with objs := objs })
    else pure (endDirective st suppress s)

/-- `while (width && (nch != _EOF_))` of `character`. -/
def charLoop (suppress : Bool) (dest : Nat) : Nat → Scan → Int → Nat → Nat → Nat → Run LoopEnd
  | 0, s, width, _, st, k => pure (.done s width st k)
  | fuel + 1, s, width, size, st, k =>
    if width ≠ 0 ∧ s.nch ≠ 0 then
      if !suppress then
        if size ≠ 0 then do
          let objs ← storeAt s.objs dest k s.nch
          let s ← getc v input { s with objs := objs }
          charLoop suppress dest fuel s (width - 1) (size - 1) (st + 1) (k + 1)
        else do
          let objs ← storeAt s.objs dest 0 0
          pure (.full { s with objs := objs })
      else do
        let s ← getc v input s
        charLoop suppress dest fuel s (width - 1) size (st + 1) k
    else pure (.done s width st k)

/-- `character` and `widecharacter`, which the cells do not tell apart. -/
def scanChars (suppress : Bool) (width : Int) (s : Scan) : Run Step := do
  let da ← destArgs v args suppress s
  let width := if width = -1 then 1 else width
  let e ← charLoop v input suppress da.1 (input.length + 1) da.2.2 width da.2.1 0 0
  match e with
  | .full s => pure (.ret s.rd s.objs)
  | .done s _ st _ => pure (endDirective st suppress s)

/-- The characters of the set up to `]` or the format's end: the position reached. -/
def readSet : Nat → Nat → CharSet → Run (Nat × CharSet)
  | 0, f, bits => pure (f, bits)
  | fuel + 1, f, bits => do
    let c ← load fmt f
    if c ≠ 0 ∧ c ≠ 0x5d then do
      let c1 ← load fmt (f + 1)
      if c1 = 0x2d then do
        let c2 ← load fmt (f + 2)
        if c2 ≠ 0 ∧ c2 ≠ 0x5d then
          readSet fuel (f + 3) ((min c c2, max c c2 - min c c2 + 1) :: bits)
        else readSet fuel (f + 1) ((c, 1) :: bits)
      else readSet fuel (f + 1) ((c, 1) :: bits)
    else pure (f, bits)

/-- The read loop of `%[`: the size check comes after the character is taken. -/
def setLoop (suppress invert : Bool) (bits : CharSet) (dest : Nat) :
    Nat → Scan → Int → Nat → Nat → Nat → Run LoopEnd
  | 0, s, width, _, st, k => pure (.done s width st k)
  | fuel + 1, s, width, size, st, k =>
    if width ≠ 0 ∧ s.nch ≠ 0 then
      if bits.mem s.nch ≠ invert then do
        let objs ← (if !suppress then storeAt s.objs dest k s.nch else pure s.objs : Run _)
        let k := if !suppress then k + 1 else k
        let r ← advance v input { s with objs := objs } width
        if 1 < size then setLoop suppress invert bits dest fuel r.1 r.2 (size - 1) (st + 1) k
        else if suppress then .error .nullPointer
        else do
          let objs ← storeAt r.1.objs dest 0 0
          pure (.full { r.1 with objs := objs })
      else pure (.done s width st k)
    else pure (.done s width st k)

def scanSet (suppress : Bool) (width : Int) (s : Scan) : Run Step := do
  let da ← destArgs v args suppress s
  let s := da.2.2
  let f := s.format + 1
  let c ← load fmt f
  let invert := c = 0x5e
  let f := if invert then f + 1 else f
  let c ← load fmt f
  let bits : CharSet := if c = 0x5d then [(0x5d, 1)] else []
  let f := if c = 0x5d then f + 1 else f
  let r ← readSet fmt (fmt.length + 1) f bits
  let s := { s with format := r.1 }
  let e ← setLoop v input suppress invert r.2 da.1 (input.length + 1) s width da.2.1 0 0
  match e with
  | .full s => pure (.ret s.rd s.objs)
  | .done s _ st k =>
    if !suppress then do
      let objs ← storeAt s.objs da.1 k 0
      pure (endDirective st suppress { s with objs := objs })
    else pure (endDirective st suppress s)

/-! ### The directives -/

/-- `%n`: the count of characters read so far, then a suppressed success. -/
def scanCount (suppress : Bool) (s : Scan) : Run Step :=
  if !suppress then do
    let a ← vaArg args s
    let objs ← storeAt a.2.objs a.1 0 (s.consumed - 1)
    pure (endDirective 1 true { a.2 with objs := objs })
  else pure (endDirective 1 true s)

/-- An unknown conversion character is matched against the input like an ordinary one. -/
def scanLiteralConversion (t : Nat) (s : Scan) : Run Step := do
  let s ← skipSpace v input (input.length + 1) s
  if s.nch = t then do
    let s ← getc v input s
    pure (endDirective 1 true s)
  else pure (endDirective 0 false s)

/-- The `switch(*format)` on the type character `t`. -/
def conversion (fpnum : FpnumParse) (t : Nat) (suppress : Bool) (p : Prefix) (width : Int)
    (s : Scan) : Run Step :=
  -- a pointer is read as an I64 number on a 64-bit build
  if t = 0x70 ∨ t = 0x50 then scanNumber v input args t 16 64 suppress width s
  else if t = 0x78 ∨ t = 0x58 then scanNumber v input args t 16 (numberBits v p) suppress width s
  else if t = 0x6f then scanNumber v input args t 8 (numberBits v p) suppress width s
  else if t = 0x75 ∨ t = 0x64 then scanNumber v input args t 10 (numberBits v p) suppress width s
  else if t = 0x69 then scanNumber v input args t 0 (numberBits v p) suppress width s
  else if t = 0x65 ∨ t = 0x45 ∨ t = 0x66 ∨ t = 0x67 ∨ t = 0x47 then
    scanFloat v input args fpnum suppress width s
  else if t = 0x73 then scanWord v input args (p.w || p.l) suppress width s
  else if t = 0x53 then scanWord v input args (p.w || p.l || p.h = 0) suppress width s
  else if t = 0x63 ∨ t = 0x43 then scanChars v input args suppress width s
  else if t = 0x6e then scanCount args suppress s
  else if t = 0x5b then scanSet v fmt input args suppress width s
  else scanLiteralConversion v input t s

/-- A `%` directive: `*`, the width and prefixes, then the conversion. -/
def percent (fpnum : FpnumParse) (s : Scan) : Run Step := do
  let f := s.format + 1
  let c ← load fmt f
  let suppress := c = 0x2a
  let f := if suppress then f + 1 else f
  let r ← readPrefix v fmt (fmt.length + 1) f 0 ⟨0, false, false, false⟩
  let width := if r.2.1 = 0 then -1 else r.2.1
  let t ← load fmt r.1
  conversion v fmt input args fpnum t suppress r.2.2 width { s with format := r.1 }

/-- One directive of the format, at the character `c`. -/
def directive (fpnum : FpnumParse) (c : Nat) (s : Scan) : Run Step :=
  if isSpace c then do
    let s ← skipSpace v input (input.length + 1) s
    pure (.next s)
  else if c = 0x25 then percent v fmt input args fpnum s
  else if s.nch = c then do
    let s ← getc v input s
    pure (.next s)
  else pure (.stop s)

/-- `while (*format)`: each directive ends with `format++`. -/
def scanLoop (fpnum : FpnumParse) : Nat → Scan → Run (Int × List (List Nat))
  | 0, s => pure (s.rd, s.objs)
  | fuel + 1, s => do
    let c ← load fmt s.format
    if c = 0 then pure (s.rd, s.objs)
    else do
      let step ← directive v fmt input args fpnum c s
      match step with
      | .next s => scanLoop fpnum fuel { s with format := s.format + 1 }
      | .stop s => pure (s.rd, s.objs)
      | .ret r objs => pure (r, objs)

/-- The whole function: the count of fields stored (or `EOF`) and the caller's objects. -/
def vsscanf (fpnum : FpnumParse) (objs : List (List Nat)) : Run (Int × List (List Nat)) := do
  let c ← load fmt 0
  if c = 0 then pure (0, objs)
  else do
    let s ← getc v input ⟨0, 0, 0, 0, 0, 0, objs⟩
    if s.nch = 0 then pure (-1, objs)
    else scanLoop v fmt input args fpnum (fmt.length + 1) s

end Scanner

/-! ## Stores of the string conversions

For a string input, a `%s` of a secure variant whose element count is at least 1 stores only
inside its destination and leaves a NUL-terminated string there, or sets element 0 to NUL
when the word does not fit. -/

/-- A string input: its first NUL is at `nul`. -/
structure IsString (input : List Nat) (nul : Nat) : Prop where
  nul_lt : nul < input.length
  get_nul : input[nul]? = some 0
  ne_zero : ∀ i < nul, input[i]? ≠ some 0

/-- The scan has not yet read past the input's NUL. -/
def Unread (nul : Nat) (s : Scan) : Prop := s.nch ≠ 0 → s.file ≤ nul

/-- The cells before `k` hold characters and cell `k` the terminator. -/
def CStringAt (o : List Nat) (k : Nat) : Prop := o[k]? = some 0 ∧ ∀ i < k, o[i]? ≠ some 0

def Step.objs : Step → List (List Nat)
  | .next s => s.objs
  | .stop s => s.objs
  | .ret _ objs => objs

theorem storeAt_eq {objs : List (List Nat)} {p k x : Nat} {o : List Nat}
    (ho : objs[p]? = some o) (hk : k < o.length) :
    storeAt objs p k x = .ok (objs.set p (o.set k x)) := by
  have hp : p < objs.length := (List.getElem?_eq_some_iff.mp ho).1
  have hget : objs[p] = o := (List.getElem?_eq_some_iff.mp ho).2
  unfold storeAt
  rw [load_of_lt hp]
  simp only [ok_bind, hget, store_of_lt hk, store_of_lt hp]

theorem getElem?_set_self' {objs : List (List Nat)} {p : Nat} {o o' : List Nat}
    (ho : objs[p]? = some o) : (objs.set p o')[p]? = some o' := by
  rw [List.getElem?_set_self (List.getElem?_eq_some_iff.mp ho).1]

section Safety

variable {v : ScanfVariant} {input : List Nat} {nul : Nat}

theorem returns_getc (hin : IsString input nul) {s : Scan} (hs : Unread nul s) (hnch : s.nch ≠ 0) :
    Returns (getc v input s) fun s' => Unread nul s' ∧ s'.objs = s.objs ∧ s'.rd = s.rd := by
  have hf := hs hnch
  have hread : Returns (load input s.file) fun c => c ≠ 0 → s.file + 1 ≤ nul := by
    refine returns_load (by have := hin.nul_lt; omega) fun hc => ?_
    rcases Nat.lt_or_eq_of_le hf with hlt | heq
    · omega
    · subst heq
      have hnul := hin.get_nul
      rw [List.getElem?_eq_getElem hin.nul_lt] at hnul
      exact absurd (Option.some.inj hnul) hc
  unfold getc
  split
  · refine Returns.ite (fun _ => Returns.pure ⟨fun h => absurd rfl h, rfl, rfl⟩) fun _ => ?_
    exact Returns.bind hread fun c hc => Returns.pure ⟨hc, rfl, rfl⟩
  · exact Returns.bind hread fun c hc => Returns.pure ⟨hc, rfl, rfl⟩

theorem returns_advance (hin : IsString input nul) {s : Scan} (hs : Unread nul s)
    (hnch : s.nch ≠ 0) (width : Int) :
    Returns (advance v input s width) fun r => Unread nul r.1 ∧ r.1.objs = s.objs ∧ r.1.rd = s.rd :=
  Returns.bind (returns_getc hin hs hnch) fun _ h => Returns.pure h

theorem returns_skipSpace (hin : IsString input nul) :
    ∀ fuel (s : Scan), Unread nul s →
      Returns (skipSpace v input fuel s) fun s' => Unread nul s' ∧ s'.objs = s.objs ∧ s'.rd = s.rd := by
  intro fuel
  induction fuel with
  | zero =>
    intro s hs
    exact Returns.pure ⟨hs, rfl, rfl⟩
  | succ fuel ih =>
    intro s hs
    unfold skipSpace
    refine Returns.ite (fun h => ?_) fun _ => Returns.pure ⟨hs, rfl, rfl⟩
    refine Returns.bind (returns_getc hin hs h.1) fun s' ⟨hs', hobjs, hrd⟩ => ?_
    exact (ih s' hs').mono fun s'' ⟨h1, h2, h3⟩ => ⟨h1, h2.trans hobjs, h3.trans hrd⟩

/-- How the copying loop of a `%s` into `dest` of `n` elements ends: with room left for the
terminator after the characters stored, or with element 0 cleared. -/
def WordOk (dest n rd : Nat) : LoopEnd → Prop
  | .done s _ _ k => ∃ o, s.objs[dest]? = some o ∧ o.length = n ∧ k < n ∧
      (∀ i < k, o[i]? ≠ some 0) ∧ s.rd = rd
  | .full s => ∃ o, s.objs[dest]? = some o ∧ o.length = n ∧ o[0]? = some 0 ∧ s.rd = rd

theorem wordLoop_inside (hin : IsString input nul) {dest n rd : Nat} :
    ∀ fuel s width size st k o, s.objs[dest]? = some o → o.length = n → k + size ≤ n →
      1 ≤ size → (∀ i < k, o[i]? ≠ some 0) → Unread nul s → s.rd = rd →
      Returns (wordLoop v input false dest fuel s width size st k) (WordOk dest n rd) := by
  intro fuel
  induction fuel with
  | zero =>
    intro s width size st k o ho hn hk hsize hnz _ hrd
    exact Returns.pure ⟨o, ho, hn, by omega, hnz, hrd⟩
  | succ fuel ih =>
    intro s width size st k o ho hn hk hsize hnz hs hrd
    unfold wordLoop
    refine Returns.ite (fun hc => ?_) fun _ => Returns.pure ⟨o, ho, hn, by omega, hnz, hrd⟩
    rw [if_pos (show (!false) = true from rfl), storeAt_eq ho (by omega)]
    simp only [ok_bind]
    refine Returns.ite (fun hbig => ?_) fun _ => ?_
    · refine Returns.bind (returns_advance hin (s := { s with objs := s.objs.set dest (o.set k s.nch) })
        hs hc.2.1 width) fun r ⟨hr1, hr2, hr3⟩ => ?_
      refine ih _ _ _ _ _ (o.set k s.nch) (hr2 ▸ getElem?_set_self' ho) (by simp [hn]) (by omega)
        (by omega) (fun i hi => ?_) hr1 (hr3.trans hrd)
      rcases Nat.lt_succ_iff_lt_or_eq.mp hi with hi | rfl
      · rw [List.getElem?_set_ne (by omega)]
        exact hnz i hi
      · rw [List.getElem?_set_self (by omega)]
        exact fun h => hc.2.1 (Option.some.inj h)
    · rw [storeAt_eq (getElem?_set_self' ho) (by simp; omega)]
      refine Returns.pure ⟨(o.set k s.nch).set 0 0, getElem?_set_self' (getElem?_set_self' ho),
        by simp [hn], ?_, hrd⟩
      rw [List.getElem?_set_self (by simp; omega)]

/-- What a `%s` leaves in its destination `dest` of `n` elements: the same length, a string
when a field was stored, element 0 cleared when the scan ends inside the word. -/
def StringStored (dest n : Nat) : Step → Prop
  | .next s => ∃ o, s.objs[dest]? = some o ∧ o.length = n ∧ ∃ k, CStringAt o k
  | .stop s => ∃ o, s.objs[dest]? = some o ∧ o.length = n
  | .ret r objs => ∃ o, objs[dest]? = some o ∧ o.length = n ∧ (r ≠ -1 → o[0]? = some 0)

theorem destArgs_secure (hsec : v.secure = true) {args : List Nat} {s : Scan}
    (hap : s.ap + 1 < args.length) :
    destArgs v args false s = .ok (args[s.ap], args[s.ap + 1] % 2 ^ 32, { s with ap := s.ap + 2 }) := by
  unfold destArgs vaArg
  rw [if_neg (by simp), load_of_lt (by omega)]
  simp only [ok_bind, pure_bind, hsec, if_true, load_of_lt hap]
  rfl

theorem scanWord_inside (hin : IsString input nul) (hsec : v.secure = true) {args : List Nat}
    {wide : Bool} {width : Int} {s : Scan} {o : List Nat} (hap : s.ap + 1 < args.length)
    (ho : s.objs[args[s.ap]]? = some o) (hcount : args[s.ap + 1] % 2 ^ 32 = o.length)
    (hpos : 0 < o.length) (hs : Unread nul s) :
    Returns (scanWord v input args wide false width s) (StringStored args[s.ap] o.length) := by
  unfold scanWord
  rw [destArgs_secure hsec hap]
  simp only [ok_bind]
  refine Returns.bind (returns_skipSpace hin _ _ hs) fun s' ⟨hs', hobjs, _⟩ => ?_
  refine Returns.bind (wordLoop_inside hin _ _ _ _ _ _ o (by rw [hobjs]; exact ho) rfl
    (by omega) (by omega) (fun i hi => absurd hi (Nat.not_lt_zero i)) hs' rfl) fun e he => ?_
  cases e with
  | full s'' =>
    obtain ⟨o', ho', hn', h0, _⟩ := he
    exact Returns.pure ⟨o', ho', hn', fun _ => h0⟩
  | done s'' w st k =>
    obtain ⟨o', ho', hn', hk, hnz, _⟩ := he
    refine Returns.ite (fun _ => Returns.pure ⟨o', ho', hn', fun h => absurd rfl h⟩) fun _ => ?_
    refine Returns.ite (fun hst => ?_) fun hst => ?_
    · rw [storeAt_eq ho' (by omega)]
      simp only [ok_bind]
      unfold endDirective
      rw [if_pos ⟨hst.1, rfl⟩]
      refine Returns.pure ⟨o'.set k 0, getElem?_set_self' ho', by simp [hn'], k, ?_, fun i hi => ?_⟩
      · rw [List.getElem?_set_self (by omega)]
      · rw [List.getElem?_set_ne (by omega)]
        exact hnz i hi
    · unfold endDirective
      rw [if_neg (fun h => hst ⟨h.1, rfl⟩), if_pos (by simpa using hst)]
      exact Returns.pure ⟨o', ho', hn'⟩

end Safety

/-- `sscanf` and `sscanf_s` of the msvcrt runtime. -/
def sscanfVariant : ScanfVariant := ⟨false, none, 0⟩
def sscanfSVariant : ScanfVariant := ⟨true, none, 0⟩

def abScan : Scan := ⟨1, 1, 1, 0x61, 0, 0, [[9, 9, 9]]⟩

theorem ab_isString : IsString [0x61, 0x62, 0] 2 := ⟨by decide, rfl, by decide⟩

theorem scanWord_ab_inside :
    IsString [0x61, 0x62, 0] 2 ∧ sscanfSVariant.secure = true ∧ abScan.ap + 1 < [0, 3].length ∧
      Returns (scanWord sscanfSVariant [0x61, 0x62, 0] [0, 3] false false (-1) abScan)
        (StringStored 0 3) :=
  ⟨ab_isString, rfl, by decide,
    scanWord_inside (o := [9, 9, 9]) ab_isString rfl (by decide) rfl rfl (by decide)
      fun _ => by decide⟩

/-- The format's terminator is stepped over: `sscanf("a", "a%")` matches the trailing `%`
against the input's NUL and reads on, `sscanf("a", "%[a")` reads past the format; and
`sscanf_s("a", "%s", buf, 0)` writes element 0 of a buffer of no elements. -/
theorem vsscanf_reads_past_terminators (fpnum : FpnumParse) (objs : List (List Nat)) :
    vsscanf sscanfVariant [0x61, 0x25, 0] [0x61, 0] [] fpnum objs = .error .outOfBounds ∧
      vsscanf sscanfVariant [0x61, 0x25, 0] [0x61, 0, 0x62] [] fpnum objs = .error .outOfBounds ∧
      getc sscanfVariant [0x61, 0, 0x62] ⟨3, 2, 2, 0, 0, 0, objs⟩ =
        .ok ⟨3, 3, 3, 0x62, 0, 0, objs⟩ ∧
      vsscanf sscanfVariant [0x25, 0x5b, 0x61, 0] [0x61, 0] [0] fpnum [[9, 9]] =
        .error .outOfBounds ∧
      vsscanf sscanfSVariant [0x25, 0x73, 0] [0x61, 0] [0, 0] fpnum ([] :: objs) =
        .error .outOfBounds :=
  ⟨rfl, rfl, rfl, rfl, rfl⟩

end Wine.Msvcrt
