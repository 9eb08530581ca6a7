import Wine.Lib.Memory
import Wine.Status

/-!
# Message formatting (`dlls/ntdll/rtlstr.c`)

`RtlFormatMessageEx` with `add_chars`, `get_arg` and `add_format`, and `_snwprintf_s` of
`dlls/ntdll/printf.c` around the printf engine. The template is the list of its WCHARs up to
its NUL, the caller's buffer the list of its `size / sizeof(WCHAR)` cells, and the arguments
the `ULONG_PTR` array or the values the `va_list` still holds. The engine `pf_vsnprintf_w` is a
parameter: the characters it produces for a format string and five arguments. The build is a
64-bit one, where `is_64` is never set.

A run returns an `NTSTATUS` through `ExceptT`; an access outside the template, the buffer,
`fmt[32]`, `args[5]`, `arglist[102]` or the caller's arguments is an `outOfBounds` fault.
-/

namespace Wine.Ntdll

open Mem

set_option autoImplicit false

abbrev MsgM := ExceptT NtStatus Run

/-- `pf_vsnprintf_w` with room to spare: the characters of a format and its five arguments. -/
abbrev Printf := List Nat → List Nat → List Nat

/-- `struct format_message_args`; `list` holds the arguments the `va_list` has not yet given. -/
structure FormatArgs where
  last : Int
  array : Option (List Nat)
  list : Option (List Nat)
  arglist : List Nat

/-- `va_arg( *args_data->list, ... )`: reading past the caller's arguments faults. -/
def vaArg (a : FormatArgs) : Run (Nat × FormatArgs) :=
  match a.list with
  | some (v :: vs) => pure (v, { a with list := some vs })
  | _ => .error .outOfBounds

/-- `while (nr > args_data->last) args_data->arglist[args_data->last++] = va_arg(...)`, for at
most `n` turns. -/
def fetchArgs (nr : Int) : Nat → FormatArgs → Run FormatArgs
  | 0, a => pure a
  | n + 1, a =>
    if a.last < nr then do
      let (v, a) ← vaArg a
      let arglist ← storeInt a.arglist a.last v
      fetchArgs nr n { a with arglist := arglist, last := a.last + 1 }
    else pure a

/-- `get_arg( nr, args_data, FALSE )`: `-1` is the argument after the last one fetched. -/
def getArg (nr : Int) (a : FormatArgs) : Run (Nat × FormatArgs) := do
  let nr := if nr = -1 then a.last + 1 else nr
  let a ← fetchArgs nr (nr - a.last).toNat a
  let v ← loadInt a.arglist (nr - 1)
  pure (v, a)

/-- The output buffer: its cells and the position `buffer` has reached; `end` is its length. -/
structure Out where
  dst : List Nat
  pos : Nat

/-- `add_chars( &buffer, end, str + off, len )`. -/
def addChars (o : Out) (str : List Nat) (off len : Nat) : MsgM Out :=
  if o.dst.length - o.pos < len then throw .bufferOverflow
  else do
    let dst ← copy o.dst o.pos str off len
    pure ⟨dst, o.pos + len⟩

/-- `_snwprintf_s( str, size, size - 1, ... )` into the `size` cells at `pos`. The engine
writes at most `min( size, size - 1 )` characters, with `size - 1` computed as a `size_t`,
and then the terminating NUL: at `str[used]`, or at `str[0]` when nothing is left. -/
def snwprintfS (printf : Printf) (dst : List Nat) (pos size : Nat) (fmt args : List Nat) :
    Run (List Nat × Int) := do
  let len := if size = 0 then 0 else size - 1
  let out := printf fmt args
  let used := min out.length len
  let dst ← copy dst pos out 0 used
  let dst ← (if used < size then store dst (pos + used) 0 else store dst pos 0 : Run (List Nat))
  let r : Int := if out.length ≤ len then out.length else -1
  pure (dst, if r = size then -1 else r)

/-- `fmt[32]` being built by `add_format`: `p` is the next cell, `format` the template index. -/
structure Spec where
  format : Nat
  fmt : List Nat
  p : Nat
  stars : Nat

def pushFmt (sp : Spec) (c : Nat) : Run Spec := do
  let fmt ← store sp.fmt sp.p c
  pure { sp with fmt := fmt, p := sp.p + 1 }

/-- `wcschr( L"0123456789 +-*#.", c )`, which also finds the terminating NUL. -/
def isFlagChar (c : Nat) : Bool :=
  c = 0 ∨ ('0'.toNat ≤ c ∧ c ≤ '9'.toNat) ∨ c ∈ [' ', '+', '-', '*', '#', '.'].map Char.toNat

/-- `wcschr( s + i, c )` for `c ≠ 0`, for at most `n` characters. -/
def findChar (s : List Nat) (c : Nat) : Nat → Nat → Run (Option Nat)
  | 0, _ => pure none
  | n + 1, i => do
    let x ← load s i
    if x = c then pure (some i) else if x = 0 then pure none else findChar s c n (i + 1)

/-- The loop copying the flags, width and precision of a `!...!` specification. -/
def copyFlags (s : List Nat) : Nat → Spec → Run Spec
  | 0, sp => pure sp
  | n + 1, sp => do
    let c ← load s sp.format
    if isFlagChar c then do
      let sp ← pushFmt { sp with stars := if c = '*'.toNat then sp.stars + 1 else sp.stars } c
      copyFlags s n { sp with format := sp.format + 1 }
    else pure sp

/-- `while (format != end) *p++ = *format++;` -/
def copyUntil (s : List Nat) (stop : Nat) : Nat → Spec → Run Spec
  | 0, sp => pure sp
  | n + 1, sp =>
    if sp.format = stop then pure sp
    else do
      let c ← load s sp.format
      let sp ← pushFmt sp c
      copyUntil s stop n { sp with format := sp.format + 1 }

/-- The first half of `add_format` at `*src = s + i`: `fmt`, the number of `*`s, and where
`*src` goes on. -/
def insertFormat (s : List Nat) (i : Nat) (ansi : Bool) : MsgM (Spec × Nat) := do
  let sp ← pushFmt ⟨i + 1, List.replicate 32 0, 0, 0⟩ '%'.toNat
  let c ← (load s i : Run Nat)
  if c = '!'.toNat then
    match ← findChar s '!'.toNat s.length (i + 1) with
    | none => throw .invalidParameter
    | some stop =>
      if 30 < stop - (i + 1) then throw .invalidParameter
      else
        let sp ← copyFlags s s.length sp
        if 2 < sp.stars then throw .invalidParameter
        else
          let c ← (load s sp.format : Run Nat)
          -- an ANSI message swaps the case of `c` and `s`; `I64` needs a 32-bit build
          let sp ← (if ansi ∧ c ∈ ['c', 'C', 's', 'S'].map Char.toNat then do
              let sp ← pushFmt sp (c ^^^ 0x20)
              pure { sp with format := sp.format + 1 }
            else pure sp : Run Spec)
          let sp ← copyUntil s stop s.length sp
          let sp ← pushFmt sp 0
          pure (sp, stop + 1)
  else
    let sp ← pushFmt sp (if ansi then 'S'.toNat else 's'.toNat)
    let sp ← pushFmt sp 0
    pure (sp, i)

/-- `while (stars--) { args[nb_args++] = get_arg( insert, args_data, FALSE ); insert = -1; }` -/
def listStars : Nat → List Nat × Nat × Int × FormatArgs → Run (List Nat × Nat × Int × FormatArgs)
  | 0, r => pure r
  | n + 1, (args, nb, insert, a) => do
    let (v, a) ← getArg insert a
    let args ← store args nb v
    listStars n (args, nb + 1, -1, a)

/-- `while (stars--) args[nb_args++] = args_data->array[args_data->last++];` -/
def arrayStars (arr : List Nat) : Nat → List Nat × Nat × FormatArgs → Run (List Nat × FormatArgs)
  | 0, (args, _, a) => pure (args, a)
  | n + 1, (args, nb, a) => do
    let v ← loadInt arr a.last
    let args ← store args nb v
    arrayStars arr n (args, nb + 1, { a with last := a.last + 1 })

/-- The second half of `add_format`: the five arguments passed to `_snwprintf_s`. -/
def insertArgs (a : FormatArgs) (insert : Int) (stars : Nat) : MsgM (List Nat × FormatArgs) :=
  let args := List.replicate 5 0
  match a.list, a.array with
  | some _, _ => do
    -- make sure the previous arguments have been fetched
    let (_, a) ← getArg (insert - 1) a
    let (args, nb, insert, a) ← listStars stars (args, 0, insert, a)
    -- the argument Windows drops after a width or precision from a `va_list`
    let a := if insert = -1 then { a with last := a.last - 1 } else a
    let (val, a) ← getArg insert a
    let args ← store args nb val
    let args ← store args (nb + 1) (val >>> 32)
    pure (args, a)
  | none, some arr => do
    let v ← (loadInt arr (insert - 1) : Run Nat)
    let args ← (store args 0 v : Run (List Nat))
    let a := if a.last < insert then { a with last := insert } else a
    arrayStars arr stars (args, 1, a)
  | none, none => throw .invalidParameter

/-- `add_format( &buffer, end, &src, insert, ansi, args_data )` with `*src = s + i`. -/
def addFormat (printf : Printf) (s : List Nat) (o : Out) (i : Nat) (insert : Nat) (ansi : Bool)
    (a : FormatArgs) : MsgM (Out × Nat × FormatArgs) := do
  let (sp, i) ← insertFormat s i ansi
  let (args, a) ← insertArgs a insert sp.stars
  let (dst, len) ← snwprintfS printf o.dst o.pos (o.dst.length - o.pos)
    (sp.fmt.takeWhile (· ≠ 0)) args
  if len = -1 then throw .bufferOverflow
  else pure (⟨dst, o.pos + len.toNat⟩, i, a)

/-- The locals of the loop of `RtlFormatMessageEx`: the buffer, `line`, `space`, the template
index `src` and `args_data`. -/
structure Fmt where
  out : Out
  line : Nat
  space : Option Nat
  src : Nat
  args : FormatArgs

def crlf : List Nat := [0x0d, 0x0a]

section Loop

variable (printf : Printf) (s : List Nat) (width : Nat) (ignoreInserts ansi : Bool)

/-- A line break: `add_chars( &buffer, end, crlfW, 2 ); line = buffer; space = NULL;` -/
def addBreak (st : Fmt) (str : List Nat) : MsgM Fmt := do
  let o ← addChars st.out str 0 str.length
  pure { st with out := o, line := o.pos, space := none }

/-- `while (src[1]) src++;` -/
def skipToEnd : Nat → Nat → Run Nat
  | 0, i => pure i
  | n + 1, i => do
    let c ← load s (i + 1)
    if c = 0 then pure i else skipToEnd n (i + 1)

/-- The `switch (*src)` after a `%`, with `src` on the character after it. -/
def percent (st : Fmt) : MsgM Fmt := do
  let c ← (load s st.src : Run Nat)
  if c = 0 then throw .invalidParameter
  else if c = 't'.toNat ∧ width = 0 then
    let o ← addChars st.out [0x09] 0 1
    pure { st with out := o }
  else if c = 't'.toNat ∨ c = 'n'.toNat then addBreak st crlf
  else if c = 'r'.toNat then addBreak st [0x0d]
  else if c = '0'.toNat then
    let i ← skipToEnd s s.length st.src
    pure { st with src := i }
  else if '1'.toNat ≤ c ∧ c ≤ '9'.toNat ∧ !ignoreInserts then do
    let d ← (load s (st.src + 1) : Run Nat)
    let (nr, i) := if '0'.toNat ≤ d ∧ d ≤ '9'.toNat then
        ((c - '0'.toNat) * 10 + (d - '0'.toNat), st.src + 2)
      else (c - '0'.toNat, st.src + 1)
    let (o, i, a) ← addFormat printf s st.out i nr ansi st.args
    -- `src--`, which the loop's `src++` undoes
    pure { st with out := o, src := i - 1, args := a }
  else if ignoreInserts then do
    let o ← addChars st.out s (st.src - 1) 2
    pure { st with out := o }
  else do
    let o ← addChars st.out s st.src 1
    pure { st with out := o }

/-- The `switch (*src)` of one turn of the loop on the character `c`. -/
def formatChar (st : Fmt) (c : Nat) : MsgM Fmt := do
  if c = 0x0d ∨ c = 0x0a then
    -- `\r\n` is one line break; with a width every break is a space
    let i ← (if c = 0x0d then do
        let d ← load s (st.src + 1)
        pure (if d = 0x0a then st.src + 1 else st.src)
      else pure st.src : Run Nat)
    let st := { st with src := i }
    if width = 0 then addBreak st crlf
    else do
      let o ← addChars st.out [0x20] 0 1
      pure { st with out := o, space := some st.out.pos }
  else if c = 0x20 then do
    let o ← addChars st.out [0x20] 0 1
    pure { st with out := o, space := some st.out.pos }
  else if c = 0x09 then do
    let space := if st.space.map (· + 1) = some st.out.pos then some st.out.pos else st.space
    let o ← addChars st.out [0x09] 0 1
    pure { st with out := o, space := space }
  else if c = '%'.toNat then percent printf s width ignoreInserts ansi { st with src := st.src + 1 }
  else do
    let o ← addChars st.out s st.src 1
    pure { st with out := o }

/-- `while (space > line && (space[-1] == ' ' || space[-1] == '\t')) space--;` -/
def backOverBlanks (dst : List Nat) (line : Nat) : Nat → Nat → Run Nat
  | 0, space => pure space
  | n + 1, space =>
    if line < space then do
      let c ← load dst (space - 1)
      if c = 0x20 ∨ c = 0x09 then backOverBlanks dst line n (space - 1) else pure space
    else pure space

/-- The line break the loop inserts once the line has reached `width`: at the last space, or
at the end of the buffer. -/
def wrapLine (st : Fmt) : MsgM Fmt :=
  if width ≠ 0 ∧ width ≤ st.out.pos - st.line then do
    let (space, next, diff) ← (match st.space with
      | some sp => do
        let space ← backOverBlanks st.out.dst st.line sp sp
        pure (space, sp + 1, (2 : Int) - (sp + 1 - space))
      | none => pure (st.out.pos, st.out.pos, 2) : Run (Nat × Nat × Int))
    if 0 < diff ∧ ((st.out.dst.length - st.out.pos : Nat) : Int) < diff then
      throw .bufferOverflow
    else do
      let moved ← slice st.out.dst next (st.out.pos - next)
      let dst ← copy st.out.dst (space + 2) moved 0 moved.length
      let dst ← store dst space 0x0d
      let dst ← store dst (space + 1) 0x0a
      pure { st with out := ⟨dst, (st.out.pos + diff).toNat⟩, line := space + 2, space := none }
  else pure st

/-- The loop `for ( ; *src; src++)`, for at most `n` turns. -/
def formatLoop : Nat → Fmt → MsgM Fmt
  | 0, st => pure st
  | n + 1, st => do
    let c ← (load s st.src : Run Nat)
    if c = 0 then pure st
    else do
      let st ← formatChar printf s width ignoreInserts ansi st c
      let st ← wrapLine width st
      formatLoop n { st with src := st.src + 1 }

end Loop

/-- `RtlFormatMessageEx( src, width, ignore_inserts, ansi, is_array, args, buffer, size,
&retsize, 0 )`: the buffer and `retsize`. -/
def rtlFormatMessageEx (printf : Printf) (src : List Nat) (width : Nat)
    (ignoreInserts ansi isArray : Bool) (args : Option (List Nat)) (buffer : List Nat) :
    MsgM (List Nat × Nat) := do
  let a : FormatArgs := ⟨0, if isArray then args else none, if isArray then none else args,
    List.replicate 102 0⟩
  let st ← formatLoop printf src width ignoreInserts ansi (src.length + 1) ⟨⟨buffer, 0⟩, 0, none, 0, a⟩
  let o ← addChars st.out [0] 0 1
  pure (o.dst, o.pos * 2)

/-! ## The pieces of one insert -/

theorem pushFmt_of_lt {sp : Spec} (h : sp.p < sp.fmt.length) (c : Nat) :
    pushFmt sp c = .ok { sp with fmt := sp.fmt.set sp.p c, p := sp.p + 1 } := by
  unfold pushFmt
  rw [store_of_lt h]
  rfl

theorem insertFormat_simple {s : List Nat} {i c : Nat} (hs : s[i]? = some c)
    (hc : c ≠ '!'.toNat) (ansi : Bool) :
    insertFormat s i ansi = pure (⟨i + 1,
      ['%'.toNat, if ansi then 'S'.toNat else 's'.toNat, 0] ++ List.replicate 29 0, 3, 0⟩, i) := by
  obtain ⟨hi, rfl⟩ := List.getElem?_eq_some_iff.mp hs
  unfold insertFormat
  rw [lift_bind_of_ok (pushFmt_of_lt (by simp) _), lift_bind_of_ok (load_of_lt hi), if_neg hc,
    lift_bind_of_ok (pushFmt_of_lt (by simp) _), lift_bind_of_ok (pushFmt_of_lt (by simp) _)]
  cases ansi <;> rfl

theorem getArg_zero (a : FormatArgs) (h : 0 ≤ a.last) : getArg 0 a = .error .outOfBounds := by
  unfold getArg
  dsimp only
  rw [if_neg (by decide), show ((0 : Int) - a.last).toNat = 0 by omega,
    show fetchArgs 0 0 a = .ok a from rfl, ok_bind, loadInt_of_neg (by decide), error_bind]

theorem insertArgs_list_one {a : FormatArgs} {vals : List Nat} (hl : a.list = some vals)
    (h0 : 0 ≤ a.last) (stars : Nat) : (insertArgs a 1 stars).run = .error .outOfBounds := by
  unfold insertArgs
  rw [hl]
  exact run_lift_bind_of_error (getArg_zero a h0) _

theorem insertArgs_array {a : FormatArgs} {arr : List Nat} (hl : a.list = none)
    (ha : a.array = some arr) {insert : Nat} (h1 : 1 ≤ insert) (hlen : insert ≤ arr.length) :
    ∃ args a', insertArgs a insert 0 = pure (args, a') := by
  unfold insertArgs
  rw [hl, ha]
  dsimp only
  rw [lift_bind_of_ok (loadInt_of_lt (by omega) (by omega)),
    lift_bind_of_ok (store_of_lt (by simp))]
  exact ⟨_, _, rfl⟩

theorem snwprintfS_full (printf : Printf) (dst fmt args : List Nat) :
    snwprintfS printf dst dst.length 0 fmt args = .error .outOfBounds := by
  have hcopy : copy dst dst.length (printf fmt args) 0 0 = .ok dst := by simp [copy]
  unfold snwprintfS
  dsimp only
  rw [if_pos rfl, Nat.min_zero, hcopy, ok_bind, if_neg (Nat.lt_irrefl 0),
    store_eq_error le_rfl, error_bind]

theorem addFormat_list_one {s : List Nat} {i c : Nat} (hs : s[i]? = some c) (hc : c ≠ '!'.toNat)
    (printf : Printf) (o : Out) (ansi : Bool) {a : FormatArgs} {vals : List Nat}
    (hl : a.list = some vals) (h0 : 0 ≤ a.last) :
    (addFormat printf s o i 1 ansi a).run = .error .outOfBounds := by
  unfold addFormat
  rw [insertFormat_simple hs hc, pure_bind]
  exact run_bind_of_run_error (insertArgs_list_one hl h0 _) _

theorem addFormat_full {s : List Nat} {i c : Nat} (hs : s[i]? = some c) (hc : c ≠ '!'.toNat)
    (printf : Printf) {o : Out} (hfull : o.pos = o.dst.length) (ansi : Bool) {a : FormatArgs}
    {arr : List Nat} (hl : a.list = none) (ha : a.array = some arr) {insert : Nat}
    (h1 : 1 ≤ insert) (hlen : insert ≤ arr.length) :
    (addFormat printf s o i insert ansi a).run = .error .outOfBounds := by
  obtain ⟨args, a', hargs⟩ := insertArgs_array hl ha h1 hlen
  unfold addFormat
  rw [insertFormat_simple hs hc, pure_bind]
  dsimp only
  rw [hargs, pure_bind]
  dsimp only
  rw [hfull, Nat.sub_self]
  exact run_lift_bind_of_error (snwprintfS_full printf o.dst _ args) _

/-! ## Steps of the loop -/

section Steps

variable (printf : Printf) (s : List Nat) (width : Nat) (ignoreInserts ansi : Bool)

/-- A character the loop copies as it is when no width is set. -/
def IsPlain (c : Nat) : Prop := c ≠ 0 ∧ c ≠ '%'.toNat ∧ c ≠ 0x0d ∧ c ≠ 0x0a

instance : DecidablePred IsPlain := fun _ => inferInstanceAs (Decidable (_ ∧ _))

theorem addChars_one {o : Out} (h : o.pos < o.dst.length) {str : List Nat} {off c : Nat}
    (hs : str[off]? = some c) : addChars o str off 1 = pure ⟨o.dst.set o.pos c, o.pos + 1⟩ := by
  obtain ⟨hoff, rfl⟩ := List.getElem?_eq_some_iff.mp hs
  unfold addChars
  rw [if_neg (by omega), lift_bind_of_ok (copy_one h hoff)]

theorem formatChar_plain {st : Fmt} {c : Nat} (hc : IsPlain c) (hs : s[st.src]? = some c)
    (hroom : st.out.pos < st.out.dst.length) :
    ∃ space, formatChar printf s width ignoreInserts ansi st c =
      pure { st with out := ⟨st.out.dst.set st.out.pos c, st.out.pos + 1⟩, space := space } := by
  obtain ⟨-, hp, hr, hn⟩ := hc
  unfold formatChar
  rw [if_neg (by omega)]
  by_cases hsp : c = 0x20
  · subst hsp
    rw [if_pos rfl, addChars_one hroom rfl]
    exact ⟨_, rfl⟩
  rw [if_neg hsp]
  by_cases htab : c = 0x09
  · subst htab
    rw [if_pos rfl, addChars_one hroom rfl]
    exact ⟨_, rfl⟩
  rw [if_neg htab, if_neg hp, addChars_one hroom hs]
  exact ⟨st.space, rfl⟩

theorem formatChar_percent (st : Fmt) :
    formatChar printf s width ignoreInserts ansi st '%'.toNat =
      percent printf s width ignoreInserts ansi { st with src := st.src + 1 } := by
  unfold formatChar
  rw [if_neg (by decide), if_neg (by decide), if_neg (by decide), if_pos rfl]

theorem wrapLine_zero (st : Fmt) : wrapLine 0 st = pure st := by
  unfold wrapLine
  rw [if_neg (fun h => h.1 rfl)]

theorem formatLoop_of_formatChar_error {st : Fmt} {c : Nat} (hs : s[st.src]? = some c)
    (hc : c ≠ 0) {e : Fault} (he : (formatChar printf s width ignoreInserts ansi st c).run = .error e)
    (n : Nat) : (formatLoop printf s width ignoreInserts ansi (n + 1) st).run = .error e := by
  obtain ⟨hi, rfl⟩ := List.getElem?_eq_some_iff.mp hs
  rw [formatLoop, lift_bind_of_ok (load_of_lt hi), if_neg hc]
  exact run_bind_of_run_error he _

theorem formatLoop_plain (pre : List Nat) (hpre : ∀ x ∈ pre, IsPlain x) (st : Fmt)
    (hs : ∀ j (hj : j < pre.length), s[st.src + j]? = some pre[j])
    (hroom : st.out.pos + pre.length ≤ st.out.dst.length) (n : Nat) :
    ∃ st' : Fmt, formatLoop printf s 0 ignoreInserts ansi (n + pre.length) st =
        formatLoop printf s 0 ignoreInserts ansi n st' ∧
      st'.src = st.src + pre.length ∧ st'.out.pos = st.out.pos + pre.length ∧
      st'.out.dst.length = st.out.dst.length ∧ st'.args = st.args := by
  induction pre generalizing st with
  | nil => exact ⟨st, rfl, rfl, rfl, rfl, rfl⟩
  | cons x pre ih =>
    have hx : s[st.src]? = some x := hs 0 (by simp)
    have hroom' : st.out.pos < st.out.dst.length := by simp at hroom; omega
    obtain ⟨space, hstep⟩ :=
      formatChar_plain printf s 0 ignoreInserts ansi (hpre x (by simp)) hx hroom'
    obtain ⟨hlt, hsx⟩ := List.getElem?_eq_some_iff.mp hx
    let st₁ : Fmt :=
      { st with out := ⟨st.out.dst.set st.out.pos x, st.out.pos + 1⟩, space := space,
                src := st.src + 1 }
    have hs₁ : ∀ j (hj : j < pre.length), s[st₁.src + j]? = some pre[j] := by
      intro j hj
      have := hs (j + 1) (by simp; omega)
      rwa [show st.src + (j + 1) = st₁.src + j by simp [st₁]; omega] at this
    obtain ⟨st', h1, h2, h3, h4, h5⟩ := ih (fun y hy => hpre y (by simp [hy])) st₁ hs₁
      (by simp [st₁] at hroom ⊢; omega)
    refine ⟨st', ?_, by simp [h2, st₁]; omega, by simp [h3, st₁]; omega, by simp [h4, st₁], h5⟩
    rw [List.length_cons, show n + (pre.length + 1) = n + pre.length + 1 by omega, formatLoop,
      lift_bind_of_ok (load_of_lt hlt), hsx, if_neg (hpre x (by simp)).1, hstep, pure_bind,
      wrapLine_zero, pure_bind]
    exact h1

theorem percent_list_one {st : Fmt} {c : Nat} (h1 : s[st.src]? = some '1'.toNat)
    (hs : s[st.src + 1]? = some c) (hd : ¬('0'.toNat ≤ c ∧ c ≤ '9'.toNat)) (hc : c ≠ '!'.toNat)
    {vals : List Nat} (hl : st.args.list = some vals) (h0 : 0 ≤ st.args.last) :
    (percent printf s width false ansi st).run = .error .outOfBounds := by
  obtain ⟨hi, h1⟩ := List.getElem?_eq_some_iff.mp h1
  obtain ⟨hi', hc'⟩ := List.getElem?_eq_some_iff.mp hs
  unfold percent
  rw [lift_bind_of_ok (load_of_lt hi), h1, if_neg (by decide),
    if_neg (fun h => absurd h.1 (by decide)), if_neg (by decide), if_neg (by decide),
    if_neg (by decide), if_pos (by decide), lift_bind_of_ok (load_of_lt hi'), hc', if_neg hd]
  exact run_bind_of_run_error (addFormat_list_one hs hc printf _ ansi hl h0) _

theorem percent_full {st : Fmt} {d c : Nat} (hd1 : s[st.src]? = some d)
    (hd : '1'.toNat ≤ d ∧ d ≤ '9'.toNat) (hs : s[st.src + 1]? = some c)
    (hnd : ¬('0'.toNat ≤ c ∧ c ≤ '9'.toNat)) (hc : c ≠ '!'.toNat)
    (hfull : st.out.pos = st.out.dst.length) {arr : List Nat} (hl : st.args.list = none)
    (ha : st.args.array = some arr) (hlen : d - '0'.toNat ≤ arr.length) :
    (percent printf s width false ansi st).run = .error .outOfBounds := by
  obtain ⟨hi, hd1⟩ := List.getElem?_eq_some_iff.mp hd1
  obtain ⟨hi', hc'⟩ := List.getElem?_eq_some_iff.mp hs
  simp only [Char.reduceToNat] at hd hnd hc hlen
  unfold percent
  simp only [Char.reduceToNat]
  rw [lift_bind_of_ok (load_of_lt hi), hd1, if_neg (by omega), if_neg (by omega),
    if_neg (by omega), if_neg (by omega), if_neg (by omega), if_pos (by simp; omega),
    lift_bind_of_ok (load_of_lt hi'), hc', if_neg hnd]
  exact run_bind_of_run_error
    (addFormat_full hs (by simpa using hc) printf hfull ansi hl ha (by omega) hlen) _

end Steps

/-! ## Accesses outside the arrays -/

theorem rtlFormatMessageEx_list_insert_one_faults (printf : Printf) {c : Nat} (rest : List Nat)
    (hd : ¬('0'.toNat ≤ c ∧ c ≤ '9'.toNat)) (hc : c ≠ '!'.toNat) (width : Nat) (ansi : Bool)
    (vals buffer : List Nat) :
    (rtlFormatMessageEx printf ('%'.toNat :: '1'.toNat :: c :: rest) width false ansi false
      (some vals) buffer).run = .error .outOfBounds := by
  unfold rtlFormatMessageEx
  refine run_bind_of_run_error ?_ _
  refine formatLoop_of_formatChar_error printf _ width false ansi (c := '%'.toNat) rfl
    (by decide) ?_ _
  rw [formatChar_percent]
  exact percent_list_one printf _ width ansi rfl rfl hd hc rfl le_rfl

theorem rtlFormatMessageEx_full_buffer_insert_faults (printf : Printf) (pre : List Nat)
    (hpre : ∀ x ∈ pre, IsPlain x) {d c : Nat} (rest : List Nat)
    (hd : '1'.toNat ≤ d ∧ d ≤ '9'.toNat) (hnd : ¬('0'.toNat ≤ c ∧ c ≤ '9'.toNat))
    (hc : c ≠ '!'.toNat) (ansi : Bool) (vals buffer : List Nat)
    (hvals : d - '0'.toNat ≤ vals.length) (hbuf : buffer.length = pre.length) :
    (rtlFormatMessageEx printf (pre ++ '%'.toNat :: d :: c :: rest) 0 false ansi true
      (some vals) buffer).run = .error .outOfBounds := by
  unfold rtlFormatMessageEx
  refine run_bind_of_run_error ?_ _
  have hlen : (pre ++ '%'.toNat :: d :: c :: rest).length + 1 =
      rest.length + 3 + 1 + pre.length := by
    simp
    omega
  rw [hlen, if_pos rfl, if_pos rfl]
  obtain ⟨st, hrun, hsrc, hpos, hdst, hargs⟩ :=
    formatLoop_plain printf (pre ++ '%'.toNat :: d :: c :: rest) false ansi pre hpre
    ⟨⟨buffer, 0⟩, 0, none, 0, ⟨0, some vals, none, List.replicate 102 0⟩⟩
    (fun j hj => by simp [List.getElem?_append_left hj]) (by simp [hbuf]) (rest.length + 3 + 1)
  rw [hrun]
  simp only [Nat.zero_add] at hsrc hpos
  refine formatLoop_of_formatChar_error printf _ 0 false ansi (c := '%'.toNat)
    (by simp [hsrc]) (by decide) ?_ _
  rw [formatChar_percent]
  have hat : ∀ k (x : Nat), ('%'.toNat :: d :: c :: rest)[k]? = some x →
      (pre ++ '%'.toNat :: d :: c :: rest)[pre.length + k]? = some x := by
    intro k x hk
    rwa [List.getElem?_append_right (by omega), Nat.add_sub_cancel_left]
  exact percent_full printf _ 0 ansi (d := d) (c := c) (by rw [hsrc]; exact hat 1 d rfl) hd
    (by rw [hsrc]; exact hat 2 c rfl) hnd hc (by simp [hpos, hdst, hbuf]) (by simp [hargs])
    (by simp [hargs]) hvals

/-- `RtlFormatMessageEx` reads `arglist[-1]` for every message from a `va_list` that starts
with `%1`, and writes one cell past the buffer for every message from an array whose first
insert comes when the buffer is full. -/
theorem rtlFormatMessageEx_accesses_outside_arrays (printf : Printf) :
    (∀ (c : Nat) (rest : List Nat), ¬('0'.toNat ≤ c ∧ c ≤ '9'.toNat) → c ≠ '!'.toNat →
      ∀ width ansi vals buffer,
        (rtlFormatMessageEx printf ('%'.toNat :: '1'.toNat :: c :: rest) width false ansi false
          (some vals) buffer).run = .error .outOfBounds) ∧
    (∀ pre : List Nat, (∀ x ∈ pre, IsPlain x) → ∀ (d c : Nat) (rest : List Nat),
      '1'.toNat ≤ d ∧ d ≤ '9'.toNat → ¬('0'.toNat ≤ c ∧ c ≤ '9'.toNat) → c ≠ '!'.toNat →
      ∀ ansi (vals buffer : List Nat), d - '0'.toNat ≤ vals.length → buffer.length = pre.length →
        (rtlFormatMessageEx printf (pre ++ '%'.toNat :: d :: c :: rest) 0 false ansi true
          (some vals) buffer).run = .error .outOfBounds) := by
  constructor
  · intro c rest hd hc width ansi vals buffer
    exact rtlFormatMessageEx_list_insert_one_faults printf rest hd hc width ansi vals buffer
  · intro pre hpre d c rest hd hnd hc ansi vals buffer hvals hbuf
    exact rtlFormatMessageEx_full_buffer_insert_faults printf pre hpre rest hd hnd hc ansi vals
      buffer hvals hbuf

theorem rtlFormatMessageEx_percent_one_faults :
    (rtlFormatMessageEx (fun _ _ => []) ['%'.toNat, '1'.toNat, 0] 0 false false false (some [5])
      []).run = .error .outOfBounds ∧
    (rtlFormatMessageEx (fun _ _ => []) ['a'.toNat, '%'.toNat, '1'.toNat, 0] 0 false false true
      (some [5]) [0]).run = .error .outOfBounds :=
  ⟨(rtlFormatMessageEx_accesses_outside_arrays _).1 0 [] (by decide) (by decide) 0 false [5] [],
    (rtlFormatMessageEx_accesses_outside_arrays _).2 ['a'.toNat] (by decide) '1'.toNat 0 []
      (by decide) (by decide) (by decide) false [5] [0] (by decide) rfl⟩

end Wine.Ntdll
