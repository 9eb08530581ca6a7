import Wine.Lib.Memory
import Wine.Status

/-!
# Full path names (`dlls/ntdll/path.c`, `dlls/ntdll/env.c`)

`RtlGetFullPathName_UEx` with `get_full_path_helper`, `RtlDetermineDosPathNameType_U`,
`skip_unc_prefix`, and `RtlQueryEnvironmentVariable_U` with `ENV_FindVariable`. Strings are
the lists of their WCHARs up to and including the NUL; the caller's buffer is the list of its
`size / sizeof(WCHAR)` cells. The heap holds the blocks these functions allocate, each the
list of its WCHAR cells, `none` once freed; an allocation is assumed to succeed, and the cells of
a new block, which `RtlAllocateHeap` without `HEAP_ZERO_MEMORY` does not clear, are whatever the
heap's `fresh` gives.

The current directory, the environment block and the upper-case table are what the PEB holds.
`get_unix_full_path` and `RtlIsDosDeviceName_U` are parameters. `name` and
`buffer` may be the same memory: the model reads `name` only before it first writes `buffer`,
as the code does, so it keeps them apart.
-/

namespace Wine.Ntdll.Path

open Mem

set_option autoImplicit false

def isSeparator (c : Nat) : Bool := c = '\\'.toNat ∨ c = '/'.toNat

inductive PathType where
  | unknown
  | uncAbsolute
  | driveAbsolute
  | driveRelative
  | rooted
  | relative
  | localDevice
  | rootLocalDevice
  deriving DecidableEq, Repr

def rtlDetermineDosPathNameType (path : List Nat) : Run PathType := do
  let c0 ← load path 0
  if isSeparator c0 then do
    let c1 ← load path 1
    if !isSeparator c1 then pure .rooted
    else do
      let c2 ← load path 2
      if c2 ≠ '.'.toNat ∧ c2 ≠ '?'.toNat then pure .uncAbsolute
      else do
        let c3 ← load path 3
        if isSeparator c3 then pure .localDevice
        else if c3 ≠ 0 then pure .uncAbsolute
        else pure .rootLocalDevice
  else if c0 = 0 then pure .relative
  else do
    let c1 ← load path 1
    if c1 ≠ ':'.toNat then pure .relative
    else do
      let c2 ← load path 2
      pure (if isSeparator c2 then .driveAbsolute else .driveRelative)

/-- `wcslen( s + i )`, for at most `n` characters. -/
def wcslen (s : List Nat) : Nat → Nat → Run Nat
  | 0, _ => pure 0
  | n + 1, i => do
    let c ← load s i
    if c = 0 then pure 0 else do
      let k ← wcslen s n (i + 1)
      pure (k + 1)

/-- `wcschr( s + i, c )` for `c ≠ 0`, for at most `n` characters. -/
def wcschr (s : List Nat) (c : Nat) : Nat → Nat → Run (Option Nat)
  | 0, _ => pure none
  | n + 1, i => do
    let x ← load s i
    if x = c then pure (some i) else if x = 0 then pure none else wcschr s c n (i + 1)

/-- `wcsncmp( a + i, b + j, n ) != 0`: the loop stops at the `n`-th character, a NUL or a
difference, and compares there. -/
def wcsncmpDiffers (a b : List Nat) : Nat → Nat → Nat → Run Bool
  | 0, _, _ => pure false
  | n + 1, i, j => do
    let x ← load a i
    let y ← load b j
    if n = 0 ∨ x = 0 ∨ x ≠ y then pure (x ≠ y) else wcsncmpDiffers a b n (i + 1) (j + 1)

def asciiLower (c : Nat) : Nat := if 'A'.toNat ≤ c ∧ c ≤ 'Z'.toNat then c + 32 else c

/-- `_wcsnicmp( a + i, b + j, n ) != 0`, which folds only ASCII letters. -/
def wcsnicmpDiffers (a b : List Nat) : Nat → Nat → Nat → Run Bool
  | 0, _, _ => pure false
  | n + 1, i, j => do
    let x ← load a i
    let y ← load b j
    if asciiLower x ≠ asciiLower y then pure true
    else if x = 0 then pure false
    else wcsnicmpDiffers a b n (i + 1) (j + 1)

/-- `RtlCompareUnicodeStrings( a + i, n, b + j, n, TRUE ) == 0` -/
def equalUpcase (upcase : Nat → Nat) (a b : List Nat) : Nat → Nat → Nat → Run Bool
  | 0, _, _ => pure true
  | n + 1, i, j => do
    let x ← load a i
    let y ← load b j
    if upcase x ≠ upcase y then pure false else equalUpcase upcase a b n (i + 1) (j + 1)

/-- The index of the first character from `i` on that fails `p`, for at most `n` characters. -/
def skipWhile (p : Nat → Bool) (s : List Nat) : Nat → Nat → Run Nat
  | 0, i => pure i
  | n + 1, i => do
    let c ← load s i
    if p c then skipWhile p s n (i + 1) else pure i

/-- `memmove( s + dst, s + src, (wcslen( s + src ) + 1) * sizeof(WCHAR) )` -/
def moveDown (s : List Nat) (dst src : Nat) : Run (List Nat) := do
  let n ← wcslen s (s.length + 1) src
  copy s dst s src (n + 1)

/-! ## collapse_path -/

section Collapse

variable (mark : Nat)

/-- `for (p = path; *p; p++) if (*p == '/') *p = '\\';` -/
def toBackslashes : Nat → List Nat → Nat → Run (List Nat)
  | 0, path, _ => pure path
  | n + 1, path, p => do
    let c ← load path p
    if c = 0 then pure path
    else do
      let path ← if c = '/'.toNat then store path p '\\'.toNat else pure path
      toBackslashes n path (p + 1)

/-- The loop that collapses runs of backslashes after `max( 1, mark )`: the path and `next`. -/
def dropDoubled : Nat → List Nat → Nat → Nat → Run (List Nat × Nat)
  | 0, path, _, next => pure (path, next)
  | n + 1, path, p, next => do
    let c ← load path p
    if c = 0 then pure (path, next)
    else do
      let keep ← (if c ≠ '\\'.toNat then pure true else do
          let prev ← load path (next - 1)
          pure (prev ≠ '\\'.toNat) : Run Bool)
      if keep then do
        let path ← store path next c
        dropDoubled n path (p + 1) (next + 1)
      else dropDoubled n path (p + 1) next

/-- `while (p > path + mark && p[-1] != '\\') p--;` -/
def backToSeparator (path : List Nat) : Nat → Run Nat
  | 0 => pure 0
  | p + 1 =>
    if mark < p + 1 then do
      let c ← load path p
      if c ≠ '\\'.toNat then backToSeparator path p else pure (p + 1)
    else pure (p + 1)

/-- `while (p > path + mark && (p[-1] == ' ' || p[-1] == '.')) p--;` -/
def backOverDots (path : List Nat) : Nat → Run Nat
  | 0 => pure 0
  | p + 1 =>
    if mark < p + 1 then do
      let c ← load path p
      if c = ' '.toNat ∨ c = '.'.toNat then backOverDots path p else pure (p + 1)
    else pure (p + 1)

/-- The end of a component that is not `.` or `..`: past its backslash, or with the dot
before that backslash removed. -/
def skipComponent (path : List Nat) (p : Nat) : Run (List Nat × Nat) := do
  let p ← skipWhile (fun c => c ≠ 0 ∧ c ≠ '\\'.toNat) path (path.length + 1) p
  let c ← load path p
  if c = '\\'.toNat then do
    let dot ← (if mark < p then do
        let d ← load path (p - 1)
        pure (d = '.'.toNat)
      else pure false : Run Bool)
    if dot then do
      let path ← moveDown path (p - 1) p
      pure (path, p)
    else pure (path, p + 1)
  else pure (path, p)

/-- The main loop of `collapse_path` from `p`, for at most `n` rounds: the path and `p`. -/
def components : Nat → List Nat → Nat → Run (List Nat × Nat)
  | 0, path, p => pure (path, p)
  | n + 1, path, p => do
    let c ← load path p
    if c = 0 then pure (path, p)
    else if c ≠ '.'.toNat then do
      let (path, p) ← skipComponent mark path p
      components n path p
    else do
      let c1 ← load path (p + 1)
      if c1 = '\\'.toNat then do
        -- a `.\` component
        let path ← moveDown path p (p + 2)
        components n path p
      else if c1 = 0 then do
        -- a final `.`
        let p := if mark < p then p - 1 else p
        let path ← store path p 0
        components n path p
      else if c1 ≠ '.'.toNat then do
        let (path, p) ← skipComponent mark path p
        components n path p
      else do
        let c2 ← load path (p + 2)
        if c2 = '\\'.toNat then do
          -- a `..\` component
          let q ← if mark < p then backToSeparator mark path (p - 1) else pure p
          let path ← moveDown path q (p + 3)
          components n path q
        else if c2 = 0 then do
          -- a final `..`
          let q ← if mark < p then do
              let q ← backToSeparator mark path (p - 1)
              pure (if mark < q then q - 1 else q)
            else pure p
          let path ← store path q 0
          components n path q
        else do
          let (path, p) ← skipComponent mark path p
          components n path p

end Collapse

/-- `collapse_path( path, mark )`. Each round of the main loop removes characters, ends the
string or moves `p` forward, so the length of the buffer bounds the rounds. -/
def collapsePath (path : List Nat) (mark : Nat) : Run (List Nat) := do
  let path ← toBackslashes (path.length + 1) path 0
  let (path, next) ← dropDoubled (path.length + 1) path (max 1 mark) (max 1 mark)
  let path ← store path next 0
  let (path, p) ← components mark (path.length + 1) path mark
  let p ← backOverDots mark path p
  store path p 0

/-- What the PEB and the unix side provide. -/
structure PathEnv where
  /-- `CurrentDirectory.DosPath`: its `Buffer`, NUL-terminated, and its `Length` in bytes -/
  cd : List Nat
  cdLength : Nat
  environment : List Nat
  upcase : Nat → Nat
  /-- `get_unix_full_path( name + i, buffer, size, &reqsize )`: the buffer and `reqsize`, or
  `FALSE` -/
  unixFullPath : List Nat → Nat → List Nat → Nat → Option (List Nat × Nat)
  /-- `RtlIsDosDeviceName_U( name )` -/
  dosDeviceName : List Nat → Nat

/-- `ENV_FindVariable( env + i, name, namelen )`, for at most `n` variables: the index of the
value. -/
def envFindVariable (pe : PathEnv) (name : List Nat) (namelen : Nat) :
    Nat → Nat → Run (Option Nat)
  | 0, _ => pure none
  | n + 1, i => do
    let c ← load pe.environment i
    if c = 0 then pure none
    else do
      let len ← wcslen pe.environment (pe.environment.length + 1) i
      -- a name with `=` inside is not a match, a leading `=` is
      let found ← (if namelen < len then do
          let e ← load pe.environment (i + namelen)
          if e ≠ '='.toNat then pure false
          else do
            let same ← equalUpcase pe.upcase pe.environment name namelen i 0
            if !same then pure false
            else do
              let eq ← wcschr pe.environment '='.toNat (pe.environment.length + 1) (i + 1)
              pure (eq = some (i + namelen))
        else pure false : Run Bool)
      if found then pure (some (i + namelen + 1))
      else envFindVariable pe name namelen n (i + len + 1)

/-- The blocks allocated by these functions, and what cell `i` of block `b` holds when it is
handed out. -/
structure Heap where
  blocks : List (Option (List Nat))
  fresh : Nat → Nat → Nat

namespace Heap

/-- The `n` cells of the next block, as the heap hands them out. -/
def freshCells (h : Heap) (n : Nat) : List Nat := (List.range n).map (h.fresh h.blocks.length)

/-- `RtlAllocateHeap( GetProcessHeap(), 0, size )`: a block of `size / sizeof(WCHAR)` cells. -/
def alloc (h : Heap) (size : Nat) : Nat × Heap :=
  (h.blocks.length, { h with blocks := h.blocks ++ [some (h.freshCells (size / 2))] })

def cells (h : Heap) (b : Nat) : Run (List Nat) :=
  match h.blocks[b]? with
  | some (some cells) => pure cells
  | _ => .error .outOfBounds

/-- The block `b` rewritten with cells of the same number. -/
def setCells (h : Heap) (b : Nat) (cells : List Nat) : Heap :=
  { h with blocks := h.blocks.set b (some cells) }

def write (h : Heap) (b i v : Nat) : Run Heap := do
  let cells ← h.cells b
  let cells ← store cells i v
  pure (h.setCells b cells)

def free (h : Heap) (b : Nat) : Run Heap := do
  let _ ← h.cells b
  pure { h with blocks := h.blocks.set b none }

def live (h : Heap) : Nat := (h.blocks.filter Option.isSome).length

end Heap

/-- `RtlQueryEnvironmentVariable_U( NULL, &var, &val )` with `var` the first `namelen` cells of
`name`, `val.MaximumLength = maxLength` and `val.Buffer` the heap block `b`: the status and
`val.Length`, a `USHORT`. -/
def rtlQueryEnvironmentVariable (pe : PathEnv) (name : List Nat) (namelen maxLength : Nat)
    (heap : Heap) (b : Nat) : Run (NtStatus × Nat × Heap) := do
  if namelen = 0 then pure (.variableNotFound, 0, heap)
  else
    match ← envFindVariable pe name namelen (pe.environment.length + 1) 0 with
    | none => pure (.variableNotFound, 0, heap)
    | some j => do
      let n ← wcslen pe.environment (pe.environment.length + 1) j
      let length := n * 2 % 0x10000
      if length ≤ maxLength then do
        -- `memmove( value->Buffer, var, min( value->Length + sizeof(WCHAR), MaximumLength ) )`;
        -- an odd last byte lies inside the block, whose size is at least `MaximumLength`
        let k := min (length + 2) maxLength / 2
        let src ← slice pe.environment j k
        let cells ← heap.cells b
        let cells ← copy cells 0 src 0 k
        pure (.success, length, heap.setCells b cells)
      else pure (.bufferTooSmall, length, heap)

/-- `skip_unc_prefix( s + i )`: past the share name, the directory name and the separators
after each. -/
def skipUncPrefix (s : List Nat) (i : Nat) : Run Nat := do
  let i ← skipWhile (fun c => c ≠ 0 ∧ !isSeparator c) s (s.length + 1) (i + 2)
  let i ← skipWhile isSeparator s (s.length + 1) i
  let i ← skipWhile (fun c => c ≠ 0 ∧ !isSeparator c) s (s.length + 1) i
  skipWhile isSeparator s (s.length + 1) i

/-- The string `get_full_path_helper` puts before the rest of the name. -/
inductive InsStr where
  | none
  | tmp (cells : List Nat)
  | cd
  | block (b : Nat)

/-- The `switch (type)` of `get_full_path_helper`: `done` for a `goto done`, with the buffer
and `reqsize`; otherwise `reqsize`, `ins_str`, `mark` and `dep`. -/
inductive Prefix where
  | done (buffer : List Nat) (reqsize : Nat)
  | insert (reqsize : Nat) (ins : InsStr) (mark dep : Nat)

/-- The prefix of a relative name, and of a drive-relative one on the current drive. -/
def relativePrefix (pe : PathEnv) (dep : Nat) : Run Prefix := do
  let c1 ← load pe.cd 1
  if c1 ≠ ':'.toNat then do
    let mark ← skipUncPrefix pe.cd 0
    pure (.insert pe.cdLength .cd mark dep)
  else pure (.insert pe.cdLength .cd 3 dep)

/-- The drive-relative case on another drive: the directory in the variable `=X:`, read into a
block of the caller's `size`, or the root of the drive. -/
def driveRelativePrefix (pe : PathEnv) (name : List Nat) (size : Nat) (heap : Heap) :
    Run (Prefix × Heap) := do
  let x ← load name 0
  let (b, heap) := heap.alloc size
  -- `val.MaximumLength = size` is a `USHORT`
  let (status, length, heap) ←
    rtlQueryEnvironmentVariable pe ['='.toNat, x, ':'.toNat, 0] 3 (size % 0x10000) heap b
  match status with
  | .success | .bufferTooSmall => do
    -- the trailing `\` goes at `val.Length / sizeof(WCHAR)`
    let heap ← heap.write b (length / 2) '\\'.toNat
    pure (.insert (length + 2) (.block b) 3 2, heap)
  | .variableNotFound => do
    let heap ← heap.free b
    pure (.insert 6 (.tmp [x, ':'.toNat, '\\'.toNat]) 3 2, heap)
  | _ => do
    let heap ← heap.free b
    pure (.insert 0 .none 3 2, heap)

def pathPrefix (pe : PathEnv) (name buffer : List Nat) (size : Nat) (heap : Heap) :
    PathType → Run (Prefix × Heap)
  | .uncAbsolute => do
    let mark ← skipUncPrefix name 0
    pure (.insert 0 .none mark 0, heap)
  | .localDevice => do
    -- `\\.\unix\...` is a unix path
    let differs ← wcsncmpDiffers name ['u'.toNat, 'n'.toNat, 'i'.toNat, 'x'.toNat, 0] 4 4 0
    let unix ← (if differs then pure Option.none else do
        let sep ← load name 8
        pure (if isSeparator sep then pe.unixFullPath name 8 buffer size else Option.none) :
      Run (Option (List Nat × Nat)))
    match unix with
    | some (buffer, reqsize) => pure (.done buffer reqsize, heap)
    | Option.none => pure (.insert 0 .none 4 0, heap)
  | .driveAbsolute => do
    let x ← load name 0
    pure (.insert 2 (.tmp [x]) 3 1, heap)
  | .driveRelative => do
    let differs ← wcsnicmpDiffers name pe.cd 2 0 0
    if differs then driveRelativePrefix pe name size heap
    else do
      let p ← relativePrefix pe 2
      pure (p, heap)
  | .relative => do
    let p ← relativePrefix pe 0
    pure (p, heap)
  | .rooted => do
    let c ← load name 0
    match (if c = '/'.toNat then pe.unixFullPath name 0 buffer size else Option.none) with
    | some (buffer, reqsize) => pure (.done buffer reqsize, heap)
    | Option.none => do
      let c1 ← load pe.cd 1
      if c1 = ':'.toNat then do
        let c0 ← load pe.cd 0
        pure (.insert 4 (.tmp [c0, ':'.toNat]) 3 0, heap)
      else do
        let mark ← skipUncPrefix pe.cd 0
        pure (.insert (mark * 2) .cd mark 0, heap)
  | .rootLocalDevice =>
    pure (.insert 8 (.tmp ['\\'.toNat, '\\'.toNat, '.'.toNat, '\\'.toNat]) 4 3, heap)
  | .unknown => pure (.done buffer 0, heap)

/-- The first `n` cells of `ins_str`. -/
def insCells (pe : PathEnv) (heap : Heap) (n : Nat) : InsStr → Run (List Nat)
  | .none => if n = 0 then pure [] else .error .nullPointer
  | .tmp cells => slice cells 0 n
  | .cd => slice pe.cd 0 n
  | .block b => do
    let cells ← heap.cells b
    slice cells 0 n

/-- `get_full_path_helper( name, buffer, size, type )`: `reqsize` in bytes and the buffer. -/
def getFullPathHelper (pe : PathEnv) (name buffer : List Nat) (size : Nat) (type : PathType)
    (heap : Heap) : Run (Nat × List Nat × Heap) := do
  -- a name of spaces only is an error
  let i ← skipWhile (fun c => c = ' '.toNat) name (name.length + 1) 0
  let c ← load name i
  if c = 0 then pure (0, buffer, heap)
  else
    match ← pathPrefix pe name buffer size heap type with
    | (.done buffer reqsize, heap) => pure (reqsize, buffer, heap)
    | (.insert reqsize ins mark dep, heap) => do
      let deplen ← wcslen name (name.length + 1) dep
      let deplen := deplen * 2
      -- not enough space: the size needed, `ins_str` not freed
      if size < reqsize + deplen + 2 then pure (reqsize + deplen + 2, buffer, heap)
      else do
        let rest ← slice name dep (deplen / 2 + 1)
        let buffer ← copy buffer (reqsize / 2) rest 0 rest.length
        let cells ← insCells pe heap (reqsize / 2) ins
        let buffer ← copy buffer 0 cells 0 cells.length
        let heap ← (match ins with
          | .block b => heap.free b
          | _ => pure heap : Run Heap)
        let buffer ← collapsePath buffer mark
        let n ← wcslen buffer (buffer.length + 1) 0
        pure (n * 2, buffer, heap)

/-- `RtlGetFullPathName_UEx( name, size, buffer, NULL, NULL )`: the size returned in bytes and
the buffer. -/
def rtlGetFullPathNameUEx (pe : PathEnv) (name : List Nat) (size : Nat) (buffer : List Nat)
    (heap : Heap) : Run (Nat × List Nat × Heap) := do
  let c ← load name 0
  if c = 0 then pure (0, buffer, heap)
  else do
    let type ← rtlDetermineDosPathNameType name
    let dosdev := pe.dosDeviceName name
    if dosdev ≠ 0 then do
      let offset := dosdev / 0x10000 / 2
      let sz := dosdev % 0x10000
      if size < 8 + sz + 2 then pure (sz + 10, buffer, heap)
      else do
        let buffer ← copy buffer 0 ['\\'.toNat, '\\'.toNat, '.'.toNat, '\\'.toNat, 0] 0 5
        let dev ← slice name offset (sz / 2)
        let buffer ← copy buffer 4 dev 0 dev.length
        let buffer ← store buffer (4 + sz / 2) 0
        pure (sz + 8, buffer, heap)
    else do
      let (reqsize, buffer, heap) ← getFullPathHelper pe name buffer size type heap
      if reqsize = 0 then pure (0, buffer, heap)
      else if size < reqsize then do
        -- again, into a block of the size the first call asked for
        let (t, heap) := heap.alloc reqsize
        let tmp ← heap.cells t
        let (reqsize, tmp, heap) ← getFullPathHelper pe name tmp reqsize type heap
        let heap := heap.setCells t tmp
        if size < reqsize + 2 then do
          let heap ← heap.free t
          pure (reqsize + 2, buffer, heap)
        else do
          let buffer ← copy buffer 0 tmp 0 (reqsize / 2 + 1)
          let heap ← heap.free t
          pure (reqsize, buffer, heap)
      else pure (reqsize, buffer, heap)

/-! ## The heap -/

namespace Heap

variable {h : Heap} {b : Nat} {c : List Nat}

theorem cells_eq_ok : h.cells b = .ok c ↔ h.blocks[b]? = some (some c) := by
  unfold cells
  split
  · rename_i c' hc
    rw [hc]
    exact ⟨fun e => by cases e; rfl, fun e => by cases e; rfl⟩
  · rename_i hc
    constructor
    · intro e
      cases e
    · intro e
      exact absurd e (hc c)

theorem lt_of_cells (hb : h.cells b = .ok c) : b < h.blocks.length :=
  (List.getElem?_eq_some_iff.mp (cells_eq_ok.mp hb)).1

@[simp] theorem length_freshCells (n : Nat) : (h.freshCells n).length = n := by
  simp [freshCells]

@[simp] theorem cells_alloc (size : Nat) :
    (h.alloc size).2.cells h.blocks.length = .ok (h.freshCells (size / 2)) := by
  simp [alloc, cells_eq_ok]

theorem blocks_alloc_of_lt (size : Nat) {k : Nat} (hk : k < h.blocks.length) :
    (h.alloc size).2.blocks[k]? = h.blocks[k]? := by
  simp [alloc, List.getElem?_append_left hk]

@[simp] theorem live_alloc (size : Nat) : (h.alloc size).2.live = h.live + 1 := by
  simp [alloc, live]

theorem cells_setCells (hb : b < h.blocks.length) (c' : List Nat) :
    (h.setCells b c').cells b = .ok c' := by
  simp [setCells, cells_eq_ok, hb]

theorem setCells_self (hb : h.cells b = .ok c) : h.setCells b c = h := by
  obtain ⟨hlt, he⟩ := List.getElem?_eq_some_iff.mp (cells_eq_ok.mp hb)
  cases h
  simp only [setCells, ← he, List.set_getElem_self]

theorem live_set (hb : h.cells b = .ok c) (o : Option (List Nat)) :
    ({ h with blocks := h.blocks.set b o } : Heap).live + 1 = h.live + (if o.isSome then 1 else 0) := by
  obtain ⟨hlt, he⟩ := List.getElem?_eq_some_iff.mp (cells_eq_ok.mp hb)
  have hpos : 0 < h.blocks.countP Option.isSome :=
    List.countP_pos_iff.mpr ⟨_, List.getElem_mem hlt, by simp [he]⟩
  simp only [live, ← List.countP_eq_length_filter, List.countP_set hlt, he, Option.isSome_some,
    if_true]
  omega

theorem live_setCells (hb : h.cells b = .ok c) (c' : List Nat) : (h.setCells b c').live = h.live := by
  have := live_set hb (some c')
  simp only [Option.isSome_some, if_true] at this
  exact Nat.add_right_cancel this

theorem blocks_setCells_of_ne {k : Nat} (hk : k ≠ b) (c' : List Nat) :
    (h.setCells b c').blocks[k]? = h.blocks[k]? := by
  simp [setCells, List.getElem?_set_ne (Ne.symm hk)]

theorem write_of_lt (hb : h.cells b = .ok c) {i : Nat} (hi : i < c.length) (v : Nat) :
    h.write b i v = .ok (h.setCells b (c.set i v)) := by
  simp [write, hb, store_of_lt hi]

theorem write_of_le (hb : h.cells b = .ok c) {i : Nat} (hi : c.length ≤ i) (v : Nat) :
    h.write b i v = .error .outOfBounds := by
  simp [write, hb, store_eq_error hi]

theorem free_of_cells (hb : h.cells b = .ok c) :
    h.free b = .ok { h with blocks := h.blocks.set b none } := by
  simp [free, hb]

/-- `h'` keeps every block of `h` as it was: what a call leaves of its caller's blocks. -/
def Extends (h h' : Heap) : Prop :=
  h.blocks.length ≤ h'.blocks.length ∧ ∀ k < h.blocks.length, h'.blocks[k]? = h.blocks[k]?

theorem Extends.refl (h : Heap) : h.Extends h := ⟨le_rfl, fun _ _ => rfl⟩

theorem Extends.trans {h₁ h₂ h₃ : Heap} (h12 : h₁.Extends h₂) (h23 : h₂.Extends h₃) :
    h₁.Extends h₃ := by
  refine ⟨h12.1.trans h23.1, fun k hk => ?_⟩
  rw [h23.2 k (by have := h12.1; omega), h12.2 k hk]

theorem extends_alloc (size : Nat) : h.Extends (h.alloc size).2 := by
  refine ⟨by simp [alloc], fun k hk => blocks_alloc_of_lt size hk⟩

theorem Extends.set {h' : Heap} (he : h.Extends h') (hb : h.blocks.length ≤ b)
    (o : Option (List Nat)) : h.Extends { h' with blocks := h'.blocks.set b o } := by
  refine ⟨by simpa using he.1, fun k hk => ?_⟩
  rw [List.getElem?_set_ne (by omega), he.2 k hk]

theorem Extends.setCells {h' : Heap} (he : h.Extends h') (hb : h.blocks.length ≤ b)
    (c' : List Nat) : h.Extends (h'.setCells b c') :=
  he.set hb (some c')

theorem Extends.write {h' h'' : Heap} (he : h.Extends h') (hb : h.blocks.length ≤ b) {i v : Nat}
    (hw : h'.write b i v = .ok h'') : h.Extends h'' := by
  unfold Heap.write at hw
  obtain ⟨c', -, hw⟩ := bind_eq_ok.mp hw
  obtain ⟨c'', -, hw⟩ := bind_eq_ok.mp hw
  cases hw
  exact he.setCells hb c''

theorem Extends.free {h' h'' : Heap} (he : h.Extends h') (hb : h.blocks.length ≤ b)
    (hf : h'.free b = .ok h'') : h.Extends h'' := by
  unfold Heap.free at hf
  obtain ⟨c', hc, hf⟩ := bind_eq_ok.mp hf
  cases hf
  exact he.set hb none

end Heap

/-! ## Strings -/

section Strings

variable {l : List Nat}

theorem skipWhile_of_true {p : Nat → Bool} {i : Nat} (hi : i < l.length) (hp : p l[i] = true)
    (n : Nat) : skipWhile p l (n + 1) i = skipWhile p l n (i + 1) := by
  simp [skipWhile, load_of_lt hi, hp]

theorem skipWhile_of_false {p : Nat → Bool} {i : Nat} (hi : i < l.length) (hp : p l[i] = false)
    (n : Nat) : skipWhile p l (n + 1) i = .ok i := by
  simp [skipWhile, load_of_lt hi, hp]
  rfl

theorem wcslen_append_nul (post : List Nat) (hl : 0 ∉ l) :
    ∀ n i, i ≤ l.length → l.length - i < n → wcslen (l ++ 0 :: post) n i = .ok (l.length - i) := by
  intro n
  induction n with
  | zero =>
    intro i _ h
    omega
  | succ n ih =>
    intro i hi hn
    rcases Nat.lt_or_eq_of_le hi with hlt | rfl
    · have hc : load (l ++ 0 :: post) i = .ok l[i] := by
        rw [load_of_lt (by simp; omega), List.getElem_append_left hlt]
      have hne : l[i] ≠ 0 := fun h0 => hl (h0 ▸ List.getElem_mem hlt)
      rw [wcslen, hc, ok_bind, if_neg hne, ih (i + 1) hlt (by omega), ok_bind,
        show l.length - (i + 1) + 1 = l.length - i by omega]
      rfl
    · have hc : load (l ++ 0 :: post) l.length = .ok 0 := by
        rw [load_of_lt (by simp)]
        simp
      rw [wcslen, hc, ok_bind, if_pos rfl, Nat.sub_self]
      rfl

theorem wcslen_string (post : List Nat) (hl : 0 ∉ l) :
    wcslen (l ++ 0 :: post) ((l ++ 0 :: post).length + 1) 0 = .ok l.length := by
  simpa using wcslen_append_nul post hl ((l ++ 0 :: post).length + 1) 0 (by omega) (by simp)

end Strings

theorem wcslen_of_nul {path : List Nat} (h0 : path[0]? = some 0) (n : Nat) :
    wcslen path (n + 1) 0 = .ok 0 := by
  obtain ⟨hlt, h0⟩ := List.getElem?_eq_some_iff.mp h0
  rw [wcslen, load_of_lt hlt, h0, ok_bind, if_pos rfl]
  rfl

theorem collapsePath_of_nul {path : List Nat} {mark : Nat} (hmark : 1 ≤ mark)
    (h0 : path[0]? = some 0) (hm : path[mark]? = some 0) : collapsePath path mark = .ok path := by
  obtain ⟨hlt0, h0⟩ := List.getElem?_eq_some_iff.mp h0
  obtain ⟨hltm, hm⟩ := List.getElem?_eq_some_iff.mp hm
  have hset : path.set mark 0 = path := by
    rw [← hm, List.set_getElem_self]
  have htb : toBackslashes (path.length + 1) path 0 = .ok path := by
    rw [toBackslashes, load_of_lt hlt0, h0, ok_bind, if_pos rfl]
    rfl
  have hdd : dropDoubled (path.length + 1) path mark mark = .ok (path, mark) := by
    rw [dropDoubled, load_of_lt hltm, hm, ok_bind, if_pos rfl]
    rfl
  have hcomp : components mark (path.length + 1) path mark = .ok (path, mark) := by
    rw [components, load_of_lt hltm, hm, ok_bind, if_pos rfl]
    rfl
  have hback : backOverDots mark path mark = .ok mark := by
    obtain ⟨k, rfl⟩ : ∃ k, mark = k + 1 := ⟨mark - 1, by omega⟩
    rw [backOverDots, if_neg (Nat.lt_irrefl _)]
    rfl
  rw [collapsePath, htb, ok_bind, Nat.max_eq_right hmark, hdd, ok_bind]
  dsimp only
  rw [store_of_lt hltm, hset, ok_bind, hcomp, ok_bind]
  dsimp only
  rw [hback, ok_bind, store_of_lt hltm, hset]


/-! ## The helper touches only the blocks it allocates -/

section Frame

variable (pe : PathEnv)

theorem rtlQueryEnvironmentVariable_heap (name : List Nat) (namelen maxLength : Nat)
    (heap : Heap) (b : Nat) :
    Ensures (rtlQueryEnvironmentVariable pe name namelen maxLength heap b)
      (fun res => res.2.2 = heap ∨ ∃ c, res.2.2 = heap.setCells b c) := by
  unfold rtlQueryEnvironmentVariable
  split
  · exact Ensures.pure (.inl rfl)
  · apply Ensures.bind_of_forall
    rintro (_ | j)
    · exact Ensures.pure (.inl rfl)
    · apply Ensures.bind_of_forall
      intro n
      dsimp only
      split
      · apply Ensures.bind_of_forall
        intro src
        apply Ensures.bind_of_forall
        intro cells
        apply Ensures.bind_of_forall
        intro cells'
        exact Ensures.pure (.inr ⟨cells', rfl⟩)
      · exact Ensures.pure (.inl rfl)

/-- What a prefix leaves of the caller's heap: its blocks, and an `ins_str` block, if any, past
them. -/
def PrefixFrame (heap : Heap) (res : Prefix × Heap) : Prop :=
  heap.Extends res.2 ∧ ∀ reqsize b mark dep, res.1 = .insert reqsize (.block b) mark dep →
    heap.blocks.length ≤ b

theorem prefixFrame_of_heap {heap : Heap} {p : Prefix}
    (hp : ∀ reqsize b mark dep, p ≠ .insert reqsize (.block b) mark dep) :
    PrefixFrame heap (p, heap) :=
  ⟨.refl heap, fun reqsize b mark dep e => absurd e (hp reqsize b mark dep)⟩

theorem driveRelativePrefix_extends (name : List Nat) (size : Nat) (heap : Heap) :
    Ensures (driveRelativePrefix pe name size heap) (PrefixFrame heap) := by
  intro res h
  unfold driveRelativePrefix at h
  obtain ⟨x, -, h⟩ := bind_eq_ok.mp h
  dsimp only [Heap.alloc] at h
  obtain ⟨⟨status, length, heap₁⟩, hq, h⟩ := bind_eq_ok.mp h
  have hq' := rtlQueryEnvironmentVariable_heap pe _ _ _ _ _ _ hq
  dsimp only at hq' h
  have he₁ : heap.Extends heap₁ := by
    rcases hq' with rfl | ⟨c, rfl⟩
    · exact Heap.extends_alloc size
    · exact (Heap.extends_alloc size).setCells le_rfl c
  split at h
  · obtain ⟨heap₂, hw, h⟩ := bind_eq_ok.mp h
    cases h
    refine ⟨he₁.write le_rfl hw, ?_⟩
    rintro reqsize b mark dep ⟨⟩
    exact le_rfl
  · obtain ⟨heap₂, hw, h⟩ := bind_eq_ok.mp h
    cases h
    refine ⟨he₁.write le_rfl hw, ?_⟩
    rintro reqsize b mark dep ⟨⟩
    exact le_rfl
  · obtain ⟨heap₂, hf, h⟩ := bind_eq_ok.mp h
    cases h
    refine ⟨he₁.free le_rfl hf, ?_⟩
    rintro reqsize b mark dep ⟨⟩
  · obtain ⟨heap₂, hf, h⟩ := bind_eq_ok.mp h
    cases h
    refine ⟨he₁.free le_rfl hf, ?_⟩
    rintro reqsize b mark dep ⟨⟩

theorem relativePrefix_cd (dep : Nat) :
    Ensures (relativePrefix pe dep) (fun p => ∃ reqsize mark, p = .insert reqsize .cd mark dep) := by
  unfold relativePrefix
  apply Ensures.bind_of_forall
  intro c1
  split
  · apply Ensures.bind_of_forall
    intro mark
    exact Ensures.pure ⟨_, _, rfl⟩
  · exact Ensures.pure ⟨_, _, rfl⟩

theorem pathPrefix_extends (name buffer : List Nat) (size : Nat) (heap : Heap) (type : PathType) :
    Ensures (pathPrefix pe name buffer size heap type) (PrefixFrame heap) := by
  have hrel : ∀ dep, Ensures (do
      let p ← relativePrefix pe dep
      pure (p, heap)) (PrefixFrame heap) := by
    intro dep
    refine Ensures.bind (relativePrefix_cd pe dep) ?_
    rintro p ⟨reqsize, mark, rfl⟩
    exact Ensures.pure (prefixFrame_of_heap (by rintro _ _ _ _ ⟨⟩))
  cases type with
  | unknown => exact Ensures.pure (prefixFrame_of_heap (by rintro _ _ _ _ ⟨⟩))
  | uncAbsolute =>
    apply Ensures.bind_of_forall
    intro mark
    exact Ensures.pure (prefixFrame_of_heap (by rintro _ _ _ _ ⟨⟩))
  | driveAbsolute =>
    apply Ensures.bind_of_forall
    intro x
    exact Ensures.pure (prefixFrame_of_heap (by rintro _ _ _ _ ⟨⟩))
  | driveRelative =>
    apply Ensures.bind_of_forall
    intro differs
    split
    · exact driveRelativePrefix_extends pe name size heap
    · exact hrel 2
  | rooted =>
    apply Ensures.bind_of_forall
    intro c
    split
    · exact Ensures.pure (prefixFrame_of_heap (by rintro _ _ _ _ ⟨⟩))
    · apply Ensures.bind_of_forall
      intro c1
      split
      · apply Ensures.bind_of_forall
        intro c0
        exact Ensures.pure (prefixFrame_of_heap (by rintro _ _ _ _ ⟨⟩))
      · apply Ensures.bind_of_forall
        intro mark
        exact Ensures.pure (prefixFrame_of_heap (by rintro _ _ _ _ ⟨⟩))
  | relative => exact hrel 0
  | localDevice =>
    apply Ensures.bind_of_forall
    intro differs
    apply Ensures.bind_of_forall
    intro unix
    split
    · exact Ensures.pure (prefixFrame_of_heap (by rintro _ _ _ _ ⟨⟩))
    · exact Ensures.pure (prefixFrame_of_heap (by rintro _ _ _ _ ⟨⟩))
  | rootLocalDevice => exact Ensures.pure (prefixFrame_of_heap (by rintro _ _ _ _ ⟨⟩))

/-- `get_full_path_helper` leaves every block of its caller as it was. -/
theorem getFullPathHelper_extends (name buffer : List Nat) (size : Nat) (type : PathType)
    (heap : Heap) :
    Ensures (getFullPathHelper pe name buffer size type heap) (fun res => heap.Extends res.2.2) := by
  unfold getFullPathHelper
  apply Ensures.bind_of_forall
  intro i
  apply Ensures.bind_of_forall
  intro c
  split
  · exact Ensures.pure (.refl heap)
  · refine Ensures.bind (pathPrefix_extends pe name buffer size heap type) ?_
    rintro ⟨p, heap₁⟩ ⟨he₁, hblk⟩
    dsimp only at he₁ hblk
    cases p with
    | done buffer reqsize => exact Ensures.pure he₁
    | insert reqsize ins mark dep =>
      apply Ensures.bind_of_forall
      intro deplen
      dsimp only
      split
      · exact Ensures.pure he₁
      · apply Ensures.bind_of_forall
        intro rest
        apply Ensures.bind_of_forall
        intro buffer
        apply Ensures.bind_of_forall
        intro cells
        apply Ensures.bind_of_forall
        intro buffer
        refine Ensures.bind (P := fun heap₂ => heap.Extends heap₂) ?_ ?_
        · cases ins with
          | block b =>
            intro heap₂ hf
            exact he₁.free (hblk _ _ _ _ rfl) hf
          | none => exact Ensures.pure he₁
          | tmp cells => exact Ensures.pure he₁
          | cd => exact Ensures.pure he₁
        · intro heap₂ he₂
          apply Ensures.bind_of_forall
          intro buffer
          apply Ensures.bind_of_forall
          intro n
          exact Ensures.pure he₂

end Frame

/-! ## The per-drive variable

The environment starts with the variable `=Y:` whose value is `v`, and the name looked up is
`=X:` with `X` and `Y` equal up to case. -/

section Lookup

variable {pe : PathEnv} {x y : Nat} {v post : List Nat}
  (henv : pe.environment = '='.toNat :: y :: ':'.toNat :: '='.toNat :: (v ++ 0 :: post))
  (hv : 0 ∉ v) (hy0 : y ≠ 0) (hy : y ≠ '='.toNat) (hup : pe.upcase y = pe.upcase x)

include henv hv hy0 hy hup in
theorem envFindVariable_first (n : Nat) :
    envFindVariable pe ['='.toNat, x, ':'.toNat, 0] 3 (n + 1) 0 = .ok (some 4) := by
  have hl : 0 ∉ '='.toNat :: y :: ':'.toNat :: '='.toNat :: v := by
    simp [hv, Ne.symm hy0]
  have hlen : wcslen pe.environment (pe.environment.length + 1) 0 = .ok (v.length + 4) := by
    have := wcslen_string post hl
    rw [henv]
    simpa using this
  have hsame : equalUpcase pe.upcase pe.environment ['='.toNat, x, ':'.toNat, 0] 3 0 0 =
      .ok true := by
    rw [henv]
    simp [equalUpcase, load, hup]
    rfl
  have hchr : wcschr pe.environment '='.toNat (pe.environment.length + 1) 1 = .ok (some 3) := by
    have hy61 : y ≠ 61 := hy
    rw [henv]
    simp [wcschr, load, hy61, hy0]
    rfl
  have h0 : load pe.environment 0 = .ok '='.toNat := by
    rw [henv]
    rfl
  have h3 : load pe.environment 3 = .ok '='.toNat := by
    rw [henv]
    rfl
  rw [envFindVariable, h0, ok_bind, if_neg (by decide), hlen, ok_bind, if_pos (by omega), h3,
    ok_bind, if_neg (by simp), hsame, ok_bind]
  simp only [Char.reduceToNat] at hchr
  simp [hchr]
  rfl

include henv hv hy0 in
theorem wcslen_value : wcslen pe.environment (pe.environment.length + 1) 4 = .ok v.length := by
  have hl : 0 ∉ '='.toNat :: y :: ':'.toNat :: '='.toNat :: v := by
    simp [hv, Ne.symm hy0]
  have := wcslen_append_nul post hl (pe.environment.length + 1) 4 (by simp)
    (by rw [henv]; simp; omega)
  rw [henv] at this ⊢
  simpa using this

include henv hv hy0 hy hup in
theorem rtlQueryEnvironmentVariable_too_small {maxLength : Nat} (heap : Heap) (b : Nat)
    (hmax : maxLength < v.length * 2 % 0x10000) :
    rtlQueryEnvironmentVariable pe ['='.toNat, x, ':'.toNat, 0] 3 maxLength heap b =
      .ok (.bufferTooSmall, v.length * 2 % 0x10000, heap) := by
  rw [rtlQueryEnvironmentVariable, if_neg (by decide),
    envFindVariable_first henv hv hy0 hy hup pe.environment.length, ok_bind]
  simp only [wcslen_value henv hv hy0, ok_bind]
  rw [if_neg (by omega)]
  rfl

include henv hv hy0 hy hup in
theorem rtlQueryEnvironmentVariable_first {maxLength : Nat} {heap : Heap} {b : Nat}
    {c : List Nat} (hb : heap.cells b = .ok c) (hmax : maxLength / 2 ≤ c.length) :
    ∃ st c', (st = .success ∨ st = .bufferTooSmall) ∧ c'.length = c.length ∧
      rtlQueryEnvironmentVariable pe ['='.toNat, x, ':'.toNat, 0] 3 maxLength heap b =
        .ok (st, v.length * 2 % 0x10000, heap.setCells b c') := by
  rw [rtlQueryEnvironmentVariable, if_neg (by decide),
    envFindVariable_first henv hv hy0 hy hup pe.environment.length, ok_bind]
  simp only [wcslen_value henv hv hy0, ok_bind]
  by_cases hfit : v.length * 2 % 0x10000 ≤ maxLength
  · have hL : v.length * 2 % 0x10000 ≤ v.length * 2 := Nat.mod_le _ _
    have hk1 : min (v.length * 2 % 0x10000 + 2) maxLength / 2 ≤ v.length + 1 := by
      have := Nat.min_le_left (v.length * 2 % 0x10000 + 2) maxLength
      omega
    have hk2 : min (v.length * 2 % 0x10000 + 2) maxLength / 2 ≤ c.length := by
      have := Nat.min_le_right (v.length * 2 % 0x10000 + 2) maxLength
      omega
    have hsl : 4 + min (v.length * 2 % 0x10000 + 2) maxLength / 2 ≤ pe.environment.length := by
      rw [henv]
      simp
      omega
    have hcopy : Returns (copy c 0 ((pe.environment.drop 4).take
        (min (v.length * 2 % 0x10000 + 2) maxLength / 2)) 0
        (min (v.length * 2 % 0x10000 + 2) maxLength / 2)) (fun d => d.length = c.length) :=
      returns_copy (by simp; omega) (by simpa using hk2) (fun _ h => h)
    obtain ⟨c', hc', hlen⟩ := hcopy
    refine ⟨.success, c', .inl rfl, hlen, ?_⟩
    rw [if_pos hfit]
    simp [slice, hsl, hb, hc']
  · refine ⟨.bufferTooSmall, c, .inr rfl, rfl, ?_⟩
    rw [if_neg hfit, Heap.setCells_self hb]
    rfl

include henv hv hy0 hy hup in
theorem driveRelativePrefix_first {name : List Nat} (hx : name[0]? = some x) (size : Nat)
    (heap : Heap) :
    ∃ c, c.length = size / 2 ∧
      driveRelativePrefix pe name size heap = (do
        let heap' ← ((heap.alloc size).2.setCells heap.blocks.length c).write heap.blocks.length
          (v.length * 2 % 0x10000 / 2) '\\'.toNat
        pure (Prefix.insert (v.length * 2 % 0x10000 + 2) (.block heap.blocks.length) 3 2,
          heap')) := by
  obtain ⟨hlt, hx'⟩ := List.getElem?_eq_some_iff.mp hx
  have hload : load name 0 = .ok x := by
    rw [load_of_lt hlt, hx']
  obtain ⟨st, c, hst, hlen, hq⟩ := rtlQueryEnvironmentVariable_first henv hv hy0 hy hup
    (Heap.cells_alloc size)
    (show size % 0x10000 / 2 ≤ (heap.freshCells (size / 2)).length by simp; omega)
  refine ⟨c, by simpa using hlen, ?_⟩
  rw [driveRelativePrefix, hload, ok_bind]
  dsimp only [Heap.alloc] at hq ⊢
  rw [hq, ok_bind]
  rcases hst with rfl | rfl <;> rfl

include henv hv hy0 hy hup in
theorem driveRelativePrefix_too_small {name : List Nat} (hx : name[0]? = some x) {size : Nat}
    (heap : Heap) (hmax : size % 0x10000 < v.length * 2 % 0x10000)
    (hin : v.length * 2 % 0x10000 / 2 < size / 2) :
    driveRelativePrefix pe name size heap =
      .ok (.insert (v.length * 2 % 0x10000 + 2) (.block heap.blocks.length) 3 2,
        (heap.alloc size).2.setCells heap.blocks.length
          ((heap.freshCells (size / 2)).set (v.length * 2 % 0x10000 / 2) '\\'.toNat)) := by
  obtain ⟨hlt, hx'⟩ := List.getElem?_eq_some_iff.mp hx
  have hload : load name 0 = .ok x := by
    rw [load_of_lt hlt, hx']
  have hw := Heap.write_of_lt (Heap.cells_alloc (h := heap) size)
    (show v.length * 2 % 0x10000 / 2 < (heap.freshCells (size / 2)).length by simpa using hin)
    '\\'.toNat
  rw [driveRelativePrefix, hload, ok_bind]
  dsimp only [Heap.alloc] at hw ⊢
  rw [rtlQueryEnvironmentVariable_too_small henv hv hy0 hy hup _ _ hmax, ok_bind]
  dsimp only
  rw [hw]
  rfl

end Lookup

section DriveRelative

variable {pe : PathEnv} {x y : Nat} {v post : List Nat}
  (henv : pe.environment = '='.toNat :: y :: ':'.toNat :: '='.toNat :: (v ++ 0 :: post))
  (hv : 0 ∉ v) (hy0 : y ≠ 0) (hy : y ≠ '='.toNat) (hup : pe.upcase y = pe.upcase x)

include henv hv hy0 hy hup in
theorem driveRelativePrefix_faults {name : List Nat} (hx : name[0]? = some x) {size : Nat}
    (heap : Heap) (hlong : size / 2 ≤ v.length * 2 % 0x10000 / 2) :
    driveRelativePrefix pe name size heap = .error .outOfBounds := by
  obtain ⟨c, hlen, hp⟩ := driveRelativePrefix_first henv hv hy0 hy hup hx size heap
  have hb : ((heap.alloc size).2.setCells heap.blocks.length c).cells heap.blocks.length =
      .ok c := Heap.cells_setCells (by simp [Heap.alloc]) c
  rw [hp, Heap.write_of_le hb (by omega)]
  rfl

include henv hv hy0 hy hup in
theorem driveRelativePrefix_fits {name : List Nat} (hx : name[0]? = some x) {size : Nat}
    (heap : Heap) (hshort : v.length * 2 % 0x10000 / 2 < size / 2) :
    ∃ heap', driveRelativePrefix pe name size heap =
        .ok (.insert (v.length * 2 % 0x10000 + 2) (.block heap.blocks.length) 3 2, heap') ∧
      heap'.live = heap.live + 1 ∧ heap.Extends heap' ∧
      ∃ c, heap'.cells heap.blocks.length = .ok c := by
  obtain ⟨c, hlen, hp⟩ := driveRelativePrefix_first henv hv hy0 hy hup hx size heap
  have hlt : heap.blocks.length < (heap.alloc size).2.blocks.length := by
    simp [Heap.alloc]
  have hb : ((heap.alloc size).2.setCells heap.blocks.length c).cells heap.blocks.length =
      .ok c := Heap.cells_setCells hlt c
  let c' := c.set (v.length * 2 % 0x10000 / 2) '\\'.toNat
  refine ⟨((heap.alloc size).2.setCells heap.blocks.length c).setCells heap.blocks.length c', ?_,
    ?_, ?_, c', ?_⟩
  · rw [hp, Heap.write_of_lt hb (by omega)]
    rfl
  · rw [Heap.live_setCells hb, Heap.live_setCells (Heap.cells_alloc size), Heap.live_alloc]
  · exact ((Heap.extends_alloc size).setCells le_rfl c).setCells le_rfl c'
  · exact Heap.cells_setCells (by simpa [Heap.setCells] using hlt) c'

/-! A drive-relative name `X:rest` on a drive other than the current directory's. -/

variable {name r : List Nat} (hname : name = x :: ':'.toNat :: (r ++ [0])) (hx0 : x ≠ 0)
  (hxs : isSeparator x = false) (hr0 : 0 ∉ r) (hrs : ∀ c ∈ r.head?, isSeparator c = false)
  {c0 : Nat} {cdRest : List Nat} (hcd : pe.cd = c0 :: cdRest) (hdiff : asciiLower x ≠ asciiLower c0)

include hname hx0 hxs hrs in
theorem rtlDetermineDosPathNameType_drive :
    rtlDetermineDosPathNameType name = .ok .driveRelative := by
  subst hname
  cases r with
  | nil => simp [rtlDetermineDosPathNameType, load, hxs, hx0, show isSeparator 0 = false from rfl]
  | cons c r => simp [rtlDetermineDosPathNameType, load, hxs, hx0, hrs c rfl]

include hname hx0 in
theorem skipSpaces_drive :
    ∃ i c, skipWhile (fun c => c = ' '.toNat) name (name.length + 1) 0 = .ok i ∧
      load name i = .ok c ∧ c ≠ 0 := by
  subst hname
  by_cases hsp : x = 32
  · refine ⟨1, ':'.toNat, ?_, rfl, by decide⟩
    simp [skipWhile, load, hsp]
    rfl
  · refine ⟨0, x, ?_, rfl, hx0⟩
    simp [skipWhile, load, hsp]
    rfl

include hname hcd hdiff in
theorem pathPrefix_drive (buffer : List Nat) (size : Nat) (heap : Heap) :
    pathPrefix pe name buffer size heap .driveRelative = driveRelativePrefix pe name size heap := by
  subst hname
  simp [pathPrefix, wcsnicmpDiffers, load, hcd, hdiff]

include henv hv hy0 hy hup hname hx0 hcd hdiff in
theorem getFullPathHelper_drive_faults (buffer : List Nat) {size : Nat} (heap : Heap)
    (hlong : size / 2 ≤ v.length * 2 % 0x10000 / 2) :
    getFullPathHelper pe name buffer size .driveRelative heap = .error .outOfBounds := by
  obtain ⟨i, c, hskip, hc, hc0⟩ := skipSpaces_drive hname hx0
  have hx : name[0]? = some x := by
    rw [hname]
    rfl
  rw [getFullPathHelper, hskip, ok_bind, hc, ok_bind, if_neg hc0, pathPrefix_drive hname hcd hdiff,
    driveRelativePrefix_faults henv hv hy0 hy hup hx heap hlong]
  rfl

include henv hv hy0 hy hup hname hx0 hr0 hcd hdiff in
theorem getFullPathHelper_drive_leaks (buffer : List Nat) {size : Nat} (heap : Heap)
    (hshort : v.length * 2 % 0x10000 / 2 < size / 2)
    (hspace : size < v.length * 2 % 0x10000 + 2 + r.length * 2 + 2) :
    ∃ heap', getFullPathHelper pe name buffer size .driveRelative heap =
        .ok (v.length * 2 % 0x10000 + 2 + r.length * 2 + 2, buffer, heap') ∧
      heap'.live = heap.live + 1 ∧ heap.Extends heap' ∧
      ∃ c, heap'.cells heap.blocks.length = .ok c := by
  obtain ⟨i, c, hskip, hc, hc0⟩ := skipSpaces_drive hname hx0
  have hx : name[0]? = some x := by
    rw [hname]
    rfl
  obtain ⟨heap', hp, hlive, hext, hcell⟩ :=
    driveRelativePrefix_fits henv hv hy0 hy hup hx heap hshort
  have hdep : wcslen name (name.length + 1) 2 = .ok r.length := by
    have := wcslen_append_nul [] (l := x :: ':'.toNat :: r) (by simp [hr0, Ne.symm hx0])
      (name.length + 1) 2 (by simp) (by rw [hname]; simp; omega)
    rw [hname] at this ⊢
    simpa using this
  refine ⟨heap', ?_, hlive, hext, hcell⟩
  rw [getFullPathHelper, hskip, ok_bind, hc, ok_bind, if_neg hc0, pathPrefix_drive hname hcd hdiff,
    hp, ok_bind]
  dsimp only
  rw [hdep, ok_bind, if_pos hspace]
  rfl

include henv hv hy0 hy hup hname hx0 hxs hrs hcd hdiff in
theorem rtlGetFullPathNameUEx_drive_faults (hdos : pe.dosDeviceName name = 0)
    (buffer : List Nat) {size : Nat} (heap : Heap)
    (hlong : size / 2 ≤ v.length * 2 % 0x10000 / 2) :
    rtlGetFullPathNameUEx pe name size buffer heap = .error .outOfBounds := by
  have h0 : load name 0 = .ok x := by
    rw [hname]
    rfl
  rw [rtlGetFullPathNameUEx, h0, ok_bind, if_neg hx0,
    rtlDetermineDosPathNameType_drive hname hx0 hxs hrs, ok_bind]
  simp only [hdos, ne_eq, not_true_eq_false, if_false]
  rw [getFullPathHelper_drive_faults henv hv hy0 hy hup hname hx0 hcd hdiff buffer heap hlong]
  rfl

include henv hv hy0 hy hup hname hx0 hxs hr0 hrs hcd hdiff in
/-- When the first call to the helper returns for want of room, the block it allocated is
still live when `RtlGetFullPathName_UEx` returns: the second call and the temporary buffer lie
past it, and nothing frees it. -/
theorem rtlGetFullPathNameUEx_drive_leaks (hdos : pe.dosDeviceName name = 0)
    (buffer : List Nat) {size : Nat} (heap : Heap)
    (hshort : v.length * 2 % 0x10000 / 2 < size / 2)
    (hspace : size < v.length * 2 % 0x10000 + 2 + r.length * 2 + 2) :
    Ensures (rtlGetFullPathNameUEx pe name size buffer heap)
      (fun res => ∃ c, res.2.2.blocks[heap.blocks.length]? = some (some c)) := by
  obtain ⟨heap', hhelp, -, -, c, hc⟩ :=
    getFullPathHelper_drive_leaks henv hv hy0 hy hup hname hx0 hr0 hcd hdiff buffer heap hshort
      hspace
  have h0 : load name 0 = .ok x := by
    rw [hname]
    rfl
  have hlt : heap.blocks.length < heap'.blocks.length := Heap.lt_of_cells hc
  -- any heap that keeps the blocks of the first call's heap keeps the leaked one
  have hkeep : ∀ h'' : Heap, heap'.Extends h'' →
      ∃ c, h''.blocks[heap.blocks.length]? = some (some c) := by
    intro h'' he
    refine ⟨c, ?_⟩
    rw [he.2 _ hlt]
    exact Heap.cells_eq_ok.mp hc
  rw [rtlGetFullPathNameUEx, h0, ok_bind, if_neg hx0,
    rtlDetermineDosPathNameType_drive hname hx0 hxs hrs, ok_bind]
  simp only [hdos, ne_eq, not_true_eq_false, if_false]
  rw [hhelp, ok_bind]
  dsimp only [Heap.alloc]
  rw [if_neg (by omega), if_pos hspace]
  apply Ensures.bind_of_forall
  intro tmp
  refine Ensures.bind (getFullPathHelper_extends pe name tmp _ .driveRelative _) ?_
  rintro ⟨reqsize₂, tmp₂, heap₃⟩ he₃
  dsimp only at he₃ ⊢
  have he : heap'.Extends (heap₃.setCells heap'.blocks.length tmp₂) :=
    ((Heap.extends_alloc _).trans he₃).setCells le_rfl tmp₂
  split
  · intro res h
    obtain ⟨heap₄, hf, h⟩ := bind_eq_ok.mp h
    cases h
    exact hkeep _ (he.free le_rfl hf)
  · apply Ensures.bind_of_forall
    intro buffer' res h
    obtain ⟨heap₄, hf, h⟩ := bind_eq_ok.mp h
    cases h
    exact hkeep _ (he.free le_rfl hf)

include henv hv hy0 hy hup hname hx0 hr0 hcd hdiff in
/-- With `size` cut below the value's length, the block the helper copies in front of the rest
of the name holds nothing of the value; handed out zeroed, it makes the path returned empty. -/
theorem getFullPathHelper_drive_truncated (buffer : List Nat) {size : Nat} (heap : Heap)
    (hfresh : ∀ i, heap.fresh heap.blocks.length i = 0)
    (hmax : size % 0x10000 < v.length * 2 % 0x10000) (hv4 : 4 ≤ v.length * 2 % 0x10000 / 2)
    (hspace : v.length * 2 % 0x10000 + 2 + r.length * 2 + 2 ≤ size)
    (hbuf : size / 2 ≤ buffer.length) :
    ∃ buffer' heap', getFullPathHelper pe name buffer size .driveRelative heap =
      .ok (0, buffer', heap') := by
  obtain ⟨i, c, hskip, hc, hc0⟩ := skipSpaces_drive hname hx0
  have hx : name[0]? = some x := by
    rw [hname]
    rfl
  have hdep : wcslen name (name.length + 1) 2 = .ok r.length := by
    have := wcslen_append_nul [] (l := x :: ':'.toNat :: r) (by simp [hr0, Ne.symm hx0])
      (name.length + 1) 2 (by simp) (by rw [hname]; simp; omega)
    rw [hname] at this ⊢
    simpa using this
  rw [getFullPathHelper, hskip, ok_bind, hc, ok_bind, if_neg hc0, pathPrefix_drive hname hcd hdiff,
    driveRelativePrefix_too_small henv hv hy0 hy hup hx heap hmax (by omega), ok_bind]
  dsimp only
  rw [hdep, ok_bind, if_neg (by omega)]
  generalize hL : v.length * 2 % 0x10000 = L at *
  have hLeven : L % 2 = 0 := by omega
  let cells := (heap.freshCells (size / 2)).set (L / 2) '\\'.toNat
  let heap₁ := (heap.alloc size).2.setCells heap.blocks.length cells
  have hrest : slice name 2 (r.length * 2 / 2 + 1) = .ok (r ++ [0]) := by
    rw [hname, slice, if_pos (by simp; omega)]
    simp
  have hcopy₁ : Returns (copy buffer ((L + 2) / 2) (r ++ [0]) 0 (r ++ [0]).length)
      (fun B => B.length = buffer.length) :=
    returns_copy (by simp) (by simp; omega) (fun _ h => h)
  obtain ⟨B₁, hB₁, hlen₁⟩ := hcopy₁
  have hins : insCells pe heap₁ ((L + 2) / 2) (.block heap.blocks.length) =
      .ok ((cells.drop 0).take ((L + 2) / 2)) := by
    have hb : heap₁.cells heap.blocks.length = .ok cells :=
      Heap.cells_setCells (by simp [Heap.alloc]) cells
    rw [insCells, hb, ok_bind, slice, if_pos (by simp [cells]; omega)]
  have hzero : ∀ j, j < L / 2 → ((cells.drop 0).take ((L + 2) / 2))[j]? = some 0 := by
    intro j hj
    have hjs : j < size / 2 := by omega
    simp [cells, Heap.freshCells, hjs, show L / 2 ≠ j by omega, hj.le, hfresh]
  have hcopy₂ : Returns (copy B₁ 0 ((cells.drop 0).take ((L + 2) / 2)) 0
      ((cells.drop 0).take ((L + 2) / 2)).length) (fun B => B.length = B₁.length) :=
    returns_copy (by simp) (by simp [cells]; omega) (fun _ h => h)
  obtain ⟨B₂, hB₂, -⟩ := hcopy₂
  have hB₂0 : B₂[0]? = some 0 := by
    rw [getElem?_copy hB₂ le_rfl (by simp [cells]; omega)]
    exact hzero 0 (by omega)
  have hB₂3 : B₂[3]? = some 0 := by
    rw [getElem?_copy hB₂ (Nat.zero_le _) (by simp [cells]; omega)]
    exact hzero 3 (by omega)
  have hfree := Heap.free_of_cells (h := heap₁)
    (Heap.cells_setCells (by simp [Heap.alloc]) cells)
  refine ⟨B₂, { heap₁ with blocks := heap₁.blocks.set heap.blocks.length none }, ?_⟩
  rw [hrest, ok_bind, hB₁, ok_bind, hins, ok_bind, hB₂, ok_bind, hfree, ok_bind,
    collapsePath_of_nul (by omega) hB₂0 hB₂3, ok_bind, wcslen_of_nul hB₂0, ok_bind]
  rfl

include henv hv hy0 hy hup hname hx0 hxs hr0 hrs hcd hdiff in
theorem rtlGetFullPathNameUEx_drive_truncated (hdos : pe.dosDeviceName name = 0)
    (buffer : List Nat) {size : Nat} (heap : Heap) (hfresh : ∀ i, heap.fresh heap.blocks.length i = 0)
    (hmax : size % 0x10000 < v.length * 2 % 0x10000) (hv4 : 4 ≤ v.length * 2 % 0x10000 / 2)
    (hspace : v.length * 2 % 0x10000 + 2 + r.length * 2 + 2 ≤ size)
    (hbuf : size / 2 ≤ buffer.length) :
    ∃ buffer' heap', rtlGetFullPathNameUEx pe name size buffer heap = .ok (0, buffer', heap') := by
  obtain ⟨buffer', heap', hhelp⟩ := getFullPathHelper_drive_truncated henv hv hy0 hy hup hname
    hx0 hr0 hcd hdiff buffer heap hfresh hmax hv4 hspace hbuf
  have h0 : load name 0 = .ok x := by
    rw [hname]
    rfl
  refine ⟨buffer', heap', ?_⟩
  rw [rtlGetFullPathNameUEx, h0, ok_bind, if_neg hx0,
    rtlDetermineDosPathNameType_drive hname hx0 hxs hrs, ok_bind]
  simp only [hdos, ne_eq, not_true_eq_false, if_false]
  rw [hhelp, ok_bind]
  rfl

end DriveRelative

/-- The drive-relative branch on another drive, with the variable `=Y:` for the drive first in
the environment: a value of `size / 2` characters or more puts the trailing backslash past the
block allocated for it, and a shorter one whose path does not fit in `size` leaves that block
allocated when `RtlGetFullPathName_UEx` returns. -/
theorem rtlGetFullPathNameUEx_drive_relative_unsafe (pe : PathEnv) (x y : Nat)
    (v post r : List Nat) (c0 : Nat) (cdRest : List Nat)
    (henv : pe.environment = '='.toNat :: y :: ':'.toNat :: '='.toNat :: (v ++ 0 :: post))
    (hv : 0 ∉ v) (hy0 : y ≠ 0) (hy : y ≠ '='.toNat) (hup : pe.upcase y = pe.upcase x)
    (hx0 : x ≠ 0) (hxs : isSeparator x = false) (hr0 : 0 ∉ r)
    (hrs : ∀ c ∈ r.head?, isSeparator c = false) (hcd : pe.cd = c0 :: cdRest)
    (hdiff : asciiLower x ≠ asciiLower c0)
    (hdos : pe.dosDeviceName (x :: ':'.toNat :: (r ++ [0])) = 0) :
    (∀ size buffer heap, size / 2 ≤ v.length * 2 % 0x10000 / 2 →
      rtlGetFullPathNameUEx pe (x :: ':'.toNat :: (r ++ [0])) size buffer heap =
        .error .outOfBounds) ∧
    (∀ size buffer heap, v.length * 2 % 0x10000 / 2 < size / 2 →
      size < v.length * 2 % 0x10000 + 2 + r.length * 2 + 2 →
      (∃ heap', getFullPathHelper pe (x :: ':'.toNat :: (r ++ [0])) buffer size .driveRelative
          heap = .ok (v.length * 2 % 0x10000 + 2 + r.length * 2 + 2, buffer, heap') ∧
        heap'.live = heap.live + 1) ∧
      Ensures (rtlGetFullPathNameUEx pe (x :: ':'.toNat :: (r ++ [0])) size buffer heap)
        (fun res => ∃ c, res.2.2.blocks[heap.blocks.length]? = some (some c))) := by
  constructor
  · intro size buffer heap hlong
    exact rtlGetFullPathNameUEx_drive_faults henv hv hy0 hy hup rfl hx0 hxs hrs hcd hdiff hdos
      buffer heap hlong
  · intro size buffer heap hshort hspace
    obtain ⟨heap', hhelp, hlive, -⟩ :=
      getFullPathHelper_drive_leaks henv hv hy0 hy hup rfl hx0 hr0 hcd hdiff buffer heap hshort
        hspace
    exact ⟨⟨heap', hhelp, hlive⟩, rtlGetFullPathNameUEx_drive_leaks henv hv hy0 hy hup rfl hx0
      hxs hr0 hrs hcd hdiff hdos buffer heap hshort hspace⟩

/-- The drive-relative branch on another drive, with the variable `=Y:` first in the
environment and a value of 4 to 32767 characters. `val.MaximumLength` keeps the low 16 bits of
`size`; when they are below the value's length in bytes, the query fails and the helper builds
the path from the block it allocated, which holds none of the value. For every such `size`
with room for the path, and a block handed out zeroed, the call returns 0 for this
drive-relative name. -/
theorem rtlGetFullPathNameUEx_size_truncated (pe : PathEnv) (x y : Nat)
    (v post r : List Nat) (c0 : Nat) (cdRest : List Nat)
    (henv : pe.environment = '='.toNat :: y :: ':'.toNat :: '='.toNat :: (v ++ 0 :: post))
    (hv : 0 ∉ v) (hy0 : y ≠ 0) (hy : y ≠ '='.toNat) (hup : pe.upcase y = pe.upcase x)
    (hx0 : x ≠ 0) (hxs : isSeparator x = false) (hr0 : 0 ∉ r)
    (hrs : ∀ c ∈ r.head?, isSeparator c = false) (hcd : pe.cd = c0 :: cdRest)
    (hdiff : asciiLower x ≠ asciiLower c0)
    (hdos : pe.dosDeviceName (x :: ':'.toNat :: (r ++ [0])) = 0)
    (hv4 : 4 ≤ v.length) (hv16 : v.length < 0x8000) :
    rtlDetermineDosPathNameType (x :: ':'.toNat :: (r ++ [0])) = .ok .driveRelative ∧
    ∀ size buffer heap, (∀ i, heap.fresh heap.blocks.length i = 0) →
      size % 0x10000 < v.length * 2 → v.length * 2 + r.length * 2 + 4 ≤ size →
      size / 2 ≤ buffer.length →
      ∃ buffer' heap', rtlGetFullPathNameUEx pe (x :: ':'.toNat :: (r ++ [0])) size buffer heap =
        .ok (0, buffer', heap') := by
  have hL : v.length * 2 % 0x10000 = v.length * 2 := Nat.mod_eq_of_lt (by omega)
  refine ⟨rtlDetermineDosPathNameType_drive rfl hx0 hxs hrs, ?_⟩
  intro size buffer heap hfresh hmax hspace hbuf
  exact rtlGetFullPathNameUEx_drive_truncated henv hv hy0 hy hup rfl hx0 hxs hr0 hrs hcd hdiff hdos
    buffer heap hfresh (by omega) (by omega) (by omega) hbuf

/-- A process whose current directory is `C:\` and whose directory on `D:` is `D:\a`. -/
def driveDEnv : PathEnv where
  cd := ['C'.toNat, ':'.toNat, '\\'.toNat, 0]
  cdLength := 6
  environment := ['='.toNat, 'D'.toNat, ':'.toNat, '='.toNat, 'D'.toNat, ':'.toNat, '\\'.toNat,
    'a'.toNat, 0, 0]
  upcase c := if 'a'.toNat ≤ c ∧ c ≤ 'z'.toNat then c - 32 else c
  unixFullPath _ _ _ _ := none
  dosDeviceName _ := 0

/-- No block yet, and new blocks filled with `0xcccc`, as a debugging heap fills them. -/
def debugHeap : Heap := ⟨[], fun _ _ => 0xcccc⟩

/-- `d:foo` with an 8-byte buffer writes the backslash one cell past its block; with a 10-byte
buffer the call returns and the block is still allocated. -/
theorem rtlGetFullPathNameUEx_d_foo :
    rtlGetFullPathNameUEx driveDEnv ['d'.toNat, ':'.toNat, 'f'.toNat, 'o'.toNat, 'o'.toNat, 0] 8
        (List.replicate 4 0) debugHeap = .error .outOfBounds ∧
      ∃ res, rtlGetFullPathNameUEx driveDEnv
          ['d'.toNat, ':'.toNat, 'f'.toNat, 'o'.toNat, 'o'.toNat, 0] 10 (List.replicate 5 0) debugHeap =
          .ok res ∧ ∃ c, res.2.2.blocks[0]? = some (some c) := by
  obtain ⟨hfault, hleak⟩ := rtlGetFullPathNameUEx_drive_relative_unsafe driveDEnv 'd'.toNat
    'D'.toNat ['D'.toNat, ':'.toNat, '\\'.toNat, 'a'.toNat] [0] ['f'.toNat, 'o'.toNat, 'o'.toNat]
    'C'.toNat [':'.toNat, '\\'.toNat, 0] rfl (by decide) (by decide) (by decide) rfl (by decide)
    rfl (by decide) (by decide) rfl (by decide) rfl
  refine ⟨hfault 8 _ _ (by decide), ?_⟩
  obtain ⟨-, hens⟩ := hleak 10 (List.replicate 5 0) debugHeap (by decide) (by decide)
  obtain ⟨res, hres⟩ : ∃ res, rtlGetFullPathNameUEx driveDEnv
      ['d'.toNat, ':'.toNat, 'f'.toNat, 'o'.toNat, 'o'.toNat, 0] 10 (List.replicate 5 0) debugHeap =
      .ok res := ⟨_, rfl⟩
  exact ⟨res, hres, hens res hres⟩

/-- `d:foo` with a 64 KiB buffer and a zeroed block: `val.MaximumLength` is 0 and the call
returns 0. -/
theorem rtlGetFullPathNameUEx_d_foo_64k :
    ∃ buffer' heap', rtlGetFullPathNameUEx driveDEnv
      ['d'.toNat, ':'.toNat, 'f'.toNat, 'o'.toNat, 'o'.toNat, 0] 0x10000 (List.replicate 0x8000 0)
      ⟨[], fun _ _ => 0⟩ = .ok (0, buffer', heap') :=
  (rtlGetFullPathNameUEx_size_truncated driveDEnv 'd'.toNat 'D'.toNat
    ['D'.toNat, ':'.toNat, '\\'.toNat, 'a'.toNat] [0] ['f'.toNat, 'o'.toNat, 'o'.toNat]
    'C'.toNat [':'.toNat, '\\'.toNat, 0] rfl (by decide) (by decide) (by decide) rfl (by decide)
    rfl (by decide) (by decide) rfl (by decide) rfl (by decide) (by decide)).2 0x10000 _ _
    (fun _ => rfl) (by decide) (by decide) (List.length_replicate ..).ge

end Wine.Ntdll.Path
