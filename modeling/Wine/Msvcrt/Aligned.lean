import Mathlib

/-!
# Aligned allocation (`dlls/msvcrt/heap.c`)

`_aligned_offset_malloc` and `_aligned_offset_realloc` on a 64-bit target: pointers and sizes
are `UInt64` (`DWORD_PTR`, `size_t`), so the additions of `ALIGN_PTR` and of the request size
wrap as the code's do. The CRT heap is a parameter: `malloc` and `realloc` give a block of
the requested size or fail, `msize` is `_msize`, and `saved` reads the pointer stored at an
address. The outcome records the block the code obtained, the pointer it returns (whose
`SAVED_PTR` slot it writes the block's address to) and the `memmove` it makes; the bytes
themselves are not modelled.
-/

namespace Wine.Msvcrt

set_option autoImplicit false

structure CrtHeap where
  malloc : UInt64 → Option UInt64
  realloc : UInt64 → UInt64 → Option UInt64
  msize : UInt64 → UInt64
  saved : UInt64 → UInt64

/-- `sizeof(void *)` -/
def ptrSize : UInt64 := 8

def savedPtr (x : UInt64) : UInt64 := (x - ptrSize) &&& ~~~(ptrSize - 1)

def alignPtr (ptr alignment offset : UInt64) : UInt64 :=
  ((ptr + alignment + ptrSize + offset) &&& ~~~(alignment - 1)) - offset

inductive Outcome where
  /-- `NULL` with `errno` set to `EINVAL` -/
  | einval
  /-- `NULL`: the allocation failed or the block was not the heap's -/
  | fail
  /-- `_aligned_free` of the block, then `NULL` -/
  | freed
  /-- the block `temp` of `request` bytes, the pointer returned, and the `memmove` as
  destination, source and length -/
  | block (temp request memblock : UInt64) (move : Option (UInt64 × UInt64 × UInt64))
  deriving DecidableEq, Repr

def alignedOffsetMalloc (heap : CrtHeap) (size alignment offset : UInt64) : Outcome :=
  if alignment &&& (alignment - 1) ≠ 0 then .einval
  else if offset ≠ 0 ∧ size ≤ offset then .einval
  else
    let alignment := if alignment < ptrSize then ptrSize else alignment
    let request := size + alignment + ptrSize
    match heap.malloc request with
    | none => .fail
    | some temp => .block temp request (alignPtr temp alignment offset) none

def alignedMalloc (heap : CrtHeap) (size alignment : UInt64) : Outcome :=
  alignedOffsetMalloc heap size alignment 0

/-- The part of `_aligned_offset_realloc` after the block is found: `old` is `*saved`. -/
def reallocBlock (heap : CrtHeap) (old memblock size alignment offset : UInt64) : Outcome :=
  let oldPadding := memblock - old
  let oldSize := heap.msize old
  -- `_msize` returns `-1` for a pointer the heap does not know
  if oldSize = 0xffffffffffffffff then .fail
  else if oldSize < oldPadding then .fail
  else
    let oldSize := oldSize - oldPadding
    let request := size + alignment + ptrSize
    match heap.realloc old request with
    | none => .fail
    | some temp =>
      let memblock := alignPtr temp alignment offset
      let newPadding := memblock - temp
      .block temp request memblock
        (if newPadding ≠ oldPadding then some (memblock, temp + oldPadding, min oldSize size)
        else none)

def alignedOffsetRealloc (heap : CrtHeap) (memblock size alignment offset : UInt64) : Outcome :=
  if memblock = 0 then alignedOffsetMalloc heap size alignment offset
  else if alignment &&& (alignment - 1) ≠ 0 then .einval
  else if size ≤ offset then .einval
  else if size = 0 then .freed
  else
    let alignment := if alignment < ptrSize then ptrSize else alignment
    let old := heap.saved (savedPtr memblock)
    if memblock ≠ alignPtr old alignment offset then .einval
    else reallocBlock heap old memblock size alignment offset

def alignedRealloc (heap : CrtHeap) (memblock size alignment : UInt64) : Outcome :=
  alignedOffsetRealloc heap memblock size alignment 0

theorem alignedOffsetRealloc_zero_size (heap : CrtHeap) {memblock : UInt64} (alignment offset : UInt64)
    (hblock : memblock ≠ 0) :
    alignedOffsetRealloc heap memblock 0 alignment offset = .einval := by
  unfold alignedOffsetRealloc
  rw [if_neg hblock]
  split
  · rfl
  · rw [if_pos (UInt64.zero_le (a := offset))]

def fixedHeap (base : UInt64) : CrtHeap :=
  ⟨fun _ => some base, fun _ _ => some base, fun _ => 0, fun _ => base⟩

/-- A block of 256 bytes aligned to 16 is not freed by resizing it to 0; and a request of
`2^64 - 16` bytes aligned to 8 asks the heap for 0 bytes, past which the code places the
saved pointer (at `0x10008`) and the returned block (at `0x10010`). -/
theorem alignedRealloc_zero_keeps_block_and_request_wraps :
    alignedMalloc (fixedHeap 0x10000) 256 16 = .block 0x10000 280 0x10010 none ∧
      alignedRealloc (fixedHeap 0x10000) 0x10010 0 16 = .einval ∧
      alignedMalloc (fixedHeap 0x10000) 0xfffffffffffffff0 8 = .block 0x10000 0 0x10010 none ∧
      savedPtr 0x10010 = 0x10008 :=
  ⟨by decide, alignedOffsetRealloc_zero_size _ _ _ (by decide), by decide, by decide⟩

end Wine.Msvcrt
