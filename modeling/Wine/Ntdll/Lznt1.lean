import Wine.Lib.Memory
import Wine.Status

/-!
# LZNT1 decompression (`dlls/ntdll/rtl.c`)

`lznt1_decompress_chunk`, `lznt1_decompress`, `RtlDecompressFragment` and
`RtlDecompressBuffer`. Buffers are checked objects: `dst` is `uncompressed[0, size)`,
`src` is `compressed[0, size)`, the workspace is the caller's buffer, and a chunk decoder
sees only the (pointer, size) slice it is passed, so a back-reference before the chunk start
is an access before its object.
-/

namespace Wine.Ntdll

open Mem

set_option autoImplicit false

/-- The `displacement_bits` search of a back-reference: counting down from `d`, the first
width above 4 whose range `1 << (d - 1)` is below the bytes already produced, else 4. -/
def displacementBits (pos : Nat) : Nat → Nat
  | 0 => 0
  | d + 1 => if d + 1 ≤ 4 then d + 1 else if 2 ^ d < pos then d + 1 else displacementBits pos d

/-- The overlapping byte-by-byte copy `while (code_length--)` of a back-reference at distance
`disp`; the flag is set by the early `return dst_cur` on a full destination. -/
def copyBackref (disp : Nat) : Nat → List UInt8 → Nat → Run (List UInt8 × Nat × Bool)
  | 0, dst, cur => pure (dst, cur, false)
  | n + 1, dst, cur =>
    if dst.length ≤ cur then pure (dst, cur, true)
    else do
      let v ← loadBack dst cur disp
      let dst ← store dst cur v
      copyBackref disp n dst (cur + 1)

/-- The two loops of `lznt1_decompress_chunk` from a point where one of them is about to test
its condition: `flags` is the current flag word (0 before the first flag byte). The result
is `none` for a `NULL` return and otherwise the destination and `dst_cur - dst`. -/
def chunkLoop (src : List UInt8) (srcCur flags : Nat) (dst : List UInt8) (dstCur : Nat) :
    Run (Option (List UInt8 × Nat)) :=
  if flags &&& 0xff00 ≠ 0 ∧ srcCur < src.length then
    if flags &&& 1 ≠ 0 then
      -- backwards reference
      if src.length < srcCur + 2 then pure none
      else do
        let code ← loadU16 src srcCur
        let lengthBits := 16 - displacementBits dstCur 12
        let codeLength := code % 2 ^ lengthBits + 3
        let codeDisplacement := code / 2 ^ lengthBits + 1
        if dstCur < codeDisplacement then pure none
        else do
          let (dst, dstCur, full) ← copyBackref codeDisplacement codeLength dst dstCur
          if full then pure (some (dst, dstCur))
          else chunkLoop src (srcCur + 2) (flags >>> 1) dst dstCur
    else
      -- uncompressed data
      if dst.length ≤ dstCur then pure (some (dst, dstCur))
      else do
        let b ← load src srcCur
        let dst ← store dst dstCur b
        chunkLoop src (srcCur + 1) (flags >>> 1) dst (dstCur + 1)
  else if srcCur < src.length ∧ dstCur < dst.length then do
    let f ← load src srcCur
    chunkLoop src (srcCur + 1) (0x8000 ||| f.toNat) dst dstCur
  else pure (some (dst, dstCur))
termination_by src.length - srcCur

/-- `lznt1_decompress_chunk(dst, dst_size, src, src_size)` on the slices it is passed. -/
def lznt1DecompressChunk (dst src : List UInt8) : Run (Option (List UInt8 × Nat)) :=
  chunkLoop src 0 0 dst 0

/-- What `lznt1_decompress` leaves behind: its status, the destination and workspace buffers,
and the value stored to `*final_size`, if any. -/
structure Lznt1Result where
  status : NtStatus
  dst : List UInt8
  workspace : Option (List UInt8)
  finalSize : Option Nat

/-- The `out:` label: success, with `dst_cur - dst` stored to `*final_size`. -/
def lznt1Out (dst : List UInt8) (ws : Option (List UInt8)) (dstCur : Nat) : Lznt1Result :=
  ⟨.success, dst, ws, some dstCur⟩

/-- An error return, leaving `*final_size` untouched. -/
def lznt1Fail (status : NtStatus) (dst : List UInt8) (ws : Option (List UInt8)) : Lznt1Result :=
  ⟨status, dst, ws, none⟩

/-- The zero padding before a chunk of the third loop when the previous chunk decoded to less
than 4096 bytes; `none` is the jump to `out` when the padding does not fit. -/
def padChunk (dst : List UInt8) (dstCur offset : Nat) : Run (Option (List UInt8 × Nat)) :=
  let pad := (dstCur + offset) % 0x1000
  if pad ≠ 0 then
    if dst.length ≤ dstCur + (0x1000 - pad) then pure none
    else do
      let dst ← fill dst dstCur (0x1000 - pad) 0
      pure (some (dst, dstCur + (0x1000 - pad)))
  else pure (some (dst, dstCur))

/-- The third loop of `lznt1_decompress`: every remaining chunk, each padded to a 4096-byte
boundary of the uncompressed stream before it is decoded in place. -/
def remainingChunks (src : List UInt8) (offset srcCur : Nat) (dst : List UInt8) (dstCur : Nat)
    (ws : Option (List UInt8)) : Run Lznt1Result :=
  if srcCur + 2 ≤ src.length then do
    let header ← loadU16 src srcCur
    if header = 0 then pure (lznt1Out dst ws dstCur)
    else
      let chunkSize := header % 0x1000 + 1
      if src.length < srcCur + 2 + chunkSize then pure (lznt1Fail .badCompressionBuffer dst ws)
      else do
        match ← padChunk dst dstCur offset with
        | none => pure (lznt1Out dst ws dstCur)
        | some (dst, dstCur) =>
          if dst.length ≤ dstCur then pure (lznt1Out dst ws dstCur)
          else if header &&& 0x8000 ≠ 0 then do
            -- compressed chunk, decoded in place
            let out ← slice dst dstCur (dst.length - dstCur)
            let chunk ← slice src (srcCur + 2) chunkSize
            match ← lznt1DecompressChunk out chunk with
            | none => pure (lznt1Fail .badCompressionBuffer dst ws)
            | some (out, n) =>
              remainingChunks src offset (srcCur + 2 + chunkSize) (unslice dst dstCur out)
                (dstCur + n) ws
          else do
            -- uncompressed chunk
            let blockSize := min chunkSize (dst.length - dstCur)
            let dst ← copy dst dstCur src (srcCur + 2) blockSize
            remainingChunks src offset (srcCur + 2 + chunkSize) dst (dstCur + blockSize) ws
  else pure (lznt1Out dst ws dstCur)
termination_by src.length - srcCur

/-- The partially included chunk at the fragment offset (`offset < 0x1000` when it is taken),
decoded into the workspace when it is compressed. Nothing has been written to `dst` yet. -/
def partialChunk (src : List UInt8) (offset srcCur : Nat) (dst : List UInt8)
    (ws : Option (List UInt8)) : Run Lznt1Result :=
  if offset ≠ 0 ∧ srcCur + 2 ≤ src.length then do
    let header ← loadU16 src srcCur
    if header = 0 then pure (lznt1Out dst ws 0)
    else
      let chunkSize := header % 0x1000 + 1
      let next := srcCur + 2 + chunkSize
      if src.length < next then pure (lznt1Fail .badCompressionBuffer dst ws)
      else if dst.length = 0 then pure (lznt1Out dst ws 0)
      else if header &&& 0x8000 ≠ 0 then
        match ws with
        | none => pure (lznt1Fail .accessViolation dst ws)
        | some w => do
          let out ← slice w 0 0x1000
          let chunk ← slice src (srcCur + 2) chunkSize
          match ← lznt1DecompressChunk out chunk with
          | none => pure (lznt1Fail .badCompressionBuffer dst (some w))
          | some (out, n) =>
            let w := unslice w 0 out
            if offset < n then do
              let blockSize := min (n - offset) dst.length
              let dst ← copy dst 0 out offset blockSize
              remainingChunks src offset next dst blockSize (some w)
            else remainingChunks src offset next dst 0 (some w)
      else if offset < chunkSize then do
        let blockSize := min (chunkSize - offset) dst.length
        let dst ← copy dst 0 src (srcCur + 2 + offset) blockSize
        remainingChunks src offset next dst blockSize ws
      else remainingChunks src offset next dst 0 ws
  else remainingChunks src offset srcCur dst 0 ws

/-- The first loop of `lznt1_decompress`: skip whole chunks lying 4096 or more bytes before
the fragment offset. -/
def skipChunks (src : List UInt8) (offset srcCur : Nat) (dst : List UInt8)
    (ws : Option (List UInt8)) : Run Lznt1Result :=
  if 0x1000 ≤ offset ∧ srcCur + 2 ≤ src.length then do
    let header ← loadU16 src srcCur
    if header = 0 then pure (lznt1Out dst ws 0)
    else
      let chunkSize := header % 0x1000 + 1
      if src.length < srcCur + 2 + chunkSize then pure (lznt1Fail .badCompressionBuffer dst ws)
      else skipChunks src (offset - 0x1000) (srcCur + 2 + chunkSize) dst ws
  else partialChunk src offset srcCur dst ws
termination_by src.length - srcCur

/-- `lznt1_decompress(dst, dst_size, src, src_size, offset, final_size, workspace)`. -/
def lznt1Decompress (dst src : List UInt8) (offset : Nat) (ws : Option (List UInt8)) :
    Run Lznt1Result :=
  if src.length < 2 then pure (lznt1Fail .badCompressionBuffer dst ws)
  else skipChunks src offset 0 dst ws

/-- `RtlDecompressFragment`, dispatching on `format & COMPRESSION_FORMAT_MASK`. -/
def rtlDecompressFragment (format : UInt16) (dst src : List UInt8) (offset : Nat)
    (ws : Option (List UInt8)) : Run Lznt1Result :=
  match (format &&& 0x00ff).toNat with
  | 2 => lznt1Decompress dst src offset ws
  | 0 | 1 => pure (lznt1Fail .invalidParameter dst ws)
  | _ => pure (lznt1Fail .unsupportedCompression dst ws)

/-- `RtlDecompressBuffer`: a fragment at offset 0 without a workspace. -/
def rtlDecompressBuffer (format : UInt16) (dst src : List UInt8) : Run Lznt1Result :=
  rtlDecompressFragment format dst src 0 none

/-- The loop of `lznt1_compress`, which stores every chunk uncompressed: up to 4096 bytes of
the input behind the header `0x3000 | (block_size - 1)`. -/
def compressChunks (src : List UInt8) (srcCur : Nat) (dst : List UInt8) (dstCur : Nat)
    (ws : Option (List UInt8)) : Run Lznt1Result :=
  if srcCur < src.length then
    let blockSize := min 0x1000 (src.length - srcCur)
    if dst.length < dstCur + 2 + blockSize then pure (lznt1Fail .bufferTooSmall dst ws)
    else do
      let dst ← storeU16 dst dstCur (0x3000 ||| (blockSize - 1))
      let dst ← copy dst (dstCur + 2) src srcCur blockSize
      compressChunks src (srcCur + blockSize) dst (dstCur + 2 + blockSize) ws
  else pure (lznt1Out dst ws dstCur)
termination_by src.length - srcCur

/-- `lznt1_compress(src, src_size, dst, dst_size, chunk_size, final_size, workspace)`; the chunk
size and the workspace are not read. -/
def lznt1Compress (src dst : List UInt8) (ws : Option (List UInt8)) : Run Lznt1Result :=
  compressChunks src 0 dst 0 ws

/-- `RtlCompressBuffer`, dispatching on `format & COMPRESSION_FORMAT_MASK`. -/
def rtlCompressBuffer (format : UInt16) (src dst : List UInt8) (ws : Option (List UInt8)) :
    Run Lznt1Result :=
  match (format &&& 0x00ff).toNat with
  | 2 => lznt1Compress src dst ws
  | 0 | 1 => pure (lznt1Fail .invalidParameter dst ws)
  | _ => pure (lznt1Fail .unsupportedCompression dst ws)

/-! ## Memory safety -/

section Safety

theorem copyBackref_safe (disp : Nat) : ∀ (n : Nat) (dst : List UInt8) (cur : Nat),
    disp ≤ cur → cur ≤ dst.length →
    Returns (copyBackref disp n dst cur) fun r => r.1.length = dst.length ∧ r.2.1 ≤ dst.length
  | 0, dst, cur, _, hcur => .pure ⟨rfl, hcur⟩
  | n + 1, dst, cur, hdisp, hcur => by
    rw [copyBackref]
    refine Returns.ite (fun _ => .pure ⟨rfl, hcur⟩) fun hfull => ?_
    have hlt : cur < dst.length := by omega
    refine Returns.bind (returns_loadBack hdisp (by omega) (Q := fun _ => True) trivial)
      fun v _ => ?_
    refine Returns.bind (returns_store hlt (Q := fun d => d = dst.set cur v) rfl) fun d hd => ?_
    subst hd
    have hlen : (dst.set cur v).length = dst.length := List.length_set ..
    refine (copyBackref_safe disp n _ (cur + 1) (by omega) (by omega)).mono ?_
    intro r hr
    exact ⟨hr.1.trans hlen, hlen ▸ hr.2⟩

/-- A chunk decoder result over an output slice of `n` bytes: the slice keeps its size and
`dst_cur - dst` stays inside it. -/
def ChunkOk (n : Nat) (r : Option (List UInt8 × Nat)) : Prop :=
  ∀ p ∈ r, p.1.length = n ∧ p.2 ≤ n

theorem chunkOk_none (n : Nat) : ChunkOk n none := by simp [ChunkOk]

theorem chunkOk_some {n : Nat} {dst : List UInt8} {cur : Nat} (hlen : dst.length = n)
    (hcur : cur ≤ n) : ChunkOk n (some (dst, cur)) := by
  simp [ChunkOk, hlen, hcur]

theorem chunkLoop_safe (src : List UInt8) (srcCur flags : Nat) (dst : List UInt8) (dstCur : Nat)
    (hcur : dstCur ≤ dst.length) :
    Returns (chunkLoop src srcCur flags dst dstCur) (ChunkOk dst.length) := by
  induction srcCur, flags, dst, dstCur using chunkLoop.induct src with
  | case1 srcCur flags dst dstCur hin hbit hshort =>
    rw [chunkLoop, if_pos hin, if_pos hbit, if_pos hshort]
    exact .pure (chunkOk_none _)
  | case2 srcCur flags dst dstCur hin hbit hlong ih =>
    rw [chunkLoop, if_pos hin, if_pos hbit, if_neg hlong]
    refine Returns.bind (returns_loadU16 (by omega) (Q := fun _ => True) fun _ _ => trivial)
      fun code _ => ?_
    refine Returns.ite (fun _ => .pure (chunkOk_none _)) fun hdisp => ?_
    refine Returns.bind (copyBackref_safe _ _ dst dstCur (by omega) hcur) fun r hr => ?_
    obtain ⟨d, c, full⟩ := r
    obtain ⟨hd, hc⟩ := hr
    refine Returns.ite (fun _ => .pure (chunkOk_some hd hc)) fun _ => ?_
    exact hd ▸ ih code d c (hd ▸ hc)
  | case3 srcCur flags dst dstCur hin hbit hfull =>
    rw [chunkLoop, if_pos hin, if_neg hbit, if_pos hfull]
    exact .pure (chunkOk_some rfl hcur)
  | case4 srcCur flags dst dstCur hin hbit hroom ih =>
    rw [chunkLoop, if_pos hin, if_neg hbit, if_neg hroom]
    refine Returns.bind (returns_load hin.2 (Q := fun _ => True) trivial) fun b _ => ?_
    have hlt : dstCur < dst.length := by omega
    refine Returns.bind (returns_store hlt (Q := fun d => d = dst.set dstCur b) rfl)
      fun d hd => ?_
    subst hd
    have hlen : (dst.set dstCur b).length = dst.length := List.length_set ..
    exact hlen ▸ ih (dst.set dstCur b) (by omega)
  | case5 srcCur flags dst dstCur hin hnext ih =>
    rw [chunkLoop, if_neg hin, if_pos hnext]
    refine Returns.bind (returns_load hnext.1 (Q := fun _ => True) trivial) fun f _ => ?_
    exact ih f hcur
  | case6 srcCur flags dst dstCur hin hnext =>
    rw [chunkLoop, if_neg hin, if_neg hnext]
    exact .pure (chunkOk_some rfl hcur)

theorem lznt1DecompressChunk_safe (dst src : List UInt8) :
    Returns (lznt1DecompressChunk dst src) (ChunkOk dst.length) :=
  chunkLoop_safe src 0 0 dst 0 (Nat.zero_le _)

/-- A return of `lznt1_decompress` for a destination of `n` bytes stores `*final_size` exactly
when it succeeds, and the stored size is at most `n`. -/
def Lznt1Result.SizeOk (n : Nat) (r : Lznt1Result) : Prop :=
  (r.status = .success → ∃ f, r.finalSize = some f ∧ f ≤ n) ∧
  (r.status ≠ .success → r.finalSize = none)

theorem lznt1Out_sizeOk {n : Nat} (dst : List UInt8) (ws : Option (List UInt8)) {cur : Nat}
    (h : cur ≤ n) : (lznt1Out dst ws cur).SizeOk n :=
  ⟨fun _ => ⟨cur, rfl, h⟩, fun hs => absurd rfl hs⟩

theorem lznt1Fail_sizeOk (n : Nat) {status : NtStatus} (dst : List UInt8)
    (ws : Option (List UInt8)) (h : status ≠ .success) : (lznt1Fail status dst ws).SizeOk n :=
  ⟨fun hs => absurd hs h, fun _ => rfl⟩

/-- The postcondition of the chunk loops of `lznt1_decompress` on a destination of `n` bytes:
the destination keeps its size, the workspace is passed through, and the final size is sound. -/
def RemainingOk (n : Nat) (ws : Option (List UInt8)) (r : Lznt1Result) : Prop :=
  r.dst.length = n ∧ r.workspace = ws ∧ r.SizeOk n

theorem padChunk_safe (dst : List UInt8) (dstCur offset : Nat) (h : dstCur ≤ dst.length) :
    Returns (padChunk dst dstCur offset) (ChunkOk dst.length) := by
  unfold padChunk
  refine Returns.ite (fun hpad => ?_) fun _ => .pure (chunkOk_some rfl h)
  refine Returns.ite (fun _ => .pure (chunkOk_none _)) fun hfit => ?_
  refine Returns.bind (returns_fill (by omega) (Q := fun d => d.length = dst.length) fun _ h => h)
    fun d hd => .pure (chunkOk_some hd (by omega))

theorem remainingChunks_safe (src : List UInt8) (offset srcCur : Nat) (dst : List UInt8)
    (dstCur : Nat) (ws : Option (List UInt8)) (hcur : dstCur ≤ dst.length) :
    Returns (remainingChunks src offset srcCur dst dstCur ws) (RemainingOk dst.length ws) := by
  induction srcCur, dst, dstCur using remainingChunks.induct src with
  | case1 srcCur dst dstCur hin ihc ihu =>
    rw [remainingChunks, if_pos hin]
    refine Returns.bind (returns_loadU16 hin (Q := fun _ => True) fun _ _ => trivial)
      fun header _ => ?_
    refine Returns.ite (fun _ => .pure ⟨rfl, rfl, lznt1Out_sizeOk _ _ hcur⟩) fun _ => ?_
    refine Returns.ite (fun _ => .pure ⟨rfl, rfl, lznt1Fail_sizeOk _ _ _ (by simp)⟩)
      fun hsize => ?_
    refine Returns.bind (padChunk_safe dst dstCur offset hcur) fun r hr => ?_
    rcases r with _ | ⟨d, c⟩
    · exact .pure ⟨rfl, rfl, lznt1Out_sizeOk _ _ hcur⟩
    obtain ⟨hd, hc⟩ : d.length = dst.length ∧ c ≤ dst.length := hr _ rfl
    refine Returns.ite (fun _ => .pure ⟨hd, rfl, lznt1Out_sizeOk _ _ (hd ▸ hc)⟩) fun hroom => ?_
    refine Returns.ite (fun _ => ?_) fun _ => ?_
    · refine Returns.bind (returns_slice (by omega) (Q := fun s => s.length = d.length - c)
        fun _ h => h) fun out hout => ?_
      refine Returns.bind (returns_slice (by omega) (Q := fun _ => True) fun _ _ => trivial)
        fun chunk _ => ?_
      refine Returns.bind (lznt1DecompressChunk_safe out chunk) fun r hr => ?_
      rcases r with _ | ⟨out', n⟩
      · exact .pure ⟨hd, rfl, lznt1Fail_sizeOk _ _ _ (by simp)⟩
      obtain ⟨ho, hn⟩ : out'.length = out.length ∧ n ≤ out.length := hr _ rfl
      have hlen : (unslice d c out').length = dst.length := by
        rw [unslice_length (by omega)]
        exact hd
      exact hlen ▸ ihc header hsize d c out' n (by omega)
    · refine Returns.bind (returns_copy (by omega) (by omega)
        (Q := fun d' => d'.length = d.length) fun _ h => h) fun d' hd' => ?_
      exact (hd'.trans hd) ▸ ihu header hsize d c d' (by omega)
  | case2 srcCur dst dstCur hin =>
    rw [remainingChunks, if_neg hin]
    exact .pure ⟨rfl, rfl, lznt1Out_sizeOk _ _ hcur⟩

/-- The workspace after a call: present exactly when one was passed, of the same size, and
unchanged past its first 4096 bytes. -/
def WorkspaceOk : Option (List UInt8) → Option (List UInt8) → Prop
  | none, ws' => ws' = none
  | some w, ws' => ∃ w' ∈ ws', w'.length = w.length ∧ w'.drop 0x1000 = w.drop 0x1000

theorem workspaceOk_refl : ∀ ws : Option (List UInt8), WorkspaceOk ws ws
  | none => rfl
  | some w => ⟨w, rfl, rfl, rfl⟩

theorem workspaceOk_unslice {w out : List UInt8} (hw : 0x1000 ≤ w.length)
    (hout : out.length = 0x1000) : WorkspaceOk (some w) (some (unslice w 0 out)) := by
  refine ⟨_, rfl, unslice_length (by omega), ?_⟩
  have hd := unslice_drop (b := w) (i := 0) (s := out) (by omega)
  rwa [Nat.zero_add, hout] at hd

/-- What every return of `RtlDecompressFragment` guarantees for the destination `dst` and the
workspace `ws`: the destination keeps its size, the workspace is only changed in its first
4096 bytes, and `*final_size` is stored exactly on success and is at most the size of `dst`. -/
def Lznt1Result.Sound (dst : List UInt8) (ws : Option (List UInt8)) (r : Lznt1Result) : Prop :=
  r.dst.length = dst.length ∧ WorkspaceOk ws r.workspace ∧ r.SizeOk dst.length

theorem sound_of_remainingOk {dst : List UInt8} {ws ws' : Option (List UInt8)} {r : Lznt1Result}
    (hws : WorkspaceOk ws ws') (h : RemainingOk dst.length ws' r) : r.Sound dst ws := by
  obtain ⟨hd, hw, hs⟩ := h
  exact ⟨hd, hw ▸ hws, hs⟩

theorem partialChunk_safe (src : List UInt8) (offset srcCur : Nat) (dst : List UInt8)
    (ws : Option (List UInt8)) (hws : ∀ w ∈ ws, 0x1000 ≤ w.length) :
    Returns (partialChunk src offset srcCur dst ws) (Lznt1Result.Sound dst ws) := by
  have hrest : ∀ srcCur' dst' dstCur', dst'.length = dst.length → dstCur' ≤ dst'.length →
      Returns (remainingChunks src offset srcCur' dst' dstCur' ws) (Lznt1Result.Sound dst ws) :=
    fun _ dst' _ hlen hcur => (remainingChunks_safe _ _ _ dst' _ ws hcur).mono
      fun _ h => sound_of_remainingOk (workspaceOk_refl ws) (hlen ▸ h)
  unfold partialChunk
  refine Returns.ite (fun hin => ?_) fun _ => hrest _ _ _ rfl (Nat.zero_le _)
  refine Returns.bind (returns_loadU16 hin.2 (Q := fun _ => True) fun _ _ => trivial)
    fun header _ => ?_
  have hout : (lznt1Out dst ws 0).Sound dst ws :=
    ⟨rfl, workspaceOk_refl ws, lznt1Out_sizeOk _ _ (Nat.zero_le _)⟩
  refine Returns.ite (fun _ => .pure hout) fun _ => ?_
  refine Returns.ite (fun _ => .pure ⟨rfl, workspaceOk_refl ws, lznt1Fail_sizeOk _ _ _ (by simp)⟩)
    fun hsize => ?_
  refine Returns.ite (fun _ => .pure hout) fun hdst => ?_
  refine Returns.ite (fun _ => ?_) fun _ => ?_
  · rcases ws with _ | w
    · exact .pure ⟨rfl, rfl, lznt1Fail_sizeOk _ _ _ (by simp)⟩
    have hw : 0x1000 ≤ w.length := hws w rfl
    refine Returns.bind (returns_slice (by omega) (Q := fun s => s.length = 0x1000) fun _ h => h)
      fun out hout => ?_
    refine Returns.bind (returns_slice (by omega) (Q := fun _ => True) fun _ _ => trivial)
      fun chunk _ => ?_
    refine Returns.bind (lznt1DecompressChunk_safe out chunk) fun r hr => ?_
    rcases r with _ | ⟨out', n⟩
    · exact .pure ⟨rfl, workspaceOk_refl _, lznt1Fail_sizeOk _ _ _ (by simp)⟩
    obtain ⟨ho, hn⟩ : out'.length = out.length ∧ n ≤ out.length := hr _ rfl
    have hwo := workspaceOk_unslice hw (ho.trans hout)
    have hrest' : ∀ dst' dstCur', dst'.length = dst.length → dstCur' ≤ dst'.length →
        Returns (remainingChunks src offset (srcCur + 2 + (header % 0x1000 + 1)) dst' dstCur'
          (some (unslice w 0 out'))) (Lznt1Result.Sound dst (some w)) :=
      fun dst' _ hlen hcur => (remainingChunks_safe _ _ _ dst' _ _ hcur).mono
        fun _ h => sound_of_remainingOk hwo (hlen ▸ h)
    refine Returns.ite (fun hoff => ?_) fun _ => hrest' _ _ rfl (Nat.zero_le _)
    refine Returns.bind (returns_copy (by omega) (by omega)
      (Q := fun d' => d'.length = dst.length) fun _ h => h) fun d' hd' => ?_
    exact hrest' _ _ hd' (by omega)
  · refine Returns.ite (fun hoff => ?_) fun _ => hrest _ _ _ rfl (Nat.zero_le _)
    refine Returns.bind (returns_copy (by omega) (by omega)
      (Q := fun d' => d'.length = dst.length) fun _ h => h) fun d' hd' => ?_
    exact hrest _ _ _ hd' (by omega)

theorem skipChunks_safe (src : List UInt8) (offset srcCur : Nat) (dst : List UInt8)
    (ws : Option (List UInt8)) (hws : ∀ w ∈ ws, 0x1000 ≤ w.length) :
    Returns (skipChunks src offset srcCur dst ws) (Lznt1Result.Sound dst ws) := by
  induction offset, srcCur using skipChunks.induct src with
  | case1 offset srcCur hin ih =>
    rw [skipChunks, if_pos hin]
    apply Returns.bind (returns_loadU16 hin.2 (Q := fun _ => True) fun _ _ => trivial)
    intro header _
    apply Returns.ite
    · intro _
      exact .pure ⟨rfl, workspaceOk_refl ws, lznt1Out_sizeOk _ _ (Nat.zero_le _)⟩
    · intro hnz
      apply Returns.ite
      · intro _
        exact .pure ⟨rfl, workspaceOk_refl ws, lznt1Fail_sizeOk _ _ _ (by simp)⟩
      · exact ih header
  | case2 offset srcCur hin =>
    rw [skipChunks, if_neg hin]
    exact partialChunk_safe src offset srcCur dst ws hws

theorem lznt1Decompress_safe (dst src : List UInt8) (offset : Nat) (ws : Option (List UInt8))
    (hws : ∀ w ∈ ws, 0x1000 ≤ w.length) :
    Returns (lznt1Decompress dst src offset ws) (Lznt1Result.Sound dst ws) := by
  unfold lznt1Decompress
  apply Returns.ite
  · intro _
    exact .pure ⟨rfl, workspaceOk_refl ws, lznt1Fail_sizeOk _ _ _ (by simp)⟩
  · intro _
    exact skipChunks_safe src offset 0 dst ws hws

/-- `RtlDecompressFragment` and `RtlDecompressBuffer` are total, never read or write outside
the compressed input, the destination, the workspace slice or the chunk being decoded, and
report a final size inside the destination on success. -/
theorem rtlDecompressFragment_safe (format : UInt16) (dst src : List UInt8) (offset : Nat)
    (ws : Option (List UInt8)) (hws : ∀ w ∈ ws, 0x1000 ≤ w.length) :
    Returns (rtlDecompressFragment format dst src offset ws) (Lznt1Result.Sound dst ws) := by
  have hfail : ∀ status : NtStatus, status ≠ .success →
      (lznt1Fail status dst ws).Sound dst ws :=
    fun _ h => ⟨rfl, workspaceOk_refl ws, lznt1Fail_sizeOk _ _ _ h⟩
  unfold rtlDecompressFragment
  split
  · exact lznt1Decompress_safe dst src offset ws hws
  · exact .pure (hfail _ (by simp))
  · exact .pure (hfail _ (by simp))
  · exact .pure (hfail _ (by simp))

theorem rtlDecompressFragment_safe_example :
    (∀ w ∈ some (List.replicate 0x1000 (0 : UInt8)), 0x1000 ≤ w.length) ∧
    Returns (rtlDecompressFragment 2 (List.replicate 8 0) [0x04, 0xB0, 0x00, 87, 105, 110, 101] 2
      (some (List.replicate 0x1000 0)))
      (Lznt1Result.Sound (List.replicate 8 0) (some (List.replicate 0x1000 0))) := by
  have hws : ∀ w ∈ some (List.replicate 0x1000 (0 : UInt8)), 0x1000 ≤ w.length := by
    intro w hw
    rw [Option.mem_def, Option.some_inj] at hw
    rw [← hw, List.length_replicate]
  exact ⟨hws, rtlDecompressFragment_safe 2 _ _ 2 _ hws⟩

end Safety

/-! ## Compression followed by decompression -/

section RoundTrip

/-- The stream `lznt1_compress` writes for `x`: each piece of up to 4096 bytes behind the
header of an uncompressed chunk of its size. -/
def storedStream (x : List UInt8) : List UInt8 :=
  if x = [] then []
  else wordBytes (0x3000 ||| (min 0x1000 x.length - 1)) ++ x.take 0x1000 ++
    storedStream (x.drop 0x1000)
termination_by x.length
decreasing_by
  have := List.length_pos_of_ne_nil ‹_›
  simp only [List.length_drop]
  omega

@[simp] theorem storedStream_nil : storedStream [] = [] := by
  rw [storedStream, if_pos rfl]

theorem storedStream_of_ne_nil {x : List UInt8} (h : x ≠ []) :
    storedStream x = wordBytes (0x3000 ||| (min 0x1000 x.length - 1)) ++ x.take 0x1000 ++
      storedStream (x.drop 0x1000) := by
  rw [storedStream, if_neg h]

theorem length_storedStream (x : List UInt8) :
    (storedStream x).length = x.length + 2 * ((x.length + 0xfff) / 0x1000) := by
  induction x using storedStream.induct with
  | case1 => simp
  | case2 x h ih =>
    have hpos := List.length_pos_of_ne_nil h
    rw [storedStream_of_ne_nil h, List.length_append, List.length_append, ih]
    simp only [wordBytes, List.length_cons, List.length_nil, List.length_take, List.length_drop]
    omega

theorem storedHeader_mod {c : Nat} (hc : c < 0x1000) : (0x3000 ||| c) % 0x1000 = c := by
  rw [show (0x1000 : Nat) = 2 ^ 12 by rfl, Nat.or_mod_two_pow]
  simp [Nat.mod_eq_of_lt hc]

theorem storedHeader_and {c : Nat} (hc : c < 0x1000) : (0x3000 ||| c) &&& 0x8000 = 0 := by
  apply Nat.eq_of_testBit_eq
  intro i
  rw [Nat.testBit_and, Nat.zero_testBit, show (0x8000 : Nat) = 2 ^ 15 by rfl, Nat.testBit_two_pow]
  by_cases hi : i = 15
  · subst hi
    have hc15 : c.testBit 15 = false := Nat.testBit_lt_two_pow (by omega)
    have h15 : Nat.testBit 0x3000 15 = false := by decide
    simp [Nat.testBit_or, hc15, h15]
  · simp [Nat.testBit_or, Ne.symm hi]

theorem storedHeader_lt {c : Nat} (hc : c < 0x1000) : 0x3000 ||| c < 65536 :=
  Nat.or_lt_two_pow (n := 16) (by decide) (by omega)

theorem storedHeader_ne_zero (c : Nat) : 0x3000 ||| c ≠ 0 := by
  intro h
  have h12 := congrArg (Nat.testBit · 12) h
  have hbit : Nat.testBit 0x3000 12 = true := by decide
  simp [Nat.testBit_or, hbit] at h12

theorem storedStream_drop {src : List UInt8} {srcCur : Nat} (hin : srcCur < src.length) :
    storedStream (src.drop srcCur) =
      wordBytes (0x3000 ||| (min 0x1000 (src.length - srcCur) - 1)) ++
        (src.drop srcCur).take (min 0x1000 (src.length - srcCur)) ++
        storedStream (src.drop (srcCur + min 0x1000 (src.length - srcCur))) := by
  have hne : src.drop srcCur ≠ [] := by
    simp only [ne_eq, List.drop_eq_nil_iff]
    omega
  have htake : (src.drop srcCur).take 0x1000 =
      (src.drop srcCur).take (min 0x1000 (src.length - srcCur)) := by
    rw [List.take_eq_take_iff, List.length_drop]
    omega
  have hdrop : (src.drop srcCur).drop 0x1000 =
      src.drop (srcCur + min 0x1000 (src.length - srcCur)) := by
    rw [List.drop_drop]
    by_cases h : 0x1000 ≤ src.length - srcCur
    · rw [Nat.min_eq_left h]
    · rw [List.drop_eq_nil_of_le (by omega), List.drop_eq_nil_of_le (by omega)]
  rw [storedStream_of_ne_nil hne, htake, hdrop, List.length_drop]

/-- The compressor writes the stored stream of the rest of the input at `dst_cur`, given room
for it. -/
theorem compressChunks_stored (src : List UInt8) (ws : Option (List UInt8)) (srcCur : Nat)
    (dst : List UInt8) (dstCur : Nat) (hsrc : srcCur ≤ src.length)
    (hroom : dstCur + (storedStream (src.drop srcCur)).length ≤ dst.length) :
    compressChunks src srcCur dst dstCur ws =
      .ok (lznt1Out (unslice dst dstCur (storedStream (src.drop srcCur))) ws
        (dstCur + (storedStream (src.drop srcCur)).length)) := by
  induction srcCur, dst, dstCur using compressChunks.induct src with
  | case1 srcCur dst dstCur hin b hsmall =>
    have hb : min 0x1000 (src.length - srcCur) = b := rfl
    have hlen := length_storedStream (src.drop srcCur)
    rw [List.length_drop] at hlen
    omega
  | case2 srcCur dst dstCur hin b hfit ih =>
    have hb : min 0x1000 (src.length - srcCur) = b := rfl
    have hst := storedStream_drop hin
    rw [hb] at hst
    have hlen : (storedStream (src.drop srcCur)).length =
        2 + b + (storedStream (src.drop (srcCur + b))).length := by
      rw [hst]
      simp only [wordBytes, List.length_append, List.length_cons, List.length_nil,
        List.length_take, List.length_drop]
      omega
    generalize hwb : wordBytes (0x3000 ||| (b - 1)) = wb at hst
    generalize hch : (src.drop srcCur).take b = ch at hst
    generalize hrest : storedStream (src.drop (srcCur + b)) = rest at hst hlen ih
    have hwb2 : wb.length = 2 := by
      rw [← hwb]
      rfl
    have hchb : ch.length = b := by
      rw [← hch, List.length_take, List.length_drop]
      omega
    have hstore : storeU16 dst dstCur (0x3000 ||| (b - 1)) = .ok (unslice dst dstCur wb) := by
      rw [storeU16_eq_unslice (by omega), hwb]
    have hd₁ : (unslice dst dstCur wb).length = dst.length := unslice_length (by omega)
    have hcopy : copy (unslice dst dstCur wb) (dstCur + 2) src srcCur b =
        .ok (unslice (unslice dst dstCur wb) (dstCur + 2) ch) := by
      rw [copy_eq_unslice (by omega) (by omega), hch]
    have hd₂ : (unslice (unslice dst dstCur wb) (dstCur + 2) ch).length = dst.length := by
      rw [unslice_length (by omega), hd₁]
    have e₁ : unslice (unslice dst dstCur wb) (dstCur + 2) ch = unslice dst dstCur (wb ++ ch) := by
      rw [← hwb2, unslice_append (by omega)]
    have e₂ : unslice (unslice dst dstCur (wb ++ ch)) (dstCur + 2 + b) rest =
        unslice dst dstCur (wb ++ ch ++ rest) := by
      have hwc : dstCur + 2 + b = dstCur + (wb ++ ch).length := by
        rw [List.length_append, hwb2, hchb, Nat.add_assoc]
      rw [hwc, unslice_append (by rw [List.length_append]; omega)]
    rw [compressChunks, if_pos hin]
    dsimp only
    rw [if_neg hfit, hstore, ok_bind, hcopy, ok_bind, ih _ (by omega) (by omega), e₁, e₂, hst,
      List.length_append, List.length_append, hwb2, hchb]
    simp only [Nat.add_assoc]
  | case3 srcCur dst dstCur hin =>
    have hnil : src.drop srcCur = [] := List.drop_eq_nil_of_le (by omega)
    rw [compressChunks, if_neg hin, hnil, storedStream_nil, unslice_nil]
    rfl

/-- The third loop of the decompressor over a stored stream of `y`, from a 4096-byte boundary
of the output: each chunk is copied whole, no padding goes in, and the output receives `y`. -/
theorem remainingChunks_stored (src : List UInt8) (ws : Option (List UInt8)) (y : List UInt8) :
    ∀ srcCur (out : List UInt8) dstCur, src.drop srcCur = storedStream y →
      (y = [] ∨ dstCur % 0x1000 = 0) → dstCur + y.length ≤ out.length →
      remainingChunks src 0 srcCur out dstCur ws =
        .ok (lznt1Out (unslice out dstCur y) ws (dstCur + y.length)) := by
  induction y using storedStream.induct with
  | case1 =>
    intro srcCur out dstCur hsrc _ _
    have hend : ¬ srcCur + 2 ≤ src.length := by
      have hl := congrArg List.length hsrc
      rw [storedStream_nil, List.length_drop, List.length_nil] at hl
      omega
    rw [remainingChunks, if_neg hend, unslice_nil]
    rfl
  | case2 y hne ih =>
    intro srcCur out dstCur hsrc hal hroom
    have hpos := List.length_pos_of_ne_nil hne
    have hdst : dstCur % 0x1000 = 0 := hal.resolve_left hne
    generalize hb : min 0x1000 y.length = b
    generalize hyt : y.take 0x1000 = yt
    generalize hyr : y.drop 0x1000 = yr at ih
    have hytb : yt.length = b := by
      rw [← hyt, List.length_take, ← hb]
    have hyr' : yr.length = y.length - 0x1000 := by
      rw [← hyr, List.length_drop]
    rw [storedStream_of_ne_nil hne, hb, hyt, hyr] at hsrc
    have hsrc₂ : src.drop (srcCur + 2) = yt ++ storedStream yr := by
      rw [← List.drop_drop, hsrc, List.append_assoc]
      rfl
    have hsrc₃ : src.drop (srcCur + 2 + b) = storedStream yr := by
      rw [← List.drop_drop, hsrc₂, List.drop_left' hytb]
    have hsrcLen : srcCur + 2 + b ≤ src.length := by
      have hl := congrArg List.length hsrc₂
      rw [List.length_drop, List.length_append, hytb] at hl
      omega
    have hheader : loadU16 src srcCur = .ok (0x3000 ||| (b - 1)) :=
      loadU16_of_drop (by rw [hsrc, List.append_assoc]) (storedHeader_lt (by omega))
    have hsize : (0x3000 ||| (b - 1)) % 0x1000 + 1 = b := by
      rw [storedHeader_mod (by omega)]
      omega
    have hpad : padChunk out dstCur 0 = .ok (some (out, dstCur)) := by
      rw [padChunk, Nat.add_zero, hdst, if_neg (by decide)]
      rfl
    have hcopy : copy out dstCur src (srcCur + 2) b = .ok (unslice out dstCur yt) := by
      rw [copy_eq_unslice (by omega) (by omega), hsrc₂, List.take_left' hytb]
    have hlen₁ : (unslice out dstCur yt).length = out.length := unslice_length (by omega)
    have hal' : yr = [] ∨ (dstCur + b) % 0x1000 = 0 := by
      by_cases hy : y.length ≤ 0x1000
      · left
        rw [← hyr]
        exact List.drop_eq_nil_of_le hy
      · right
        omega
    have hrec := ih (srcCur + 2 + b) (unslice out dstCur yt) (dstCur + b) hsrc₃ hal' (by omega)
    have hjoin : unslice (unslice out dstCur yt) (dstCur + b) yr = unslice out dstCur y := by
      rw [← hytb, unslice_append (by omega), ← hyt, ← hyr, List.take_append_drop]
    rw [remainingChunks, if_pos (by omega), hheader, ok_bind, if_neg (storedHeader_ne_zero _)]
    dsimp only
    rw [hsize, if_neg (by omega), hpad, ok_bind]
    dsimp only
    rw [if_neg (by omega), if_neg (by rw [storedHeader_and (by omega)]; exact not_not_intro rfl),
      Nat.min_eq_left (by omega), hcopy, ok_bind, hrec, hjoin,
      show dstCur + b + yr.length = dstCur + y.length by omega]

end RoundTrip

end Wine.Ntdll
