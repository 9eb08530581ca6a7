import Wine.Lib.Memory

/-!
# Image data directories (`server/mapping.c`)

`get_section_sizes`, `load_data_dir` and the resource lookups of `get_image_params` that
read the version resource: `find_resource_id`, `find_resource_entry` and
`load_version_resource`. The file is its list of bytes and `pread` copies what the file has
of the requested range into the destination buffer; a buffer is the list of the bytes that
were allocated for it, so a `pread` or `memset` past its end is a fault. Sizes are `UInt64`
(`size_t`, `mem_size_t`) or `UInt32` (`DWORD`) as in the code; `malloc` is assumed to succeed.
-/

namespace Wine.Server

open Mem

set_option autoImplicit false

structure Section where
  virtualAddress : UInt32
  virtualSize : UInt32
  sizeOfRawData : UInt32
  pointerToRawData : UInt32
  deriving DecidableEq, Repr

structure DataDirectory where
  virtualAddress : UInt32
  size : UInt32
  deriving DecidableEq, Repr

def sectorAlign : UInt32 := 0x1ff
def rtVersion : Nat := 16

def roundSize (size mask : UInt64) : UInt64 := (size + mask) &&& ~~~mask

/-- `map_size`, `file_start` and `file_size` of a section. `SizeOfRawData` plus the sector
offset is a `DWORD` sum. -/
def getSectionSizes (sec : Section) (alignMask : UInt64) : UInt64 × Nat × UInt64 :=
  let mapSize :=
    if sec.virtualSize = 0 then roundSize sec.sizeOfRawData.toUInt64 alignMask
    else roundSize sec.virtualSize.toUInt64 alignMask
  let fileStart := (sec.pointerToRawData &&& ~~~sectorAlign).toNat
  let fileSize :=
    roundSize (sec.sizeOfRawData + (sec.pointerToRawData &&& sectorAlign)).toUInt64
      sectorAlign.toUInt64
  (mapSize, fileStart, min fileSize mapSize)

/-- `pread`: what the file holds of `count` bytes from `pos`. -/
def pread (file : List UInt8) (count pos : Nat) : List UInt8 := (file.drop pos).take count

/-- The loop of `load_data_dir` over the sections: the buffer after the read and the count
`pread` returned. -/
def loadDataDirSections (file dir : List UInt8) (dirSize va size alignMask : UInt64) :
    List Section → Run (List UInt8 × Nat)
  | [] => pure (dir, 0)
  | sec :: secs =>
    let secVa := sec.virtualAddress.toUInt64
    if va < secVa then loadDataDirSections file dir dirSize va size alignMask secs
    else if sec.virtualSize ≠ 0 ∧ sec.virtualSize.toUInt64 ≤ va - secVa then
      loadDataDirSections file dir dirSize va size alignMask secs
    else
      let sizes := getSectionSizes sec alignMask
      if sizes.1 ≤ size then loadDataDirSections file dir dirSize va size alignMask secs
      else if sizes.1 - size ≤ va - secVa then
        loadDataDirSections file dir dirSize va size alignMask secs
      else
        let size := min (min size dirSize) sizes.2.2
        let data := pread file size.toNat (sizes.2.1 + (va - secVa).toNat)
        copy dir 0 data 0 data.length >>= fun dir => pure (dir, data.length)

def loadDataDir (file dir : List UInt8) (dirSize va size alignMask : UInt64)
    (secs : List Section) : Run (List UInt8 × Nat) :=
  if va = 0 ∨ size = 0 then pure (dir, 0)
  else loadDataDirSections file dir dirSize va size alignMask secs

/-- `find_resource_id` from entry `i`, `n` entries to go; an entry is 8 bytes, the `Id` the
low half of its first `DWORD` and `DataIsDirectory` the top bit of its second. -/
def findResourceId (entries : List UInt8) (id : Nat) (wantDir : Bool) : Nat → Nat → Run Nat
  | 0, _ => pure 0
  | n + 1, i => do
    let entryId ← loadU16 entries (8 * i)
    let offsetToData ← loadU32 entries (8 * i + 4)
    if entryId = id ∧ decide (2 ^ 31 ≤ offsetToData) = wantDir then pure (offsetToData % 2 ^ 31)
    else findResourceId entries id wantDir n (i + 1)

/-- The language entry of a directory for `id = 0`: US English, then neutral, then the first
entry if it is not a directory. -/
def findLanguage (entries : List UInt8) (count : Nat) : Run Nat := do
  let english ← findResourceId entries 0x0409 false count 0
  if english ≠ 0 then pure english else do
  let neutral ← findResourceId entries 0x0000 false count 0
  if neutral ≠ 0 then pure neutral else do
  let first ← loadU32 entries 4
  pure (if first < 2 ^ 31 then first else 0)

def findResourceEntry (file : List UInt8) (secs : List Section) (alignMask : UInt64) (id : Nat)
    (data : DataDirectory) (offset : UInt64) : Run UInt64 :=
  let dataVa := data.virtualAddress.toUInt64
  let dataSize := data.size.toUInt64
  if dataSize ≤ offset then pure 0 else do
  let (res, ret) ← loadDataDir file (List.replicate 16 0) 16 (dataVa + offset) (dataSize - offset)
    alignMask secs
  if ret ≠ 16 then pure 0 else do
  let named ← loadU16 res 12
  let ids ← loadU16 res 14
  let offset := offset + UInt64.ofNat ret + UInt64.ofNat (named * 8)
  if dataSize ≤ offset then pure 0 else do
  let size := ids * 8
  let (entries, ret) ← loadDataDir file (List.replicate size 0) (UInt64.ofNat size)
    (dataVa + offset) (dataSize - offset) alignMask secs
  if 8 ≤ ret then
    let count := ret / 8
    if id = 0 then UInt64.ofNat <$> findLanguage entries count
    else UInt64.ofNat <$> findResourceId entries id true count 0
  else pure 0

/-- `load_version_resource`: `ver_len` and the buffer `ret_buf` keeps. -/
def loadVersionResource (file : List UInt8) (secs : List Section) (alignMask : UInt64)
    (data : DataDirectory) : Run (Nat × Option (List UInt8)) := do
  let offset ← findResourceEntry file secs alignMask rtVersion data 0
  if offset = 0 then pure (0, none) else do
  let offset ← findResourceEntry file secs alignMask 1 data offset
  if offset = 0 then pure (0, none) else do
  let offset ← findResourceEntry file secs alignMask 0 data offset
  if offset = 0 then pure (0, none) else do
  if data.size.toUInt64 ≤ offset then pure (0, none) else do
  let (entry, ret) ← loadDataDir file (List.replicate 16 0) 16
    (data.virtualAddress.toUInt64 + offset) (data.size.toUInt64 - offset) alignMask secs
  if ret ≠ 16 then pure (0, none) else do
  let offsetToData ← loadU32 entry 0
  let entrySize ← loadU32 entry 4
  -- `malloc( entry.Size + 3 )`: an `unsigned int` sum
  let buf := List.replicate ((entrySize + 3) % 2 ^ 32) (0 : UInt8)
  let (buf, ret) ← loadDataDir file buf (UInt64.ofNat entrySize) (UInt64.ofNat offsetToData)
    (UInt64.ofNat entrySize) alignMask secs
  if 0 < ret then do
    let buf ← if ret % 4 ≠ 0 then fill buf ret (4 - ret % 4) 0 else pure buf
    pure ((ret + 3) / 4 * 4, some buf)
  else pure (0, none)

theorem length_pread_le (file : List UInt8) (count pos : Nat) :
    (pread file count pos).length ≤ count :=
  List.length_take_le _ _

theorem loadDataDirSections_safe {file dir : List UInt8} {dirSize va size alignMask : UInt64}
    (hdir : dirSize.toNat ≤ dir.length) :
    ∀ secs : List Section, Returns (loadDataDirSections file dir dirSize va size alignMask secs)
      fun r => r.1.length = dir.length ∧ r.2 ≤ dirSize.toNat
  | [] => Returns.pure ⟨rfl, Nat.zero_le _⟩
  | sec :: secs => by
    have ih := @loadDataDirSections_safe file dir dirSize va size alignMask hdir secs
    unfold loadDataDirSections
    refine Returns.ite (fun _ => ih) fun _ => Returns.ite (fun _ => ih) fun _ =>
      Returns.ite (fun _ => ih) fun _ => Returns.ite (fun _ => ih) fun _ => ?_
    have hlen := length_pread_le file
      (min (min size dirSize) (getSectionSizes sec alignMask).2.2).toNat
      ((getSectionSizes sec alignMask).2.1 + (va - sec.virtualAddress.toUInt64).toNat)
    have hmin : (min (min size dirSize) (getSectionSizes sec alignMask).2.2).toNat ≤
        dirSize.toNat := by
      simp only [UInt64.toNat_min]
      omega
    refine Returns.bind (P := fun d => d.length = dir.length)
      (returns_copy (by omega) (by omega) fun _ h => h) fun dir' hdir' => ?_
    exact Returns.pure ⟨hdir', by omega⟩

theorem loadDataDir_safe {file dir : List UInt8} {dirSize va size alignMask : UInt64}
    {secs : List Section} (hdir : dirSize.toNat ≤ dir.length) :
    Returns (loadDataDir file dir dirSize va size alignMask secs)
      fun r => r.1.length = dir.length ∧ r.2 ≤ dirSize.toNat := by
  unfold loadDataDir
  exact Returns.ite (fun _ => Returns.pure ⟨rfl, Nat.zero_le _⟩)
    fun _ => loadDataDirSections_safe hdir secs

theorem loadDataDirSections_len {file dir : List UInt8} {dirSize va size alignMask : UInt64} :
    ∀ secs : List Section, Ensures (loadDataDirSections file dir dirSize va size alignMask secs)
      fun r => r.1.length = dir.length ∧ r.2 ≤ dir.length
  | [] => Ensures.pure ⟨rfl, Nat.zero_le _⟩
  | sec :: secs => by
    have ih := @loadDataDirSections_len file dir dirSize va size alignMask secs
    unfold loadDataDirSections
    dsimp only
    split_ifs
    · exact ih
    · exact ih
    · exact ih
    · exact ih
    · intro r hr
      obtain ⟨dir', hcopy, hr⟩ := bind_eq_ok.mp hr
      cases hr
      exact ⟨copy_length hcopy, by simpa using (copy_bounds hcopy).2⟩

theorem loadDataDir_len {file dir : List UInt8} {dirSize va size alignMask : UInt64}
    {secs : List Section} :
    Ensures (loadDataDir file dir dirSize va size alignMask secs)
      fun r => r.1.length = dir.length ∧ r.2 ≤ dir.length := by
  unfold loadDataDir
  split
  · exact Ensures.pure ⟨rfl, Nat.zero_le _⟩
  · exact loadDataDirSections_len secs

theorem findResourceId_safe {entries : List UInt8} {id : Nat} {wantDir : Bool} :
    ∀ n i, 8 * (i + n) ≤ entries.length →
      Returns (findResourceId entries id wantDir n i) fun _ => True
  | 0, _, _ => Returns.pure trivial
  | n + 1, i, h => by
    unfold findResourceId
    refine Returns.bind (returns_loadU16 (by omega) fun _ _ => trivial) fun _ _ => ?_
    refine Returns.bind (returns_loadU32 (by omega) fun _ _ => trivial) fun _ _ => ?_
    exact Returns.ite (fun _ => Returns.pure trivial)
      fun _ => findResourceId_safe n (i + 1) (by omega)

theorem findLanguage_safe {entries : List UInt8} {count : Nat} (hcount : 1 ≤ count)
    (hlen : 8 * count ≤ entries.length) : Returns (findLanguage entries count) fun _ => True := by
  unfold findLanguage
  refine Returns.bind (findResourceId_safe count 0 (by omega)) fun _ _ => ?_
  refine Returns.ite (fun _ => Returns.pure trivial) fun _ => ?_
  refine Returns.bind (findResourceId_safe count 0 (by omega)) fun _ _ => ?_
  refine Returns.ite (fun _ => Returns.pure trivial) fun _ => ?_
  exact Returns.bind (returns_loadU32 (by omega) fun _ _ => trivial) fun _ _ => Returns.pure trivial

/-- Looking a resource up never reads or writes outside the buffers the code allocates. -/
theorem findResourceEntry_safe (file : List UInt8) (secs : List Section) (alignMask : UInt64)
    (id : Nat) (data : DataDirectory) (offset : UInt64) :
    Returns (findResourceEntry file secs alignMask id data offset) fun _ => True := by
  unfold findResourceEntry
  refine Returns.ite (fun _ => Returns.pure trivial) fun _ => ?_
  refine Returns.bind (loadDataDir_safe (by decide)) fun ⟨res, ret⟩ ⟨hres, _⟩ => ?_
  simp only [List.length_replicate] at hres
  refine Returns.ite (fun _ => Returns.pure trivial) fun _ => ?_
  refine Returns.bind (returns_loadU16 (by omega) fun _ _ => trivial) fun named _ => ?_
  refine Returns.bind (P := fun w => w < 65536) (returns_loadU16 (by omega) fun _ h => h)
    fun ids hids => ?_
  refine Returns.ite (fun _ => Returns.pure trivial) fun _ => ?_
  have hsize : (UInt64.ofNat (ids * 8)).toNat ≤ (List.replicate (ids * 8) (0 : UInt8)).length := by
    simp only [List.length_replicate]
    exact Nat.mod_le _ _
  refine Returns.bind (loadDataDir_safe hsize) fun ⟨entries, ret⟩ ⟨hent, hret⟩ => ?_
  simp only [List.length_replicate] at hent hsize
  refine Returns.ite (fun h8 => ?_) fun _ => Returns.pure trivial
  have hcount : 8 * (ret / 8) ≤ entries.length := by omega
  split
  · exact Returns.map (findLanguage_safe (by omega) hcount) fun _ _ => trivial
  · exact Returns.map (findResourceId_safe _ 0 (by omega)) fun _ _ => trivial

def le32 (x : UInt32) : List UInt8 :=
  [x.toUInt8, (x >>> 8).toUInt8, (x >>> 16).toUInt8, (x >>> 24).toUInt8]

def resourceDirHeader : List UInt8 := List.replicate 12 0 ++ [0, 0, 1, 0]

/-- A resource tree of one version resource, language US English, whose data entry points at
the start of the section and declares `entrySize` bytes. -/
def versionResources (entrySize : UInt32) : List UInt8 :=
  resourceDirHeader ++ le32 16 ++ le32 0x80000018 ++
    resourceDirHeader ++ le32 1 ++ le32 0x80000030 ++
    resourceDirHeader ++ le32 0x409 ++ le32 0x48 ++
    le32 0x1000 ++ le32 entrySize ++ le32 0 ++ le32 0

/-- The section's virtual size rounds up to 4 GiB, so a 4 GiB read fits its mapping; its raw
data, the resources, start the file. -/
def hugeSection : Section := ⟨0x1000, 0xffffffff, 0x58, 0⟩

def versionDir : DataDirectory := ⟨0x1000, 0x58⟩

/-- A version entry of `0xfffffffd` bytes gets a buffer of `0xfffffffd + 3 = 0` bytes, into
which the section's bytes are read; one of `0x40` bytes is read whole. -/
theorem loadVersionResource_wrapped_buffer :
    loadVersionResource (versionResources 0xfffffffd) [hugeSection] 0xfff versionDir =
        .error .outOfBounds ∧
      (Prod.fst <$> loadVersionResource (versionResources 0x40) [hugeSection] 0xfff versionDir) =
        .ok 0x40 := by
  decide

end Wine.Server
