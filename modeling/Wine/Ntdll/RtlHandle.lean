import Wine.Status
import Wine.Lib.FreeList

/-! The RTL handle table of dlls/ntdll/handletable.c. The table reserves room for
MaxHandleCount handles of HandleSize bytes, commits it one page at a time, and threads the
handles of each new page into a free list through their Next words. Memory is a map from
addresses to the pointer-sized word stored there. NtAllocateVirtualMemory is taken to
succeed: the reservation returns the address base and rounds the size up to whole pages, and
every commit of a reserved page succeeds. -/

namespace Wine.Ntdll.RtlHandle

open Wine.Lib.FreeList

set_option autoImplicit false

def commitSize : Nat := 4096

/-- RTL_HANDLE_TABLE; a pointer is an address, 0 being NULL. -/
structure RtlHandleTable where
  maxHandleCount : Nat
  handleSize : Nat
  nextFree : Nat
  firstHandle : Nat
  reservedMemory : Nat
  maxHandle : Nat
  deriving DecidableEq, Repr

structure State where
  table : RtlHandleTable
  mem : Nat → Nat

def rtlInitializeHandleTable (maxHandleCount handleSize : Nat) : RtlHandleTable :=
  ⟨maxHandleCount, handleSize, 0, 0, 0, 0⟩

/-- The size NtAllocateVirtualMemory reserves and writes back: whole pages. -/
def roundSize (size : Nat) : Nat := (size + 4095) / 4096 * 4096

/-- The first block of RtlpAllocateSomeHandles: reserve the table on the first call. The
size is a ULONG product; NtAllocateVirtualMemory rejects a size of 0. -/
def reserveHandles (base : Nat) (t : RtlHandleTable) : Option RtlHandleTable :=
  if t.firstHandle = 0 then
    let maxSize := t.maxHandleCount * t.handleSize % 2 ^ 32
    if maxSize = 0 then none
    else
      some { t with
             firstHandle := base, reservedMemory := base, maxHandle := base + roundSize maxSize }
  else some t

/-- The loop of RtlpAllocateSomeHandles over the offsets of a committed page: each handle's
Next is the address one handle further. It returns the memory and FreeHandle, the last handle
written (0 if none). The fuel bounds the iterations, which are at most 4096 for a positive
HandleSize. -/
def commitLoop (handleSize reserved maxHandle : Nat) :
    Nat → Nat → (Nat → Nat) → Nat → (Nat → Nat) × Nat
  | 0, _, mem, freeHandle => (mem, freeHandle)
  | fuel + 1, offset, mem, freeHandle =>
    if offset < commitSize then
      if maxHandle ≤ reserved + offset then (mem, freeHandle)
      else commitLoop handleSize reserved maxHandle fuel (offset + handleSize)
        (Function.update mem (reserved + offset) (reserved + offset + handleSize))
        (reserved + offset)
    else (mem, freeHandle)

/-- The second block of RtlpAllocateSomeHandles: commit the next page, thread its handles
into the free list and end the list with NULL. -/
def commitHandles (st : State) : NtStatus × State :=
  let t := st.table
  if t.maxHandle ≤ t.reservedMemory then (.noMemory, st)
  else
    let r := commitLoop t.handleSize t.reservedMemory t.maxHandle (commitSize + 1) 0 st.mem 0
    if r.2 = 0 then (.noMemory, st)
    else
      (.success,
        ⟨{ t with
           nextFree := t.reservedMemory, reservedMemory := t.reservedMemory + commitSize },
          Function.update r.1 r.2 0⟩)

def rtlpAllocateSomeHandles (base : Nat) (st : State) : NtStatus × State :=
  match reserveHandles base st.table with
  | none => (.invalidParameter, st)
  | some t => if t.nextFree = 0 then commitHandles ⟨t, st.mem⟩ else (.success, ⟨t, st.mem⟩)

/-- The index RtlAllocateHandle reports: the byte offset over HandleSize, cast to ULONG. -/
def handleIndex (t : RtlHandleTable) (handle : Nat) : Nat :=
  (handle - t.firstHandle) / t.handleSize % 2 ^ 32

/-- RtlAllocateHandle: the handle and its index, or none for NULL. -/
def rtlAllocateHandle (base : Nat) (st : State) : Option (Nat × Nat) × State :=
  let r := if st.table.nextFree = 0 then rtlpAllocateSomeHandles base st else (.success, st)
  if r.1 ≠ .success then (none, r.2)
  else
    let t := r.2.table
    (some (t.nextFree, handleIndex t t.nextFree),
      { r.2 with table := { t with nextFree := r.2.mem t.nextFree } })

/-- RtlFreeHandle: clear the handle's bytes and push it on the free list. -/
def rtlFreeHandle (st : State) (handle : Nat) : State :=
  let mem := fun a => if handle ≤ a ∧ a < handle + st.table.handleSize then 0 else st.mem a
  ⟨{ st.table with nextFree := handle }, Function.update mem handle st.table.nextFree⟩

def rtlIsValidHandle (st : State) (handle : Nat) : Bool :=
  st.table.firstHandle ≤ handle && handle < st.table.reservedMemory &&
    handle &&& ((st.table.handleSize + 2 ^ 32 - 1) % 2 ^ 32) == 0 && st.mem handle % 2 == 1

/-- RtlIsValidIndexHandle; the offset is a ULONG product. -/
def rtlIsValidIndexHandle (st : State) (index : Nat) : Option Nat :=
  let handle := st.table.firstHandle + index * st.table.handleSize % 2 ^ 32
  if rtlIsValidHandle st handle then some handle else none

/-- What a caller does with a handle it gets: set bit 0 of its Next word. -/
def rtlpMakeHandleAllocated (st : State) (handle : Nat) : State :=
  { st with mem := Function.update st.mem handle (st.mem handle ||| 1) }

/-- A caller that allocates n handles in a row and marks each one. -/
def allocateMarked (base : Nat) : Nat → State → List (Option (Nat × Nat)) × State
  | 0, st => ([], st)
  | n + 1, st =>
    let r := rtlAllocateHandle base st
    let st := match r.1 with
      | some (handle, _) => rtlpMakeHandleAllocated r.2 handle
      | none => r.2
    let rest := allocateMarked base n st
    (r.1 :: rest.1, rest.2)

/-! The handles of a committed page. -/

/-- The handles of the page at reserved, from the i-th: offsets i * s up to the last one
below 4096, which is the one of index 4095 / s. -/
def pageFrom (reserved s i : Nat) : List Nat :=
  (List.range' i (4095 / s + 1 - i)).map fun k => reserved + k * s

theorem lt_commitSize_iff {s : Nat} (hs : 0 < s) (k : Nat) :
    k * s < commitSize ↔ k ≤ 4095 / s := by
  rw [Nat.le_div_iff_mul_le hs, commitSize]
  omega

theorem offset_inj {s : Nat} (hs : 0 < s) {reserved i k : Nat}
    (h : reserved + i * s = reserved + k * s) : i = k :=
  Nat.eq_of_mul_eq_mul_right hs (by omega)

/-- The loop links every handle of the page from the j-th on to the next address, writes
nothing else, and leaves FreeHandle at the last handle of the page. -/
theorem commitLoop_spec {s reserved maxHandle : Nat} (hs : 0 < s)
    (hroom : reserved + commitSize ≤ maxHandle) :
    ∀ fuel j mem last, 4095 / s + 1 ≤ j + fuel →
      (∀ i, j ≤ i → i ≤ 4095 / s →
          (commitLoop s reserved maxHandle fuel (j * s) mem last).1 (reserved + i * s) =
            reserved + i * s + s) ∧
      (∀ a, (∀ i, j ≤ i → i ≤ 4095 / s → a ≠ reserved + i * s) →
          (commitLoop s reserved maxHandle fuel (j * s) mem last).1 a = mem a) ∧
      (commitLoop s reserved maxHandle fuel (j * s) mem last).2 =
        if j ≤ 4095 / s then reserved + 4095 / s * s else last := by
  intro fuel
  induction fuel with
  | zero =>
    intro j mem last hfuel
    refine ⟨fun i hi hi' => absurd hi' (by omega), fun a _ => rfl, ?_⟩
    rw [if_neg (by omega)]
    rfl
  | succ fuel ih =>
    intro j mem last hfuel
    by_cases hj : j ≤ 4095 / s
    · have hlt : j * s < commitSize := (lt_commitSize_iff hs j).2 hj
      have hstep : commitLoop s reserved maxHandle (fuel + 1) (j * s) mem last =
          commitLoop s reserved maxHandle fuel ((j + 1) * s)
            (Function.update mem (reserved + j * s) (reserved + j * s + s)) (reserved + j * s) := by
        rw [commitLoop, if_pos hlt, if_neg (by rw [commitSize] at hlt hroom; omega), Nat.succ_mul]
      obtain ⟨hlink, hframe, hlast⟩ := ih (j + 1) _ _ (by omega)
      rw [hstep]
      refine ⟨fun i hi hi' => ?_, fun a ha => ?_, ?_⟩
      · rcases Nat.eq_or_lt_of_le hi with rfl | hi
        · rw [hframe _ (fun k hk _ e => by have := offset_inj hs e; omega),
            Function.update_self]
        · exact hlink i hi hi'
      · rw [hframe a (fun k hk hk' => ha k (by omega) hk'),
          Function.update_of_ne (ha j le_rfl hj)]
      · rw [hlast, if_pos hj]
        split_ifs with h
        · rfl
        · rw [show j = 4095 / s by omega]
    · have hge : ¬ j * s < commitSize := fun h => hj ((lt_commitSize_iff hs j).1 h)
      refine ⟨fun i hi hi' => absurd hi' (by omega), fun a _ => ?_, ?_⟩
      · rw [commitLoop, if_neg hge]
      · rw [commitLoop, if_neg hge, if_neg hj]

theorem pageFrom_of_le {reserved s i : Nat} (h : i ≤ 4095 / s) :
    pageFrom reserved s i = (reserved + i * s) :: pageFrom reserved s (i + 1) := by
  rw [pageFrom, pageFrom, show 4095 / s + 1 - i = (4095 / s + 1 - (i + 1)) + 1 by omega,
    List.range'_succ, List.map_cons]

theorem pageFrom_of_lt {reserved s i : Nat} (h : 4095 / s < i) : pageFrom reserved s i = [] := by
  rw [pageFrom, show 4095 / s + 1 - i = 0 by omega]
  rfl

theorem threads_pageFrom {s reserved : Nat} (hres : 0 < reserved) (mem : Nat → Nat)
    (hlink : ∀ i, i < 4095 / s → mem (reserved + i * s) = reserved + i * s + s)
    (hnull : mem (reserved + 4095 / s * s) = 0) :
    ∀ k i, i + k = 4095 / s → Threads mem (reserved + i * s) (pageFrom reserved s i) := by
  intro k
  induction k with
  | zero =>
    intro i hi
    rw [pageFrom_of_le (by omega), pageFrom_of_lt (by omega), threads_cons, threads_nil,
      show i = 4095 / s by omega]
    exact ⟨rfl, by omega, hnull⟩
  | succ k ih =>
    intro i hi
    rw [pageFrom_of_le (by omega), threads_cons, hlink i (by omega)]
    refine ⟨rfl, by omega, ?_⟩
    rw [show reserved + i * s + s = reserved + (i + 1) * s by rw [Nat.succ_mul]; omega]
    exact ih (i + 1) (by omega)

theorem commitHandles_spec (st : State) (hs : 0 < st.table.handleSize)
    (hres : 0 < st.table.reservedMemory)
    (hroom : st.table.reservedMemory + commitSize ≤ st.table.maxHandle) :
    ∃ mem, commitHandles st = (.success,
        ⟨{ st.table with
           nextFree := st.table.reservedMemory,
           reservedMemory := st.table.reservedMemory + commitSize }, mem⟩) ∧
      Threads mem st.table.reservedMemory
        (pageFrom st.table.reservedMemory st.table.handleSize 0) := by
  obtain ⟨hlink, -, hlast⟩ := commitLoop_spec hs hroom (commitSize + 1) 0 st.mem 0
    (by rw [commitSize]; have := Nat.div_le_self 4095 st.table.handleSize; omega)
  rw [Nat.zero_mul, if_pos (Nat.zero_le _)] at hlast
  rw [Nat.zero_mul] at hlink
  set r := commitLoop st.table.handleSize st.table.reservedMemory st.table.maxHandle
    (commitSize + 1) 0 st.mem 0 with hr
  have hfull : ¬ st.table.maxHandle ≤ st.table.reservedMemory := by
    rw [commitSize] at hroom
    omega
  refine ⟨Function.update r.1 r.2 0, ?_, ?_⟩
  · rw [commitHandles, if_neg hfull, ← hr, if_neg (by rw [hlast]; omega)]
  · have hpage := threads_pageFrom hres (Function.update r.1 r.2 0)
      (fun i hi => by
        rw [Function.update_of_ne (fun e => by rw [hlast] at e; have := offset_inj hs e; omega)]
        exact hlink i (Nat.zero_le i) hi.le)
      (by rw [← hlast, Function.update_self]) (4095 / st.table.handleSize) 0 (Nat.zero_add _)
    rwa [Nat.zero_mul, Nat.add_zero] at hpage

theorem rtlAllocateHandle_of_ne_zero (base : Nat) {st : State} (h : st.table.nextFree ≠ 0) :
    rtlAllocateHandle base st = (some (st.table.nextFree, handleIndex st.table st.table.nextFree),
      { st with table := { st.table with nextFree := st.mem st.table.nextFree } }) := by
  simp [rtlAllocateHandle, h]

theorem rtlAllocateHandle_of_refill (base : Nat) {st st' : State} (h : st.table.nextFree = 0)
    (hrefill : rtlpAllocateSomeHandles base st = (.success, st'))
    (h' : st'.table.nextFree ≠ 0) :
    rtlAllocateHandle base st = rtlAllocateHandle base st' := by
  simp [rtlAllocateHandle, h, h', hrefill]

theorem allocateMarked_add (base : Nat) (n k : Nat) (st : State) :
    allocateMarked base (n + k) st =
      ((allocateMarked base n st).1 ++ (allocateMarked base k (allocateMarked base n st).2).1,
        (allocateMarked base k (allocateMarked base n st).2).2) := by
  induction n generalizing st with
  | zero => simp [allocateMarked]
  | succ n ih =>
    rw [show n + 1 + k = (n + k) + 1 by omega]
    simp only [allocateMarked, ih, List.cons_append]

theorem allocateMarked_congr (base n : Nat) {st st' : State}
    (h : rtlAllocateHandle base st = rtlAllocateHandle base st') :
    allocateMarked base (n + 1) st = allocateMarked base (n + 1) st' := by
  simp only [allocateMarked, h]

theorem allocateMarked_threads (base : Nat) :
    ∀ (l : List Nat) (n : Nat) (st : State), Threads st.mem st.table.nextFree l → l.Nodup →
      n ≤ l.length →
      (allocateMarked base n st).1 = (l.take n).map (fun h => some (h, handleIndex st.table h)) ∧
        (allocateMarked base n st).2.table = { st.table with nextFree := (l.drop n).headD 0 } ∧
        Threads (allocateMarked base n st).2.mem ((l.drop n).headD 0) (l.drop n) := by
  intro l n
  induction n generalizing l with
  | zero =>
    intro st hl _ _
    simp only [allocateMarked, List.take_zero, List.map_nil, List.drop_zero, true_and]
    rw [← hl.head_eq]
    exact ⟨rfl, hl⟩
  | succ n ih =>
    intro st hl hnd hlen
    rcases l with _ | ⟨c, l⟩
    · exact absurd hlen (by simp)
    obtain ⟨hhead, hc, hrest⟩ := hl
    have hpop := rtlAllocateHandle_of_ne_zero base
      (show st.table.nextFree ≠ 0 by rw [hhead]; exact hc)
    have hnot : c ∉ l := (List.nodup_cons.1 hnd).1
    set st' : State := rtlpMakeHandleAllocated
      { st with table := { st.table with nextFree := st.mem c } } c with hst'
    have hl' : Threads st'.mem st'.table.nextFree l := hrest.update hnot _
    obtain ⟨h1, h2, h3⟩ := ih l st' hl' (List.nodup_cons.1 hnd).2 (by simp at hlen; omega)
    have hrun : allocateMarked base (n + 1) st =
        (some (c, handleIndex st.table c) :: (allocateMarked base n st').1,
          (allocateMarked base n st').2) := by
      simp only [allocateMarked, hpop, hhead, hst']
    rw [hrun]
    refine ⟨?_, ?_, ?_⟩
    · rw [h1]
      rfl
    · rw [h2]
      rfl
    · exact h3

theorem nodup_pageFrom {reserved s : Nat} (hs : 0 < s) (i : Nat) :
    (pageFrom reserved s i).Nodup :=
  (List.nodup_range').map (fun _ _ e => offset_inj hs e)

theorem length_pageFrom (reserved s : Nat) : (pageFrom reserved s 0).length = 4095 / s + 1 := by
  simp [pageFrom]

theorem handleIndex_pageFrom {t : RtlHandleTable} {first s k : Nat} (hs : 0 < s)
    (hfirst : t.firstHandle = first) (hsize : t.handleSize = s) (hk : k ≤ 4095 / s) :
    handleIndex t (first + k * s) = k := by
  have hk' : k < 2 ^ 32 := by have := Nat.div_le_self 4095 s; omega
  rw [handleIndex, hfirst, hsize, Nat.add_sub_cancel_left, Nat.mul_div_cancel k hs,
    Nat.mod_eq_of_lt hk']

theorem roundSize_ge (size : Nat) : size ≤ roundSize size := by
  unfold roundSize
  omega

theorem refill_fresh {base maxCount s : Nat} (hbase : 0 < base) (hs : 0 < s)
    (hmax : commitSize < maxCount * s) (hfit : maxCount * s < 2 ^ 32) (mem : Nat → Nat) :
    ∃ mem', rtlpAllocateSomeHandles base ⟨rtlInitializeHandleTable maxCount s, mem⟩ =
        (.success, ⟨⟨maxCount, s, base, base, base + commitSize, base + roundSize (maxCount * s)⟩,
          mem'⟩) ∧
      Threads mem' base (pageFrom base s 0) := by
  have hsize : maxCount * s % 2 ^ 32 = maxCount * s := Nat.mod_eq_of_lt hfit
  have hround := roundSize_ge (maxCount * s)
  have hreserve : reserveHandles base (rtlInitializeHandleTable maxCount s) =
      some ⟨maxCount, s, 0, base, base, base + roundSize (maxCount * s)⟩ := by
    have hne : maxCount * s ≠ 0 := by rw [commitSize] at hmax; omega
    simp only [reserveHandles, rtlInitializeHandleTable, hsize, hne, if_true, if_false]
  obtain ⟨mem', hcommit, hthreads⟩ := commitHandles_spec
    ⟨⟨maxCount, s, 0, base, base, base + roundSize (maxCount * s)⟩, mem⟩ hs hbase
    (by rw [commitSize] at hmax ⊢; unfold roundSize at hround ⊢; dsimp only; omega)
  exact ⟨mem', by rw [rtlpAllocateSomeHandles, hreserve]; exact hcommit, hthreads⟩

theorem refill_next (base : Nat) (st : State) (hfirst : st.table.firstHandle ≠ 0)
    (hfree : st.table.nextFree = 0) (hs : 0 < st.table.handleSize)
    (hres : 0 < st.table.reservedMemory)
    (hroom : st.table.reservedMemory + commitSize ≤ st.table.maxHandle) :
    ∃ mem', rtlpAllocateSomeHandles base st =
        (.success, ⟨{ st.table with
                      nextFree := st.table.reservedMemory,
                      reservedMemory := st.table.reservedMemory + commitSize }, mem'⟩) ∧
      Threads mem' st.table.reservedMemory
        (pageFrom st.table.reservedMemory st.table.handleSize 0) := by
  obtain ⟨mem', hcommit, hthreads⟩ := commitHandles_spec st hs hres hroom
  refine ⟨mem', ?_, hthreads⟩
  rw [rtlpAllocateSomeHandles, reserveHandles, if_neg hfirst]
  simp only [hfree, if_true]
  exact hcommit

/-- When HandleSize does not divide the page size, the last handle of the first page runs
past the page, into memory that is not committed when it is handed out; the first handle of
the next commit starts inside it and gets the same index. -/
theorem rtlAllocateHandle_overlapping_handles {base maxCount s : Nat} (hbase : 0 < base)
    (hs : 0 < s) (hpage : ¬ s ∣ 4096) (hmax : 4096 < maxCount * s)
    (hfit : maxCount * s < 2 ^ 32) (mem : Nat → Nat) :
    (allocateMarked base (4096 / s + 2) ⟨rtlInitializeHandleTable maxCount s, mem⟩).1[4096 / s]? =
        some (some (base + 4096 / s * s, 4096 / s)) ∧
      (allocateMarked base (4096 / s + 2)
          ⟨rtlInitializeHandleTable maxCount s, mem⟩).1[4096 / s + 1]? =
        some (some (base + 4096, 4096 / s)) ∧
      (allocateMarked base (4096 / s + 1)
          ⟨rtlInitializeHandleTable maxCount s, mem⟩).2.table.reservedMemory = base + 4096 ∧
      base + 4096 / s * s < base + 4096 ∧ base + 4096 < base + 4096 / s * s + s := by
  have hdiv : 4096 / s = 4095 / s := by
    rw [show 4096 = 4095 + 1 from rfl, Nat.succ_div, if_neg hpage, Nat.add_zero]
  have hlt : 4096 / s * s < 4096 := Nat.lt_of_le_of_ne (Nat.div_mul_le_self 4096 s)
    (fun e => hpage ⟨4096 / s, by rw [Nat.mul_comm]; exact e.symm⟩)
  have hgt : 4096 < 4096 / s * s + s := by
    have := Nat.lt_div_mul_add (a := 4096) hs
    omega
  have hround := roundSize_ge (maxCount * s)
  -- the first page: the fresh table is reserved and its first page threaded
  obtain ⟨mem1, hrefill1, hthreads1⟩ := refill_fresh hbase hs hmax hfit mem
  set st1 : State :=
    ⟨⟨maxCount, s, base, base, base + commitSize, base + roundSize (maxCount * s)⟩, mem1⟩ with hst1
  have hrun1 : allocateMarked base (4096 / s + 1) ⟨rtlInitializeHandleTable maxCount s, mem⟩ =
      allocateMarked base (4096 / s + 1) st1 :=
    allocateMarked_congr base _ (rtlAllocateHandle_of_refill base rfl hrefill1 hbase.ne')
  obtain ⟨hres1, htable1, hthreadsA⟩ := allocateMarked_threads base (pageFrom base s 0)
    (4096 / s + 1) st1 hthreads1 (nodup_pageFrom hs 0)
    (by rw [length_pageFrom, hdiv])
  have hdrop : (pageFrom base s 0).drop (4096 / s + 1) = [] :=
    List.drop_of_length_le (by rw [length_pageFrom, hdiv])
  rw [hdrop] at htable1
  rw [← hrun1] at hres1 htable1
  set A := allocateMarked base (4096 / s + 1) ⟨rtlInitializeHandleTable maxCount s, mem⟩ with hA
  -- the next allocation finds the free list empty and commits the page at base + 4096
  have hroom : A.2.table.reservedMemory + commitSize ≤ A.2.table.maxHandle := by
    rw [htable1]
    simp only [st1, commitSize]
    unfold roundSize at hround ⊢
    omega
  have hsA : 0 < A.2.table.handleSize := by rw [htable1]; exact hs
  obtain ⟨mem2, hrefill2, hthreads2⟩ := refill_next base A.2
    (by rw [htable1]; simp only [st1]; omega) (by rw [htable1]; rfl) hsA
    (by rw [htable1]; simp only [st1]; omega) hroom
  have hres2 : A.2.table.reservedMemory = base + 4096 := by
    rw [htable1]
    rfl
  have hB : (allocateMarked base 1 A.2).1 =
      [some (base + 4096, 4096 / s)] := by
    rw [allocateMarked_congr base 0 (rtlAllocateHandle_of_refill base (by rw [htable1]; rfl)
      hrefill2 (by simp only; omega))]
    have hpop := (allocateMarked_threads base
      (pageFrom A.2.table.reservedMemory A.2.table.handleSize 0) 1
      ⟨{ A.2.table with
         nextFree := A.2.table.reservedMemory,
         reservedMemory := A.2.table.reservedMemory + commitSize }, mem2⟩ hthreads2
      (nodup_pageFrom hsA 0) (by rw [length_pageFrom]; exact Nat.le_add_left 1 _)).1
    rw [hpop, pageFrom_of_le (Nat.zero_le _), List.take_succ_cons, List.take_zero,
      List.map_singleton]
    have hfirstA : A.2.table.firstHandle = base := by rw [htable1]
    have hsizeA : A.2.table.handleSize = s := by rw [htable1]
    have hidx : 4096 / s < 2 ^ 32 := by have := Nat.div_le_self 4096 s; omega
    simp only [Nat.zero_mul, Nat.add_zero, hres2, handleIndex, hfirstA, hsizeA,
      Nat.add_sub_cancel_left, Nat.mod_eq_of_lt hidx]
  have hlenA : A.1.length = 4096 / s + 1 := by
    rw [hres1, List.length_map, List.length_take, length_pageFrom, hdiv, Nat.min_self]
  have hlast : A.1[4096 / s]? = some (some (base + 4096 / s * s, 4096 / s)) := by
    have hk : 4096 / s ≤ 4095 / s := hdiv.le
    rw [hres1, List.getElem?_map, List.getElem?_take_of_lt (Nat.lt_succ_self _), pageFrom,
      List.getElem?_map, List.getElem?_range' (by omega), Nat.zero_add, Nat.one_mul,
      Option.map_some, Option.map_some, handleIndex_pageFrom (t := st1.table) hs rfl rfl hk]
  rw [show 4096 / s + 2 = (4096 / s + 1) + 1 from rfl, allocateMarked_add, ← hA]
  refine ⟨?_, ?_, hres2, by omega, by omega⟩
  · rw [List.getElem?_append_left (by omega), hlast]
  · rw [List.getElem?_append_right (by omega), hB, hlenA, Nat.sub_self]
    rfl

theorem handles_24_overlap :
    (allocateMarked 0x10000 (4096 / 24 + 2) ⟨rtlInitializeHandleTable 256 24, fun _ => 0⟩).1[4096 / 24]? =
        some (some (0x10000 + 4096 / 24 * 24, 4096 / 24)) ∧
      (allocateMarked 0x10000 (4096 / 24 + 2)
          ⟨rtlInitializeHandleTable 256 24, fun _ => 0⟩).1[4096 / 24 + 1]? =
        some (some (0x10000 + 4096, 4096 / 24)) ∧
      (allocateMarked 0x10000 (4096 / 24 + 1)
          ⟨rtlInitializeHandleTable 256 24, fun _ => 0⟩).2.table.reservedMemory = 0x10000 + 4096 ∧
      0x10000 + 4096 / 24 * 24 < 0x10000 + 4096 ∧ 0x10000 + 4096 < 0x10000 + 4096 / 24 * 24 + 24 :=
  rtlAllocateHandle_overlapping_handles (by decide) (by decide) (by decide) (by decide) (by decide) _

end Wine.Ntdll.RtlHandle
