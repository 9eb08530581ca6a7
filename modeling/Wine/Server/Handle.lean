import Wine.Lib.Memory
import Wine.Status

/-!
# Server handle tables (`server/handle.c`)

A process table and the global table are `struct handle_table`s: `count` allocated entries,
the `last` used one and a `free` hint. Global handles are table handles XORed with
`HANDLE_OBFUSCATOR`. The `close_handle` operation of an object is chosen by its type
(`ObjectType`): most return 1, the window station and desktop ones refuse a handle in use, and
`job_close_handle` on the last handle of a job with `JOB_OBJECT_LIMIT_KILL_ON_JOB_CLOSE`
terminates the job, whose processes then lose their tables through `close_process_handles`,
which calls the operation again for each of their entries. `map_access` and the access check
of `token.c` stay parameters (`Env`); `obj->handle_count` is kept per object, the reference
count and the per-type statistics are not modelled. Memory allocation is assumed to succeed.
Entry accesses are checked against the table, a `NULL` process is a fault.

Names: `allocHandleTable`, `growHandleTable`, `allocEntry`, `allocHandleEntry`,
`allocHandleNoAccessCheck`, `allocHandle`, `allocGlobalHandleNoAccessCheck`,
`allocGlobalHandle`, `getHandle`, `shrinkHandleTable`, `inheritHandle`, `copyHandleTable`,
`closeHandle`, `getHandleObj`, `setHandleFlags`, `duplicateHandle`, `closeProcessHandles`,
`terminateJob`, `terminateProcess`.
-/

namespace Wine.Server

open Mem

set_option autoImplicit false

structure HandleEntry where
  ptr : Option Nat
  access : UInt32
  deriving DecidableEq, Repr

/-- An entry the code has not written: its object pointer is `NULL` for all that matters. -/
def HandleEntry.unset : HandleEntry := ⟨none, 0⟩

structure HandleTable where
  count : Nat
  last : Int
  free : Nat
  entries : List HandleEntry
  deriving Repr

inductive TableId where
  | process (p : Nat)
  | global
  deriving DecidableEq, Repr

/-- Server state: each process's `handles` (`NULL` before creation and after exit), the
`global_table`, `obj->handle_count` of every object, and the error set by `set_error`. -/
structure State where
  handles : Nat → Option HandleTable
  globalTable : Option HandleTable
  handleCount : Nat → Nat
  error : NtStatus

/-- The `close_handle` operation of an object's type: `no_close_handle` and every callback that
acts on the object alone (files, sockets, keys, completions, consoles) return 1. -/
inductive ObjectType where
  | plain
  | winstation
  | desktop
  | job (id : Nat)
  deriving DecidableEq, Repr

/-- What `terminate_job` reads of a `struct job`. -/
structure Job where
  killOnClose : Bool
  childJobs : List Nat
  processes : List Nat

/-- The object and process data the handle code reads, the access checks it calls, and the
depth to which the model follows callbacks that set off further closes. `running` is
`process->running_threads != 0` when the request starts, `consoleClients` the processes
attached to a console that one of the process's threads renders, `desktops` the process's
desktop and those of its threads. -/
structure Env where
  mapAccess : Nat → UInt32 → UInt32
  objectType : Nat → ObjectType
  jobs : Nat → Job
  running : Nat → Bool
  consoleClients : Nat → List Nat
  winstation : Nat → UInt32
  desktops : Nat → List UInt32
  checkObjectAccess : Option Nat → Nat → UInt32 → Option UInt32
  currentToken : Option Nat
  processToken : Nat → Nat
  magicHandle : UInt32 → Option Nat
  depth : Nat

def reservedShift : Nat := 26
def reservedInherit : UInt32 := (1 : UInt32) <<< 26
def reservedCloseProtect : UInt32 := (2 : UInt32) <<< 26
def reservedAll : UInt32 := reservedInherit ||| reservedCloseProtect
def minHandleEntries : Nat := 32
def maxHandleEntries : Nat := 0x00ffffff
def handleObfuscator : UInt32 := 0x544a4def

def objInherit : UInt32 := 0x00000002
def duplicateCloseSource : UInt32 := 0x00000001
def duplicateSameAccess : UInt32 := 0x00000002
def duplicateSameAttributes : UInt32 := 0x00000004
def duplicateMakeGlobal : UInt32 := 0x80000000

def indexToHandle (index : Nat) : UInt32 := UInt32.ofNat ((index + 1) * 4)

/-- `(handle >> 2) - 1`, computed unsigned and read back as an `int`. -/
def handleToIndex (handle : UInt32) : Int := (handle.toNat / 4 : Int) - 1

def handleIsGlobal (handle : UInt32) : Bool :=
  (handle ^^^ handleObfuscator).toNat ≤ maxHandleEntries * 4

def handleLocalToGlobal (handle : UInt32) : UInt32 :=
  if handle = 0 then 0 else handle ^^^ handleObfuscator

def handleGlobalToLocal (handle : UInt32) : UInt32 := handle ^^^ handleObfuscator

namespace State

def table (s : State) : TableId → Option HandleTable
  | .process p => s.handles p
  | .global => s.globalTable

def setTable (s : State) : TableId → HandleTable → State
  | .process p, t => { s with handles := Function.update s.handles p (some t) }
  | .global, t => { s with globalTable := some t }

def setError (s : State) (status : NtStatus) : State := { s with error := status }

/-- `grab_object_for_handle` -/
def grab (s : State) (obj : Nat) : State :=
  { s with handleCount := Function.update s.handleCount obj (s.handleCount obj + 1) }

/-- `release_object_from_handle` -/
def release (s : State) (obj : Nat) : State :=
  { s with handleCount := Function.update s.handleCount obj (s.handleCount obj - 1) }

end State

/-- `realloc` of the entry array to `count` entries; new entries are not written. -/
def reallocEntries (entries : List HandleEntry) (count : Nat) : List HandleEntry :=
  entries.take count ++ List.replicate (count - entries.length) .unset

/-- The table with its array reallocated to `count` entries and `count` stored. -/
def HandleTable.resize (t : HandleTable) (count : Nat) : HandleTable :=
  { t with count := count, entries := reallocEntries t.entries count }

def allocHandleTable (count : Nat) : HandleTable :=
  let count := max count minHandleEntries
  ⟨count, -1, 0, List.replicate count .unset⟩

def growHandleTable (t : HandleTable) : Option HandleTable :=
  let count := min (t.count * 2) maxHandleEntries
  if count = t.count then none
  else some (t.resize count)

/-- The scan of `alloc_entry` over the `n` entries from `i`: whether it stopped at a free
entry, and the index where it stopped. -/
def findFreeEntry (entries : List HandleEntry) (i : Nat) : Nat → Run (Bool × Nat)
  | 0 => pure (false, i)
  | n + 1 => do
    let e ← load entries i
    if e.ptr = none then pure (true, i) else findFreeEntry entries (i + 1) n

/-- Write the new entry at `i` once `alloc_entry` has its slot (the `found:` label). -/
def fillEntry (s : State) (tid : TableId) (t : HandleTable) (i obj : Nat) (access : UInt32) :
    Run (State × UInt32) := do
  let entries ← store t.entries i ⟨some obj, access⟩
  pure ((s.grab obj).setTable tid { t with free := i + 1, entries := entries }, indexToHandle i)

def allocEntry (s : State) (tid : TableId) (t : HandleTable) (obj : Nat) (access : UInt32) :
    Run (State × UInt32) := do
  let (found, i) ← findFreeEntry t.entries t.free (t.last + 1 - t.free).toNat
  if found then fillEntry s tid t i obj access
  else if t.count ≤ i then
    match growHandleTable t with
    | none => pure (s.setError .insufficientResources, 0)
    | some t => fillEntry s tid { t with last := i } i obj access
  else fillEntry s tid { t with last := i } i obj access

def allocHandleEntry (s : State) (process obj : Nat) (access attr : UInt32) :
    Run (State × UInt32) :=
  let access := if attr &&& objInherit ≠ 0 then access ||| reservedInherit else access
  match s.handles process with
  | none => pure (s.setError .processIsTerminating, 0)
  | some t => allocEntry s (.process process) t obj access

def allocHandleNoAccessCheck (env : Env) (s : State) (process obj : Nat) (access attr : UInt32) :
    Run (State × UInt32) :=
  let access := if access &&& maximumAllowed ≠ 0 then genericAll else access
  allocHandleEntry s process obj (env.mapAccess obj access &&& ~~~reservedAll) attr

def allocHandle (env : Env) (s : State) (process obj : Nat) (access attr : UInt32) :
    Run (State × UInt32) :=
  let access := env.mapAccess obj access &&& ~~~reservedAll
  if access = 0 then pure (s.setError .accessDenied, 0)
  else match env.checkObjectAccess none obj access with
    | none => pure (s.setError .accessDenied, 0)
    | some access => allocHandleEntry s process obj access attr

def allocGlobalHandleNoAccessCheck (s : State) (obj : Nat) (access : UInt32) :
    Run (State × UInt32) := do
  let t := s.globalTable.getD (allocHandleTable 0)
  let (s, h) ← allocEntry { s with globalTable := some t } .global t obj access
  pure (s, handleLocalToGlobal h)

def allocGlobalHandle (env : Env) (s : State) (obj : Nat) (access : UInt32) :
    Run (State × UInt32) :=
  if access = 0 then allocGlobalHandleNoAccessCheck s obj access
  else match env.checkObjectAccess none obj access with
    | none => pure (s.setError .accessDenied, 0)
    | some access => allocGlobalHandleNoAccessCheck s obj access

/-- `get_handle`: the table and index of a live entry. It reads `process->handles` first, so a
`NULL` process faults even for a global handle. -/
def getHandle (s : State) (process : Option Nat) (handle : UInt32) :
    Run (Option (TableId × Nat)) :=
  match process with
  | none => .error .nullPointer
  | some p =>
    let tid := if handleIsGlobal handle then TableId.global else .process p
    let handle := if handleIsGlobal handle then handleGlobalToLocal handle else handle
    match s.table tid with
    | none => pure none
    | some t =>
      let index := handleToIndex handle
      if index < 0 then pure none
      else if t.last < index then pure none
      else do
        let e ← load t.entries index.toNat
        if e.ptr = none then pure none else pure (some (tid, index.toNat))

/-- The entry a reference returned by `getHandle` points to. -/
def entryAt (s : State) (tid : TableId) (i : Nat) : Run HandleEntry :=
  match s.table tid with
  | none => .error .nullPointer
  | some t => load t.entries i

/-- The loop `while (table->last >= 0) { if (entry->ptr) break; table->last--; ... }` over the
`n = last + 1` entries below `last + 1`; it returns the new `last`. -/
def trimLast (entries : List HandleEntry) : Nat → Run Int
  | 0 => pure (-1)
  | n + 1 => do
    let e ← load entries n
    if e.ptr = none then trimLast entries n else pure n

def shrinkHandleTable (t : HandleTable) : Run HandleTable := do
  let last ← trimLast t.entries (t.last + 1).toNat
  let t := { t with last := last }
  if (t.count / 4 : Int) ≤ last then pure t
  else if t.count < minHandleEntries * 2 then pure t
  else pure (t.resize (t.count / 2))

/-- The table update of `close_handle` at `index`: the entry's object is cleared, `free` is
lowered to it, and the table shrinks when it was the last entry. -/
def removeEntry (t : HandleTable) (index : Int) : Run HandleTable :=
  if index < 0 then .error .outOfBounds
  else do
    let e ← load t.entries index.toNat
    let entries ← store t.entries index.toNat { e with ptr := none }
    let t := { t with entries := entries }
    let t := if index < t.free then { t with free := index.toNat } else t
    if index = t.last then shrinkHandleTable t else pure t

/-- `process->running_threads`: the process ran when the request started and no kill in it has
dropped its table since. -/
def isRunning (env : Env) (s : State) (process : Nat) : Bool :=
  env.running process && (s.handles process).isSome

/-- `handle_table_destroy` of the table `t` of `process`, detached from it already: each live
entry up to `last` is cleared, its object's `close_handle` called with the entry's handle (the
result is ignored) and the object released. -/
def handleTableDestroy (closeHandle : State → Nat → Nat → UInt32 → Run (State × Bool))
    (process : Nat) (t : HandleTable) (s : State) : Run State :=
  ((t.entries.take (t.last + 1).toNat).zipIdx).foldlM (fun s ei =>
      match ei.1.ptr with
      | none => pure s
      | some obj => do
        let (s, _) ← closeHandle s obj process (indexToHandle ei.2)
        pure (s.release obj))
    s

/-! The callbacks of a close, each with the fuel left. `closeCallback` is `obj->ops->close_handle`;
`terminateProcess` kills the process's threads, and with them the console processes they render,
before the last one's death closes its handles; `closeProcessHandles` detaches the table before
destroying it. -/
mutual

def closeCallback (env : Env) (fuel : Nat) (s : State) (obj process : Nat) (handle : UInt32) :
    Run (State × Bool) :=
  match fuel with
  | 0 => .error .outOfFuel
  | fuel + 1 =>
    match env.objectType obj with
    | .plain => pure (s, true)
    | .winstation => pure (s, env.winstation process != handle)
    | .desktop => pure (s, !(env.desktops process).contains handle)
    | .job j =>
      if s.handleCount obj = 1 ∧ (env.jobs j).killOnClose then
        (fun s => (s, true)) <$> terminateJob env fuel s j
      else pure (s, true)
termination_by structural fuel

def terminateJob (env : Env) (fuel : Nat) (s : State) (j : Nat) : Run State :=
  match fuel with
  | 0 => .error .outOfFuel
  | fuel + 1 => do
    let s ← (env.jobs j).childJobs.foldlM (terminateJob env fuel) s
    (env.jobs j).processes.foldlM (terminateProcess env fuel) s
termination_by structural fuel

def terminateProcess (env : Env) (fuel : Nat) (s : State) (process : Nat) : Run State :=
  match fuel with
  | 0 => .error .outOfFuel
  | fuel + 1 =>
    if isRunning env s process then do
      let s ← (env.consoleClients process).foldlM (terminateProcess env fuel) s
      closeProcessHandles env fuel s process
    else pure s
termination_by structural fuel

def closeProcessHandles (env : Env) (fuel : Nat) (s : State) (process : Nat) : Run State :=
  match fuel with
  | 0 => .error .outOfFuel
  | fuel + 1 =>
    match s.handles process with
    | none => pure s
    | some t => handleTableDestroy (closeCallback env fuel) process t
        { s with handles := Function.update s.handles process none }
termination_by structural fuel

end

/-- The end of `close_handle` once the object's callback allowed the close: the table is read
again, since the callback may have killed the process, and the slot index is the one computed
from the raw handle value, whichever table is chosen. -/
def clearEntry (s : State) (process : Nat) (handle : UInt32) (obj : Nat) :
    Run (State × NtStatus) :=
  let tid := if handleIsGlobal handle then TableId.global else .process process
  match s.table tid with
  | none => .error .nullPointer
  | some t => do
    let t ← removeEntry t (handleToIndex handle)
    pure ((s.setTable tid t).release obj, .success)

def closeHandle (env : Env) (s : State) (process : Nat) (handle : UInt32) :
    Run (State × NtStatus) := do
  match ← getHandle s (some process) handle with
  | none => pure (s, .invalidHandle)
  | some (tid, i) =>
    let entry ← entryAt s tid i
    if entry.access &&& reservedCloseProtect ≠ 0 then pure (s, .handleNotClosable)
    else match entry.ptr with
      | none => .error .nullPointer
      | some obj => do
        let (s, ok) ← closeCallback env env.depth s obj process handle
        if !ok then pure (s, .handleNotClosable) else clearEntry s process handle obj

def inheritHandle (s : State) (parent : Nat) (handle : UInt32) (t : HandleTable) :
    Run (State × HandleTable) := do
  match ← getHandle s (some parent) handle with
  | none => pure (s, t)
  | some (tid, i) =>
    let src ← entryAt s tid i
    if src.access &&& reservedInherit = 0 then pure (s, t)
    else
      let index := handleToIndex handle
      if index < 0 then .error .outOfBounds
      else do
        let d ← load t.entries index.toNat
        if d.ptr ≠ none then pure (s, t)
        else match src.ptr with
          | none => .error .nullPointer
          | some obj => do
            let entries ← store t.entries index.toNat src
            pure (s.grab obj, { t with entries := entries, last := max t.last index })

def inheritHandles (s : State) (parent : Nat) :
    List UInt32 → HandleTable → Run (State × HandleTable)
  | [], t => pure (s, t)
  | h :: hs, t => do
    let (s, t) ← inheritHandle s parent h t
    inheritHandles s parent hs t

/-- One turn of the loop over the copied entries of a table copied without a handle list: an
inheritable entry is grabbed, any other one is cleared. -/
def inheritEntry (s : State) (e : HandleEntry) : State × HandleEntry :=
  match e.ptr with
  | none => (s, e)
  | some obj => if e.access &&& reservedInherit ≠ 0 then (s.grab obj, e) else (s, { e with ptr := none })

/-- The loop over the copied entries `[0, last]`. -/
def inheritAll (s : State) : List HandleEntry → State × List HandleEntry
  | [] => (s, [])
  | e :: es =>
    let r := inheritEntry s e
    let rs := inheritAll r.1 es
    (rs.1, r.2 :: rs.2)

/-- The entries of a table copied from `pt`: the listed handles, or every inheritable entry. -/
def copyEntries (s : State) (parent : Nat) (pt : HandleTable) (handles : Option (List UInt32))
    (stdHandles : List UInt32) : Run (State × HandleTable) :=
  let t := allocHandleTable pt.count
  match handles with
  | some hs => do
    let entries ← fill t.entries 0 pt.count .unset
    let std0 ← load stdHandles 0
    let std1 ← load stdHandles 1
    let std2 ← load stdHandles 2
    inheritHandles s parent (hs ++ [std0, std1, std2]) { t with entries := entries }
  | none =>
    if pt.last < 0 then pure (s, { t with last := pt.last })
    else do
      let n := pt.last.toNat + 1
      let entries ← copy t.entries 0 pt.entries 0 n
      let (s, copied) := inheritAll s (entries.take n)
      pure (s, { t with last := pt.last, entries := copied ++ entries.drop n })

def copyHandleTable (s : State) (process parent : Nat) (handles : Option (List UInt32))
    (stdHandles : List UInt32) : Run State :=
  match s.handles parent with
  | none => .error .nullPointer
  | some pt => do
    let (s, t) ← copyEntries s parent pt handles stdHandles
    let t ← shrinkHandleTable t
    pure (s.setTable (.process process) t)

/-- `get_handle_obj(process, handle, 0, NULL)`: a pseudo-handle's object, or the object of a
live entry. -/
def getHandleObj (env : Env) (s : State) (process : Nat) (handle : UInt32) : Run (Option Nat) :=
  match env.magicHandle handle with
  | some obj => pure (some obj)
  | none => do
    match ← getHandle s (some process) handle with
    | none => pure none
    | some (tid, i) => HandleEntry.ptr <$> entryAt s tid i

/-- `set_handle_flags`, with the old flags it returns (`-1` for an invalid handle). -/
def setHandleFlags (env : Env) (s : State) (process : Option Nat) (handle mask flags : UInt32) :
    Run (State × Int) :=
  match env.magicHandle handle with
  | some _ => pure (if mask ≠ 0 then s.setError .accessDenied else s, 0)
  | none => do
    match ← getHandle s process handle with
    | none => pure (s.setError .invalidHandle, -1)
    | some (tid, i) =>
      let e ← entryAt s tid i
      let mask := (mask <<< 26) &&& reservedAll
      let flags := (flags <<< 26) &&& mask
      match s.table tid with
      | none => .error .nullPointer
      | some t => do
        let entries ← store t.entries i { e with access := (e.access &&& ~~~mask) ||| flags }
        pure (s.setTable tid { t with entries := entries }, (((e.access &&& reservedAll) >>> 26).toNat : Int))

/-- The branch of `duplicate_handle` for an access beyond the source's: the current token
and the destination's token must both grant it. -/
def duplicateChecked (env : Env) (s : State) (dst : Option Nat) (obj : Nat)
    (access attr options : UInt32) : Run (State × UInt32) :=
  let granted := match env.currentToken with
    | some token => env.checkObjectAccess (some token) obj access
    | none => some access
  match granted with
  | none => pure (s.setError .accessDenied, 0)
  | some access =>
    match dst with
    | none => .error .nullPointer
    | some d =>
      match env.checkObjectAccess (some (env.processToken d)) obj access with
      | none => pure (s.setError .accessDenied, 0)
      | some access =>
        if options &&& duplicateMakeGlobal ≠ 0 then allocGlobalHandle env s obj access
        else allocHandleNoAccessCheck env s d obj access attr

/-- The branch of `duplicate_handle` within the source's access; with
`DUPLICATE_CLOSE_SOURCE` inside one process the source entry itself is reused. -/
def duplicateUnchecked (s : State) (src : Nat) (srcHandle : UInt32) (dst : Option Nat) (obj : Nat)
    (entry : Option (TableId × Nat)) (access attr options : UInt32) : Run (State × UInt32) :=
  if options &&& duplicateMakeGlobal ≠ 0 then allocGlobalHandleNoAccessCheck s obj access
  else match entry, dst with
    | some (tid, i), some d => do
      let e ← entryAt s tid i
      if options &&& duplicateCloseSource ≠ 0 ∧ src = d ∧ e.access &&& reservedCloseProtect = 0 then
        let access := if attr &&& objInherit ≠ 0 then access ||| reservedInherit else access
        match s.table tid with
        | none => .error .nullPointer
        | some t => do
          let entries ← store t.entries i { e with access := access }
          pure (s.setTable tid { t with entries := entries }, srcHandle)
      else allocHandleEntry s d obj access attr
    | none, some d => allocHandleEntry s d obj access attr
    | _, none => .error .nullPointer

/-- The access of the source handle: its entry's, or all access for a pseudo-handle. -/
def entryAccess (env : Env) (s : State) (obj : Nat) : Option (TableId × Nat) → Run UInt32
  | some (tid, i) => HandleEntry.access <$> entryAt s tid i
  | none => pure (env.mapAccess obj genericAll)

def duplicateAlloc (env : Env) (s : State) (src : Nat) (srcHandle : UInt32) (dst : Option Nat)
    (obj : Nat) (entry : Option (TableId × Nat)) (access srcAccess attr options : UInt32) :
    Run (State × UInt32) :=
  if access &&& ~~~srcAccess ≠ 0 then duplicateChecked env s dst obj access attr options
  else duplicateUnchecked s src srcHandle dst obj entry access attr options

def duplicateHandle (env : Env) (s : State) (src : Nat) (srcHandle : UInt32) (dst : Option Nat)
    (access attr options : UInt32) : Run (State × UInt32) := do
  match ← getHandleObj env s src srcHandle with
  | none => pure (s.setError .invalidHandle, 0)
  | some obj =>
    let entry ← getHandle s (some src) srcHandle
    let srcAccess ← entryAccess env s obj entry
    let srcFlags := (srcAccess &&& reservedAll) >>> 26
    let srcAccess := srcAccess &&& ~~~reservedAll
    let access := if options &&& duplicateSameAccess ≠ 0 then srcAccess
      else env.mapAccess obj access &&& ~~~reservedAll
    let (s, res) ← duplicateAlloc env s src srcHandle dst obj entry access srcAccess attr options
    if res ≠ 0 ∧ options &&& duplicateSameAttributes ≠ 0 then do
      let (s, _) ← setHandleFlags env s dst res (~~~0) srcFlags
      pure (s, res)
    else pure (s, res)

end Wine.Server
