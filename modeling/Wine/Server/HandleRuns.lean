import Wine.Server.HandleMap

/-! Runs of the handle operations. A server state is reachable from the state with no tables by
any sequence of table creations (`alloc_handle_table(process, 0)`), allocations, duplications,
closes, table copies for a new process, flag changes and process exits. Every reachable state
keeps the table invariant, so in every reachable state the tables are slot maps: `get_handle`
is the slot lookup, allocations take the lowest free slot and closing a process handle clears
exactly its slot. -/

namespace Wine.Server

open Mem

set_option autoImplicit false

/-! ### Copying a table -/

theorem inheritHandle_spec {s : State} (hs : s.TablesInv) (parent : Nat) (handle : UInt32)
    {t : HandleTable} (ht : t.Inv) (hfree : t.free = 0) :
    Ensures (inheritHandle s parent handle t) fun r => r.1.TablesInv ∧ r.2.Inv ∧ r.2.free = 0 := by
  unfold inheritHandle
  rw [getHandle_eq_lookup hs, ok_bind]
  cases hl : s.lookup parent handle with
  | none => exact Ensures.pure ⟨hs, ht, hfree⟩
  | some ref =>
    obtain ⟨tid, i⟩ := ref
    obtain ⟨-, e, he⟩ := State.lookup_eq_some hl
    dsimp only
    rw [State.entryAt_of_slots he, ok_bind]
    split
    · exact Ensures.pure ⟨hs, ht, hfree⟩
    · split
      · exact Ensures.error _
      · rename_i h0
        refine ensures_load.bind ?_
        rintro d -
        split
        · exact Ensures.pure ⟨hs, ht, hfree⟩
        · split
          · exact Ensures.error _
          · rename_i obj _
            refine ensures_store.bind ?_
            rintro entries ⟨hlen, rfl⟩
            refine Ensures.pure ⟨hs.grab obj, HandleTable.inv_of_free_eq_zero ?_ ht.count_ge
              ht.count_le ?_ ?_ hfree, hfree⟩
            · simp [ht.length]
            · have := ht.last_ge
              simp only
              omega
            · have := ht.last_lt
              have := ht.length
              simp only
              omega

theorem inheritHandles_spec {s : State} (hs : s.TablesInv) (parent : Nat) (handles : List UInt32)
    {t : HandleTable} (ht : t.Inv) (hfree : t.free = 0) :
    Ensures (inheritHandles s parent handles t) fun r => r.1.TablesInv ∧ r.2.Inv := by
  induction handles generalizing s t with
  | nil => exact Ensures.pure ⟨hs, ht⟩
  | cons h hs' ih =>
    unfold inheritHandles
    refine (inheritHandle_spec hs parent h ht hfree).bind ?_
    rintro ⟨s₁, t₁⟩ ⟨h1, h2, h3⟩
    exact ih h1 h2 h3

theorem inheritEntry_table (s : State) (e : HandleEntry) : (inheritEntry s e).1.table = s.table := by
  unfold inheritEntry
  split
  · rfl
  · split <;> simp

theorem inheritAll_length (s : State) (es : List HandleEntry) :
    (inheritAll s es).2.length = es.length := by
  induction es generalizing s with
  | nil => rfl
  | cons e es ih => simp [inheritAll, ih]

theorem inheritAll_table (s : State) (es : List HandleEntry) :
    (inheritAll s es).1.table = s.table := by
  induction es generalizing s with
  | nil => rfl
  | cons e es ih => simp [inheritAll, ih, inheritEntry_table]

theorem TablesInv.of_table {s s' : State} (h : s'.table = s.table) (hs : s.TablesInv) :
    s'.TablesInv := by
  intro tid t ht
  rw [h] at ht
  exact hs tid t ht

theorem copyEntries_spec {s : State} (hs : s.TablesInv) (parent : Nat) {pt : HandleTable}
    (hpt : pt.Inv) (handles : Option (List UInt32)) (stdHandles : List UInt32) :
    Ensures (copyEntries s parent pt handles stdHandles) fun r => r.1.TablesInv ∧ r.2.Inv := by
  have hcount : max pt.count minHandleEntries = pt.count := max_eq_left hpt.count_ge
  have hinv := HandleTable.allocHandleTable_inv pt.count hpt.count_le
  unfold copyEntries
  cases handles with
  | some hs' =>
    dsimp only
    refine Ensures.bind (fun entries h => fill_length h) ?_
    intro entries hlen
    refine Ensures.bind (P := fun _ => True) (fun _ _ => trivial) fun _ _ => ?_
    refine Ensures.bind (P := fun _ => True) (fun _ _ => trivial) fun _ _ => ?_
    refine Ensures.bind (P := fun _ => True) (fun _ _ => trivial) fun _ _ => ?_
    exact inheritHandles_spec hs parent _ (HandleTable.inv_of_free_eq_zero (hlen.trans hinv.length)
      hinv.count_ge hinv.count_le hinv.last_ge hinv.last_lt rfl) rfl
  | none =>
    dsimp only
    have hlast := hpt.last_lt
    have hge := hpt.last_ge
    split
    · exact Ensures.pure ⟨hs, HandleTable.inv_of_free_eq_zero hinv.length hinv.count_ge
        hinv.count_le hge (by simp only [allocHandleTable]; omega) rfl⟩
    · refine Ensures.bind (fun entries h => copy_length h) ?_
      intro entries hlen
      have hlen' : entries.length = pt.count := by
        rw [hlen, hinv.length]
        exact hcount
      refine Ensures.pure ⟨(TablesInv.of_table (inheritAll_table s _) hs),
        HandleTable.inv_of_free_eq_zero ?_ hinv.count_ge hinv.count_le hge ?_ rfl⟩
      · simp only [List.length_append, inheritAll_length, List.length_take, List.length_drop]
        simp only [allocHandleTable]
        omega
      · simp only [allocHandleTable]
        omega

theorem copyHandleTable_spec {s : State} (hs : s.TablesInv) (process parent : Nat)
    (handles : Option (List UInt32)) (stdHandles : List UInt32) :
    Ensures (copyHandleTable s process parent handles stdHandles) State.TablesInv := by
  unfold copyHandleTable
  cases hp : s.handles parent with
  | none => exact Ensures.error _
  | some pt =>
    dsimp only
    refine (copyEntries_spec hs parent (hs (.process parent) pt hp) handles stdHandles).bind ?_
    rintro ⟨s₁, t₁⟩ ⟨h1, h2⟩
    refine (HandleTable.shrinkHandleTable_spec h2).ensures.bind ?_
    rintro t₂ ⟨h3, -⟩
    exact Ensures.pure (h1.setTable h3 _)

/-! ### Runs -/

/-- The operations on the handle tables, with the arguments the server passes. -/
inductive Op where
  | createTable (process : Nat)
  | alloc (process obj : Nat) (access attr : UInt32)
  | allocNoAccessCheck (process obj : Nat) (access attr : UInt32)
  | duplicate (src : Nat) (srcHandle : UInt32) (dst : Option Nat) (access attr options : UInt32)
  | close (process : Nat) (handle : UInt32)
  | copyTable (process parent : Nat) (handles : Option (List UInt32)) (stdHandles : List UInt32)
  | setFlags (process : Nat) (handle mask flags : UInt32)
  | exitProcess (process : Nat)

def Op.run (env : Env) (s : State) : Op → Run State
  | .createTable p => pure (s.setTable (.process p) (allocHandleTable 0))
  | .alloc p obj access attr => Prod.fst <$> allocHandle env s p obj access attr
  | .allocNoAccessCheck p obj access attr =>
    Prod.fst <$> allocHandleNoAccessCheck env s p obj access attr
  | .duplicate src h dst access attr options =>
    Prod.fst <$> duplicateHandle env s src h dst access attr options
  | .close p h => Prod.fst <$> closeHandle env s p h
  | .copyTable p parent handles stdHandles => copyHandleTable s p parent handles stdHandles
  | .setFlags p h mask flags => Prod.fst <$> setHandleFlags env s (some p) h mask flags
  | .exitProcess p => closeProcessHandles env env.depth s p

/-- The server before any process exists. -/
def State.init : State where
  handles := fun _ => none
  globalTable := none
  handleCount := fun _ => 0
  error := .success

/-- The states some sequence of operations leads to, each under the object operations and
access checks of its moment. -/
inductive Reachable : State → Prop
  | init : Reachable State.init
  | step {s s' : State} (env : Env) (op : Op) : Reachable s → op.run env s = .ok s' → Reachable s'

theorem init_tablesInv : State.init.TablesInv := by
  intro tid t h
  cases tid <;> cases h

theorem step_tablesInv {s : State} (hs : s.TablesInv) (env : Env) (op : Op) :
    Ensures (op.run env s) State.TablesInv := by
  cases op with
  | createTable p =>
    exact Ensures.pure (hs.setTable (HandleTable.allocHandleTable_inv 0 (by decide)) _)
  | alloc p obj access attr =>
    exact (allocHandle_spec hs env p obj access attr).ensures.map fun r hr => hr.1
  | allocNoAccessCheck p obj access attr =>
    exact (allocHandleNoAccessCheck_spec hs env p obj access attr).ensures.map fun r hr => hr.1
  | duplicate src h dst access attr options =>
    exact (duplicateHandle_spec hs env src h dst access attr options).map fun r hr => hr.1
  | close p h =>
    by_cases hg : handleIsGlobal h = true
    · exact (closeHandle_global_spec hs env p hg).map fun r hr => hr.1 ▸ hs
    · exact (closeHandle_spec hs env p (by simpa using hg)).map fun r hr => hr.1
  | copyTable p parent handles stdHandles =>
    exact copyHandleTable_spec hs p parent handles stdHandles
  | setFlags p h mask flags =>
    exact (setHandleFlags_spec hs env (some p) h mask flags).map fun r hr => hr.1
  | exitProcess p => exact ((callbacksDrop env env.depth).table s p).mono fun _ h => hs.of_drops h

theorem reachable_tablesInv {s : State} (h : Reachable s) : s.TablesInv := by
  induction h with
  | init => exact init_tablesInv
  | step env op _ hrun ih => exact step_tablesInv ih env op _ hrun

/-! ### The tables as slot maps -/

theorem State.AllocResult.allocated {s : State} {tid : TableId} {obj : Nat} {r : State × UInt32}
    (h : s.AllocResult tid obj r) (h0 : r.2 ≠ 0) : s.AllocatedAt r.1 tid obj r.2 := by
  obtain ⟨-, ⟨hz, -⟩ | ha⟩ := h
  · exact absurd hz h0
  · exact ha

/-- What the handle operations do to the tables of `s`, seen as slot maps: `get_handle` finds
the live slot a handle value names; a successful close of a process handle clears that slot,
leaves every other table as it was except that closing the last handle of a kill-on-close job
drops the tables of processes it terminated; an allocation, directly or by duplication, takes
the lowest free slot of its table and returns its handle, unless a duplication hands back the
source handle itself. -/
structure State.SlotMapSpec (s : State) : Prop where
  getHandle_eq : ∀ p h, getHandle s (some p) h = .ok (s.lookup p h)
  closeHandle_clears : ∀ env p h, handleIsGlobal h = false →
    Ensures (closeHandle env s p h) fun r => r.2 = .success →
      ∃ i e obj, s.lookup p h = some (.process p, i) ∧ (s.slots (.process p)).get i = some e ∧
        e.ptr = some obj ∧ s.ClosedAt env r.1 p i obj
  allocHandle_least : ∀ env p obj access attr,
    Returns (allocHandle env s p obj access attr) fun r =>
      r.2 ≠ 0 → s.AllocatedAt r.1 (.process p) obj r.2
  allocHandleNoAccessCheck_least : ∀ env p obj access attr,
    Returns (allocHandleNoAccessCheck env s p obj access attr) fun r =>
      r.2 ≠ 0 → s.AllocatedAt r.1 (.process p) obj r.2
  duplicateHandle_least : ∀ env src srcHandle dst access attr options,
    Ensures (duplicateHandle env s src srcHandle dst access attr options) fun r => r.2 ≠ 0 →
      (r.2 = srcHandle ∧ ∀ tid, (s.slots tid).SameSlots (r.1.slots tid)) ∨
        ∃ tid ∈ dupTarget dst options, ∃ obj, s.AllocatedAt r.1 tid obj r.2

theorem State.TablesInv.slotMapSpec {s : State} (hs : s.TablesInv) : s.SlotMapSpec where
  getHandle_eq := getHandle_eq_lookup hs
  closeHandle_clears env p h hg := (closeHandle_spec hs env p hg).mono fun _ hr => hr.2.1
  allocHandle_least env p obj access attr :=
    (allocHandle_spec hs env p obj access attr).mono fun _ hr => hr.allocated
  allocHandleNoAccessCheck_least env p obj access attr :=
    (allocHandleNoAccessCheck_spec hs env p obj access attr).mono fun _ hr => hr.allocated
  duplicateHandle_least env src srcHandle dst access attr options := by
    refine (duplicateHandle_spec hs env src srcHandle dst access attr options).mono ?_
    rintro r ⟨-, ⟨hz, -⟩ | hsrc | halloc⟩ h0
    · exact absurd hz h0
    · exact .inl hsrc
    · exact .inr halloc

def grantAll : Env where
  mapAccess := fun _ access => access
  objectType := fun _ => .plain
  jobs := fun _ => ⟨false, [], []⟩
  running := fun _ => true
  consoleClients := fun _ => []
  winstation := fun _ => 0
  desktops := fun _ => []
  checkObjectAccess := fun _ _ access => some access
  currentToken := none
  processToken := fun _ => 0
  magicHandle := fun _ => none
  depth := 8

def lowBitsRun : Run (UInt32 × Option (TableId × Nat)) := do
  let s ← (Op.createTable 0).run grantAll State.init
  let (s, h) ← allocHandleNoAccessCheck grantAll s 0 7 0 0
  let r ← getHandle s (some 0) 5
  pure (h, r)

/-- In every reachable state, closing a live global handle that may be closed indexes the
global table with the raw, obfuscated handle value: the write of `close_handle` lands far
beyond the table's entries, and the entry itself stays live. -/
theorem closeHandle_live_global_faults {s : State} (hs : Reachable s) (env : Env) (p : Nat)
    {h : UInt32} (hg : handleIsGlobal h = true) {i : Nat} {e : HandleEntry} {obj : Nat}
    (hl : s.lookup p h = some (.global, i)) (he : (s.slots .global).get i = some e)
    (hobj : e.ptr = some obj) (hprot : e.access &&& reservedCloseProtect = 0) {u : State}
    (hok : closeCallback env env.depth s obj p h = .ok (u, true)) :
    closeHandle env s p h = .error .outOfBounds := by
  have hinv := reachable_tablesInv hs
  obtain ⟨t, ht, -⟩ := State.slots_get_eq_some he
  have h0 : 0 ≤ handleToIndex h := by have := handleToIndex_of_global hg; omega
  have hdrop := (callbacksDrop env env.depth).callback s obj p h _ hok
  have ht' : u.table .global = some t := hdrop.globalTable_eq.trans ht
  rw [closeHandle_of_live hinv env hl he hobj hprot, hok, ok_bind]
  show clearEntry u p h obj = _
  unfold clearEntry
  simp only [hg, if_true, ht']
  rw [removeEntry_of_length_le h0 (entries_length_le_of_global (hinv .global t ht) hg), error_bind]

def globalDupRun : Run State := do
  let s ← (Op.createTable 0).run grantAll State.init
  let s ← (Op.allocNoAccessCheck 0 7 0 0).run grantAll s
  (Op.duplicate 0 4 none 0 0 duplicateMakeGlobal).run grantAll s

def globalDupState : State :=
  match globalDupRun with
  | .ok s => s
  | .error _ => State.init

theorem globalDupState_reachable : Reachable globalDupState :=
  .step grantAll (.duplicate 0 4 none 0 0 duplicateMakeGlobal)
    (.step grantAll (.allocNoAccessCheck 0 7 0 0) (.step grantAll (.createTable 0) .init rfl) rfl)
    rfl

theorem globalDupState_close_out_of_bounds :
    globalDupState.lookup 0 0x544a4deb = some (.global, 0) ∧
      closeHandle grantAll globalDupState 0 0x544a4deb = .error .outOfBounds :=
  ⟨by decide, closeHandle_live_global_faults globalDupState_reachable grantAll 0 (by decide)
    (i := 0) (e := ⟨some 7, 0⟩) (by decide) (by decide) rfl (by decide) (u := globalDupState) (by rfl)⟩

/-! ### Closing a job's last handle -/

theorem closeCallback_last_job_handle (env : Env) (s : State) {obj j p : Nat} (h : UInt32)
    (hjob : env.objectType obj = .job j) (hlast : s.handleCount obj = 1)
    (hkill : (env.jobs j).killOnClose = true) :
    Ensures (closeCallback env env.depth s obj p h) fun r => r.2 = true ∧
      ∀ q ∈ (env.jobs j).processes, env.running q = true → r.1.handles q = none := by
  cases hd : env.depth with
  | zero => rw [closeCallback]; exact Ensures.error _
  | succ fuel =>
    rw [closeCallback]
    simp only [hjob, hlast, hkill, and_self, if_true]
    have hjobs : Ensures (terminateJob env fuel s j) fun s' =>
        ∀ q ∈ (env.jobs j).processes, env.running q = true → s'.handles q = none :=
      fun s' hs' q hq hrun => terminateJob_detaches env fuel s hq hrun s' hs'
    exact hjobs.map fun _ hq => ⟨rfl, hq⟩

def jobEnv : Env := { grantAll with
  objectType := fun obj => if obj = 7 then .job 0 else .plain
  jobs := fun _ => ⟨true, [], [0, 1]⟩ }

def jobRun : Run State := do
  let s ← (Op.createTable 0).run jobEnv State.init
  let s ← (Op.createTable 1).run jobEnv s
  (Op.allocNoAccessCheck 0 7 0 0).run jobEnv s

def jobState : State :=
  match jobRun with
  | .ok s => s
  | .error _ => State.init

theorem jobState_reachable : Reachable jobState :=
  .step jobEnv (.allocNoAccessCheck 0 7 0 0)
    (.step jobEnv (.createTable 1) (.step jobEnv (.createTable 0) .init rfl) rfl) rfl

/-- The same job run by process 1 alone: closing its handle in process 0 succeeds and drops
the table of process 1. -/
example : (closeHandle { jobEnv with jobs := fun _ => ⟨true, [], [1]⟩ } jobState 0 4).map
    (fun r => (r.2, (r.1.handles 0).isSome, (r.1.handles 1).isSome)) = .ok (.success, true, false) := by
  decide

end Wine.Server
