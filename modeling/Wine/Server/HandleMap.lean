import Wine.Server.HandleTable

/-! The server's handle tables as slot maps. `State.slots` views every table, a missing one as
empty, and `State.lookup` is the slot a handle value names: its table (the global table for an
obfuscated handle) and index `(handle >> 2) - 1`. Under the table invariant `get_handle` is
this lookup, an allocation fills the lowest free slot of its table and returns that slot's
handle, and closing a process handle clears exactly its slot; the only other tables a close
changes are those of the processes that closing a kill-on-close job's last handle terminates,
which are dropped. -/

namespace Wine.Server

open Mem

set_option autoImplicit false

/-! ### Handle values -/

theorem xor_obfuscator_ge {x : Nat} (hx : x < 2 ^ 26) : 2 ^ 30 ≤ x ^^^ handleObfuscator.toNat := by
  apply Nat.ge_two_pow_of_testBit
  rw [Nat.testBit_xor, Nat.testBit_lt_two_pow (by omega)]
  decide

theorem toNat_indexToHandle {i : Nat} (hi : i < maxHandleEntries) :
    (indexToHandle i).toNat = (i + 1) * 4 := by
  unfold indexToHandle
  rw [UInt32.toNat_ofNat']
  unfold maxHandleEntries at hi
  omega

theorem indexToHandle_lt {i : Nat} (hi : i < maxHandleEntries) :
    (indexToHandle i).toNat < 2 ^ 26 := by
  rw [toNat_indexToHandle hi]
  unfold maxHandleEntries at hi
  omega

theorem indexToHandle_ne_zero {i : Nat} (hi : i < maxHandleEntries) : indexToHandle i ≠ 0 := by
  intro h
  have := toNat_indexToHandle hi
  rw [h] at this
  simp at this

theorem handleToIndex_indexToHandle {i : Nat} (hi : i < maxHandleEntries) :
    handleToIndex (indexToHandle i) = i := by
  unfold handleToIndex
  rw [toNat_indexToHandle hi]
  omega

theorem handleIsGlobal_indexToHandle {i : Nat} (hi : i < maxHandleEntries) :
    handleIsGlobal (indexToHandle i) = false := by
  have hge := xor_obfuscator_ge (indexToHandle_lt hi)
  unfold handleIsGlobal maxHandleEntries
  rw [UInt32.toNat_xor]
  simp only [decide_eq_false_iff_not, not_le]
  omega

theorem handleToIndex_of_global {h : UInt32} (hg : handleIsGlobal h = true) :
    2 ^ 28 - 1 ≤ handleToIndex h := by
  unfold handleIsGlobal maxHandleEntries at hg
  simp only [decide_eq_true_eq] at hg
  have hge := xor_obfuscator_ge (x := (h ^^^ handleObfuscator).toNat) (by omega)
  rw [← UInt32.toNat_xor, xor_cancel_right] at hge
  unfold handleToIndex
  omega

/-- The handle of slot `i` of a table. -/
def handleOf : TableId → Nat → UInt32
  | .process _, i => indexToHandle i
  | .global, i => handleLocalToGlobal (indexToHandle i)

theorem handleOf_ne_zero (tid : TableId) {i : Nat} (hi : i < maxHandleEntries) :
    handleOf tid i ≠ 0 := by
  cases tid with
  | process p => exact indexToHandle_ne_zero hi
  | global =>
    intro h
    simp only [handleOf, handleLocalToGlobal, if_neg (indexToHandle_ne_zero hi)] at h
    have hge := xor_obfuscator_ge (indexToHandle_lt hi)
    rw [← UInt32.toNat_xor, h] at hge
    simp at hge

/-- The table and index a handle value names in `process`. -/
def handleRef (process : Nat) (handle : UInt32) : TableId × Int :=
  if handleIsGlobal handle then (.global, handleToIndex (handleGlobalToLocal handle))
  else (.process process, handleToIndex handle)

theorem handleRef_eq (process : Nat) (handle : UInt32) :
    handleRef process handle =
      ((if handleIsGlobal handle then TableId.global else .process process),
        handleToIndex (if handleIsGlobal handle then handleGlobalToLocal handle else handle)) := by
  unfold handleRef
  split <;> rfl

theorem handleRef_handleOf {tid : TableId} {i : Nat} (hi : i < maxHandleEntries) (p : Nat)
    (htid : tid = .global ∨ tid = .process p) : handleRef p (handleOf tid i) = (tid, (i : Int)) := by
  rcases htid with rfl | rfl
  · have hne := indexToHandle_ne_zero hi
    have hg : handleIsGlobal (handleLocalToGlobal (indexToHandle i)) = true := by
      unfold handleIsGlobal handleLocalToGlobal maxHandleEntries
      rw [if_neg hne, xor_cancel_right, toNat_indexToHandle hi]
      unfold maxHandleEntries at hi
      simp only [decide_eq_true_eq]
      omega
    unfold handleRef handleOf
    rw [if_pos hg]
    simp only [handleGlobalToLocal, handleLocalToGlobal, if_neg hne, xor_cancel_right,
      handleToIndex_indexToHandle hi]
  · unfold handleRef handleOf
    rw [handleIsGlobal_indexToHandle hi, handleToIndex_indexToHandle hi]
    rfl

/-! ### The slot maps of a server -/

namespace State

def slots (s : State) (tid : TableId) : SlotMap HandleEntry :=
  match s.table tid with
  | some t => t.view
  | none => .empty

/-- Every table of the server satisfies the table invariant. -/
def TablesInv (s : State) : Prop := ∀ tid t, s.table tid = some t → t.Inv

/-- The table and slot of a live entry that `handle` names in `process`. -/
def lookup (s : State) (process : Nat) (handle : UInt32) : Option (TableId × Nat) :=
  let r := handleRef process handle
  if 0 ≤ r.2 ∧ ((s.slots r.1).get r.2.toNat).isSome then some (r.1, r.2.toNat) else none

theorem slots_of_table {s : State} {tid : TableId} {t : HandleTable} (ht : s.table tid = some t) :
    s.slots tid = t.view := by
  simp [slots, ht]

@[simp] theorem table_grab (s : State) (obj : Nat) : (s.grab obj).table = s.table := by
  funext tid
  cases tid <;> rfl

@[simp] theorem table_release (s : State) (obj : Nat) : (s.release obj).table = s.table := by
  funext tid
  cases tid <;> rfl

@[simp] theorem table_setError (s : State) (st : NtStatus) : (s.setError st).table = s.table := by
  funext tid
  cases tid <;> rfl

@[simp] theorem slots_grab (s : State) (obj : Nat) : (s.grab obj).slots = s.slots := by
  funext tid
  simp [slots]

@[simp] theorem slots_release (s : State) (obj : Nat) : (s.release obj).slots = s.slots := by
  funext tid
  simp [slots]

@[simp] theorem slots_setError (s : State) (st : NtStatus) : (s.setError st).slots = s.slots := by
  funext tid
  simp [slots]

theorem table_setTable (s : State) (tid : TableId) (t : HandleTable) :
    (s.setTable tid t).table = Function.update s.table tid (some t) := by
  funext tid'
  cases tid <;> cases tid' <;> simp [setTable, table, Function.update]

theorem slots_setTable (s : State) (tid : TableId) (t : HandleTable) :
    (s.setTable tid t).slots = Function.update s.slots tid t.view := by
  funext tid'
  by_cases h : tid' = tid
  · subst h
    simp [slots, table_setTable]
  · simp [slots, table_setTable, h]

theorem TablesInv.setTable {s : State} (hs : s.TablesInv) {t : HandleTable} (ht : t.Inv)
    (tid : TableId) : (s.setTable tid t).TablesInv := by
  intro tid' t' h
  rw [table_setTable] at h
  by_cases heq : tid' = tid
  · subst heq
    simp only [Function.update_self, Option.some.injEq] at h
    exact h ▸ ht
  · rw [Function.update_of_ne heq] at h
    exact hs tid' t' h

theorem TablesInv.grab {s : State} (hs : s.TablesInv) (obj : Nat) : (s.grab obj).TablesInv := by
  intro tid t h
  rw [table_grab] at h
  exact hs tid t h

theorem TablesInv.release {s : State} (hs : s.TablesInv) (obj : Nat) :
    (s.release obj).TablesInv := by
  intro tid t h
  rw [table_release] at h
  exact hs tid t h

theorem TablesInv.setError {s : State} (hs : s.TablesInv) (st : NtStatus) :
    (s.setError st).TablesInv := by
  intro tid t h
  rw [table_setError] at h
  exact hs tid t h

theorem slots_get_eq_some {s : State} {tid : TableId} {i : Nat} {e : HandleEntry}
    (he : (s.slots tid).get i = some e) :
    ∃ t, s.table tid = some t ∧ (i : Int) ≤ t.last ∧ t.entries[i]? = some e ∧ e.ptr.isSome := by
  unfold slots at he
  cases ht : s.table tid with
  | none => simp [ht] at he
  | some t =>
    rw [ht] at he
    exact ⟨t, rfl, HandleTable.slot_eq_some_iff.mp he⟩

theorem entryAt_of_slots {s : State} {tid : TableId} {i : Nat} {e : HandleEntry}
    (he : (s.slots tid).get i = some e) : entryAt s tid i = .ok e := by
  obtain ⟨t, ht, _, hi, _⟩ := slots_get_eq_some he
  obtain ⟨hlen, hget⟩ := List.getElem?_eq_some_iff.mp hi
  simp only [entryAt, ht]
  rw [load_of_lt hlen, hget]

theorem lookup_eq_some {s : State} {p : Nat} {h : UInt32} {tid : TableId} {i : Nat}
    (hl : s.lookup p h = some (tid, i)) :
    handleRef p h = (tid, (i : Int)) ∧ ∃ e, (s.slots tid).get i = some e := by
  simp only [lookup] at hl
  split at hl
  · rename_i hc
    simp only [Option.some.injEq, Prod.mk.injEq] at hl
    obtain ⟨rfl, rfl⟩ := hl
    obtain ⟨h0, hsome⟩ := hc
    refine ⟨Prod.ext rfl (by simp only; omega), Option.isSome_iff_exists.mp hsome⟩
  · cases hl

theorem lookup_of_slot {s : State} {p : Nat} {h : UInt32} {tid : TableId} {i : Nat}
    (href : handleRef p h = (tid, (i : Int))) (hlive : ((s.slots tid).get i).isSome) :
    s.lookup p h = some (tid, i) := by
  unfold lookup
  rw [href]
  simp [hlive]

end State

/-! ### `get_handle` is the lookup -/

theorem getHandle_eq_lookup {s : State} (hs : s.TablesInv) (p : Nat) (h : UInt32) :
    getHandle s (some p) h = .ok (s.lookup p h) := by
  unfold getHandle State.lookup
  rw [handleRef_eq]
  dsimp only
  generalize (if handleIsGlobal h then TableId.global else .process p) = tid
  generalize handleToIndex (if handleIsGlobal h then handleGlobalToLocal h else h) = index
  cases ht : s.table tid with
  | none => simp [State.slots, ht, pure, Except.pure]
  | some t =>
    have hinv := hs tid t ht
    have hlt := hinv.last_lt
    have hlen := hinv.length
    simp only [State.slots_of_table ht, HandleTable.view_get]
    by_cases h0 : index < 0
    · rw [if_pos h0, if_neg (by omega)]
      rfl
    · rw [if_neg h0]
      by_cases hl : t.last < index
      · rw [if_pos hl, HandleTable.slot_eq_none_of_lt (by omega)]
        simp [pure, Except.pure]
      · rw [if_neg hl, HandleTable.slot_of_le (by omega),
          List.getElem?_eq_getElem (by omega : index.toNat < t.entries.length)]
        rw [load_of_lt (by omega), ok_bind]
        cases hp : t.entries[index.toNat].ptr <;> simp [hp, Option.filter, h0, pure, Except.pure]

/-! ### Allocation -/

namespace State

/-- `s'` is `s` with `e` in the lowest free slot `i` of table `tid`, and no other slot of any
table changed. -/
def FilledAt (s s' : State) (tid : TableId) (i : Nat) (e : HandleEntry) : Prop :=
  (s.slots tid).IsLeastFree i ∧ i < maxHandleEntries ∧
    s'.slots = Function.update s.slots tid ((s.slots tid).set i (some e))

/-- An allocation of `obj` into table `tid` took the lowest free slot and returned its handle. -/
def AllocatedAt (s s' : State) (tid : TableId) (obj : Nat) (h : UInt32) : Prop :=
  ∃ i e, h = handleOf tid i ∧ e.ptr = some obj ∧ s.FilledAt s' tid i e

/-- The outcome of an allocation into table `tid`: it failed, returning 0 and changing no slot,
or it allocated `obj` there. -/
def AllocResult (s : State) (tid : TableId) (obj : Nat) (r : State × UInt32) : Prop :=
  r.1.TablesInv ∧ ((r.2 = 0 ∧ r.1.slots = s.slots) ∨ s.AllocatedAt r.1 tid obj r.2)

theorem FilledAt.congr' {s s₁ s₂ : State} (h : s₁.slots = s₂.slots) {tid : TableId} {i : Nat}
    {e : HandleEntry} (hf : s.FilledAt s₁ tid i e) : s.FilledAt s₂ tid i e := by
  unfold FilledAt at hf ⊢
  rwa [← h]

theorem FilledAt.congr {s₁ s₂ s' : State} (h : s₁.slots = s₂.slots) {tid : TableId} {i : Nat}
    {e : HandleEntry} (hf : s₁.FilledAt s' tid i e) : s₂.FilledAt s' tid i e := by
  unfold FilledAt at hf ⊢
  rwa [← h]

theorem AllocResult.failed {s : State} (hs : s.TablesInv) (tid : TableId) (obj : Nat)
    (st : NtStatus) : s.AllocResult tid obj (s.setError st, 0) :=
  ⟨hs.setError st, .inl ⟨rfl, slots_setError s st⟩⟩

theorem AllocatedAt.ne_zero {s s' : State} {tid : TableId} {obj : Nat} {h : UInt32}
    (ha : s.AllocatedAt s' tid obj h) : h ≠ 0 := by
  obtain ⟨i, e, rfl, -, -, hi, -⟩ := ha
  exact handleOf_ne_zero tid hi

end State

theorem fillEntry_spec {s : State} (hs : s.TablesInv) {tid : TableId} {t u : HandleTable}
    (ht : s.table tid = some t) (hu : u.Inv) (hview : u.view = t.view) {i : Nat}
    (hleast : u.view.IsLeastFree i) (hi : (i : Int) ≤ u.last + 1) (hcount : i < u.count)
    {last : Int} (hlast : last = max u.last i) (obj : Nat) (access : UInt32) :
    Returns (fillEntry s tid { u with last := last } i obj access) fun r =>
      r.1.TablesInv ∧ r.2 = indexToHandle i ∧ s.FilledAt r.1 tid i ⟨some obj, access⟩ := by
  unfold fillEntry
  apply Returns.bind (returns_store (show i < u.entries.length by rw [hu.length]; exact hcount) rfl)
  rintro entries rfl
  obtain ⟨hinv, hv⟩ := HandleTable.inv_fill hu hleast hi hcount hlast (e := ⟨some obj, access⟩) rfl
  refine Returns.pure ⟨(hs.grab obj).setTable hinv tid, rfl, ?_, ?_, ?_⟩
  · rw [State.slots_of_table ht, ← hview]
    exact hleast
  · have := hu.count_le
    omega
  · rw [State.slots_setTable, State.slots_grab, hv, State.slots_of_table ht, hview]

theorem allocEntry_spec {s : State} (hs : s.TablesInv) {tid : TableId} {t : HandleTable}
    (ht : s.table tid = some t) (obj : Nat) (access : UInt32) :
    Returns (allocEntry s tid t obj access) fun r => r.1.TablesInv ∧
      ((r.2 = 0 ∧ r.1.slots = s.slots) ∨
        ∃ i, r.2 = indexToHandle i ∧ s.FilledAt r.1 tid i ⟨some obj, access⟩) := by
  have hinv := hs tid t ht
  have hfree := hinv.free_le
  have hlt := hinv.last_lt
  unfold allocEntry
  apply Returns.bind (HandleTable.findFreeEntry_spec _ _ _ (by rw [hinv.length]; omega))
  rintro ⟨found, i⟩ hr
  have hleast := hr.isLeastFree hinv
  obtain ⟨hle, hfound, hnot⟩ := hr.le_last hinv
  dsimp only at hleast hle hfound hnot ⊢
  cases found with
  | true =>
    rw [if_pos rfl]
    exact (fillEntry_spec hs ht hinv rfl hleast hle (by have := hfound rfl; omega)
      (max_eq_left (hfound rfl)).symm obj access).mono fun r ⟨h1, h2, h3⟩ => ⟨h1, .inr ⟨i, h2, h3⟩⟩
  | false =>
    have hi := hnot rfl
    rw [if_neg (by decide)]
    split
    · rename_i hcount
      cases hg : growHandleTable t with
      | none => exact Returns.pure ⟨hs.setError _, .inl ⟨rfl, State.slots_setError _ _⟩⟩
      | some u =>
        obtain ⟨hu, hlt', hlast, hv⟩ := HandleTable.growHandleTable_spec hinv hg
        exact (fillEntry_spec hs ht hu hv (hv ▸ hleast) (by omega) (by omega)
          (max_eq_right (by omega)).symm obj access).mono fun r ⟨h1, h2, h3⟩ =>
            ⟨h1, .inr ⟨i, h2, h3⟩⟩
    · exact (fillEntry_spec hs ht hinv rfl hleast hle (by omega) (max_eq_right (by omega)).symm
        obj access).mono fun r ⟨h1, h2, h3⟩ => ⟨h1, .inr ⟨i, h2, h3⟩⟩

theorem allocHandleEntry_spec {s : State} (hs : s.TablesInv) (p obj : Nat) (access attr : UInt32) :
    Returns (allocHandleEntry s p obj access attr) (s.AllocResult (.process p) obj) := by
  unfold allocHandleEntry
  dsimp only
  cases ht : s.handles p with
  | none => exact Returns.pure (State.AllocResult.failed hs _ obj _)
  | some t =>
    apply (allocEntry_spec hs (show s.table (.process p) = some t from ht) obj _).mono
    rintro r ⟨h1, h2 | ⟨i, hh, hf⟩⟩
    · exact ⟨h1, .inl h2⟩
    · exact ⟨h1, .inr ⟨i, _, hh, rfl, hf⟩⟩

theorem allocHandleNoAccessCheck_spec {s : State} (hs : s.TablesInv) (env : Env) (p obj : Nat)
    (access attr : UInt32) :
    Returns (allocHandleNoAccessCheck env s p obj access attr) (s.AllocResult (.process p) obj) :=
  allocHandleEntry_spec hs p obj _ attr

theorem allocHandle_spec {s : State} (hs : s.TablesInv) (env : Env) (p obj : Nat)
    (access attr : UInt32) :
    Returns (allocHandle env s p obj access attr) (s.AllocResult (.process p) obj) := by
  unfold allocHandle
  dsimp only
  split
  · exact Returns.pure (State.AllocResult.failed hs _ obj _)
  · split
    · exact Returns.pure (State.AllocResult.failed hs _ obj _)
    · exact allocHandleEntry_spec hs p obj _ attr

theorem allocGlobalHandleNoAccessCheck_spec {s : State} (hs : s.TablesInv) (obj : Nat)
    (access : UInt32) :
    Returns (allocGlobalHandleNoAccessCheck s obj access) (s.AllocResult .global obj) := by
  unfold allocGlobalHandleNoAccessCheck
  have hinv : (s.globalTable.getD (allocHandleTable 0)).Inv := by
    cases hg : s.globalTable with
    | none => exact HandleTable.allocHandleTable_inv 0 (by decide)
    | some g => exact hs .global g hg
  have hview : (s.globalTable.getD (allocHandleTable 0)).view = s.slots .global := by
    cases hg : s.globalTable with
    | none => simp [State.slots, State.table, hg, HandleTable.view_allocHandleTable]
    | some g => simp [State.slots, State.table, hg]
  have hslots : (s.setTable .global (s.globalTable.getD (allocHandleTable 0))).slots = s.slots := by
    rw [State.slots_setTable, hview, Function.update_eq_self]
  refine Returns.bind (allocEntry_spec (hs.setTable hinv .global) ?_ obj access) ?_
  · rfl
  rintro ⟨s', h⟩ ⟨h1, ⟨rfl, hsl⟩ | ⟨i, rfl, hf⟩⟩
  · exact Returns.pure ⟨h1, .inl ⟨rfl, hsl.trans hslots⟩⟩
  · exact Returns.pure ⟨h1, .inr ⟨i, _, rfl, rfl, hf.congr hslots⟩⟩

theorem allocGlobalHandle_spec {s : State} (hs : s.TablesInv) (env : Env) (obj : Nat)
    (access : UInt32) :
    Returns (allocGlobalHandle env s obj access) (s.AllocResult .global obj) := by
  unfold allocGlobalHandle
  split
  · exact allocGlobalHandleNoAccessCheck_spec hs obj access
  · split
    · exact Returns.pure (State.AllocResult.failed hs _ obj _)
    · exact allocGlobalHandleNoAccessCheck_spec hs obj _

/-! ### What the close callbacks do to the tables -/

namespace State

/-- `s'` keeps the global table of `s` and some of its process tables, each as it was: what a
nest of close callbacks leaves, since its only table work is a killed process's table. -/
structure Drops (s s' : State) : Prop where
  globalTable_eq : s'.globalTable = s.globalTable
  handles_of_some : ∀ p t, s'.handles p = some t → s.handles p = some t

theorem Drops.refl (s : State) : s.Drops s := ⟨rfl, fun _ _ h => h⟩

theorem Drops.trans {s₁ s₂ s₃ : State} (h₁ : s₁.Drops s₂) (h₂ : s₂.Drops s₃) : s₁.Drops s₃ :=
  ⟨h₂.globalTable_eq.trans h₁.globalTable_eq,
    fun p t h => h₁.handles_of_some p t (h₂.handles_of_some p t h)⟩

theorem Drops.release {s s' : State} (h : s.Drops s') (obj : Nat) : s.Drops (s'.release obj) :=
  ⟨h.globalTable_eq, h.handles_of_some⟩

theorem drops_detach (s : State) (p : Nat) :
    s.Drops { s with handles := Function.update s.handles p none } := by
  refine ⟨rfl, fun q t h => ?_⟩
  by_cases hq : q = p
  · subst hq
    simp at h
  · simpa [Function.update_of_ne hq] using h

theorem Drops.handles_eq_none {s s' : State} (h : s.Drops s') {p : Nat}
    (hp : s.handles p = none) : s'.handles p = none := by
  cases hs' : s'.handles p with
  | none => rfl
  | some t => simp [h.handles_of_some p t hs'] at hp

theorem Drops.table {s s' : State} (h : s.Drops s') {tid : TableId} {t : HandleTable}
    (ht : s'.table tid = some t) : s.table tid = some t := by
  cases tid with
  | process p => exact h.handles_of_some p t ht
  | global => exact h.globalTable_eq.symm.trans ht

theorem Drops.table_eq_or {s s' : State} (h : s.Drops s') (tid : TableId) :
    s'.table tid = s.table tid ∨ ∃ q, tid = .process q ∧ s'.table tid = none := by
  cases tid with
  | global => exact .inl h.globalTable_eq
  | process q =>
    cases hq : s'.handles q with
    | none => exact .inr ⟨q, rfl, hq⟩
    | some t => exact .inl (hq.trans (h.handles_of_some q t hq).symm)

theorem TablesInv.of_drops {s s' : State} (hs : s.TablesInv) (h : s.Drops s') : s'.TablesInv :=
  fun tid t ht => hs tid t (h.table ht)

end State

/-- The close of `obj` is the close of the last handle of a job with
`JOB_OBJECT_LIMIT_KILL_ON_JOB_CLOSE`, the one case in which `job_close_handle` acts. -/
def Env.KillsOnClose (env : Env) (s : State) (obj : Nat) : Prop :=
  ∃ j, env.objectType obj = .job j ∧ s.handleCount obj = 1 ∧ (env.jobs j).killOnClose = true

theorem handleTableDestroy_drops {cb : State → Nat → Nat → UInt32 → Run (State × Bool)}
    {p : Nat} (hcb : ∀ s obj h, Ensures (cb s obj p h) fun r => s.Drops r.1) (t : HandleTable)
    (s : State) : Ensures (handleTableDestroy cb p t s) s.Drops := by
  refine Ensures.foldlM State.Drops.refl State.Drops.trans ?_ s
  rintro s' ⟨e, i⟩ -
  split
  · exact Ensures.pure (.refl s')
  · exact (hcb s' _ _).bind fun r hr => Ensures.pure (hr.release _)

/-- Every callback a close sets off, run with `fuel`, at most drops process tables. -/
structure CallbacksDrop (env : Env) (fuel : Nat) : Prop where
  callback : ∀ s obj p h, Ensures (closeCallback env fuel s obj p h) fun r => s.Drops r.1
  job : ∀ s j, Ensures (terminateJob env fuel s j) s.Drops
  process : ∀ s p, Ensures (terminateProcess env fuel s p) s.Drops
  table : ∀ s p, Ensures (closeProcessHandles env fuel s p) s.Drops

theorem callbacksDrop (env : Env) : ∀ fuel, CallbacksDrop env fuel
  | 0 => ⟨fun _ _ _ _ => by rw [closeCallback]; exact Ensures.error _,
      fun _ _ => by rw [terminateJob]; exact Ensures.error _,
      fun _ _ => by rw [terminateProcess]; exact Ensures.error _,
      fun _ _ => by rw [closeProcessHandles]; exact Ensures.error _⟩
  | fuel + 1 =>
    have ih := callbacksDrop env fuel
    have hloop : ∀ {γ : Type} (f : State → γ → Run State) (l : List γ),
        (∀ s c, Ensures (f s c) s.Drops) → ∀ s, Ensures (l.foldlM f s) s.Drops :=
      fun f l hf => Ensures.foldlM State.Drops.refl State.Drops.trans fun s c _ => hf s c
    { callback := fun s obj p h => by
        rw [closeCallback]
        split
        · exact Ensures.pure (.refl s)
        · exact Ensures.pure (.refl s)
        · exact Ensures.pure (.refl s)
        · split
          · exact (ih.job s _).map fun _ h => h
          · exact Ensures.pure (.refl s)
      job := fun s j => by
        rw [terminateJob]
        refine (hloop _ _ ih.job s).bind fun s' h' => ?_
        exact (hloop _ _ ih.process s').mono fun _ h => h'.trans h
      process := fun s p => by
        rw [terminateProcess]
        split
        · refine (hloop _ _ ih.process s).bind fun s' h' => ?_
          exact (ih.table s' p).mono fun _ h => h'.trans h
        · exact Ensures.pure (.refl s)
      table := fun s p => by
        rw [closeProcessHandles]
        split
        · exact Ensures.pure (.refl s)
        · exact (handleTableDestroy_drops (ih.callback · · p) _ _).mono fun _ h =>
            (State.drops_detach s p).trans h }

theorem closeCallback_eq_or_kills (env : Env) (fuel : Nat) (s : State) (obj p : Nat)
    (h : UInt32) :
    Ensures (closeCallback env fuel s obj p h) fun r =>
      r.1 = s ∨ (env.KillsOnClose s obj ∧ r.2 = true) := by
  cases fuel with
  | zero => rw [closeCallback]; exact Ensures.error _
  | succ fuel =>
    rw [closeCallback]
    split
    · exact Ensures.pure (.inl rfl)
    · exact Ensures.pure (.inl rfl)
    · exact Ensures.pure (.inl rfl)
    · rename_i j hj
      split
      · rename_i hc
        exact Ensures.bind_of_forall fun _ => Ensures.pure (.inr ⟨⟨j, hj, hc⟩, rfl⟩)
      · exact Ensures.pure (.inl rfl)

theorem closeProcessHandles_detaches (env : Env) (fuel : Nat) (s : State) (p : Nat) :
    Ensures (closeProcessHandles env fuel s p) fun s' => s'.handles p = none := by
  cases fuel with
  | zero => rw [closeProcessHandles]; exact Ensures.error _
  | succ fuel =>
    rw [closeProcessHandles]
    split
    · exact Ensures.pure ‹_›
    · exact (handleTableDestroy_drops ((callbacksDrop env fuel).callback · · p) _ _).mono
        fun _ h => h.handles_eq_none (by simp)

theorem terminateProcess_detaches (env : Env) (fuel : Nat) (s : State) {p : Nat}
    (hrun : env.running p = true) :
    Ensures (terminateProcess env fuel s p) fun s' => s'.handles p = none := by
  cases fuel with
  | zero => rw [terminateProcess]; exact Ensures.error _
  | succ fuel =>
    rw [terminateProcess]
    split
    · exact Ensures.bind_of_forall fun s' => closeProcessHandles_detaches env fuel s' p
    · rename_i hnot
      simp only [isRunning, hrun, Bool.true_and, Option.isSome_eq_false_iff, Option.isNone_iff_eq_none,
        Bool.not_eq_true] at hnot
      exact Ensures.pure hnot

theorem terminateJob_detaches (env : Env) (fuel : Nat) (s : State) {j p : Nat}
    (hp : p ∈ (env.jobs j).processes) (hrun : env.running p = true) :
    Ensures (terminateJob env fuel s j) fun s' => s'.handles p = none := by
  cases fuel with
  | zero => rw [terminateJob]; exact Ensures.error _
  | succ fuel =>
    rw [terminateJob]
    refine Ensures.bind_of_forall fun s' => ?_
    exact Ensures.foldlM_of_mem (fun h hd => hd.handles_eq_none h)
      (fun b c _ => (callbacksDrop env fuel).process b c) hp
      (fun b => terminateProcess_detaches env fuel b hrun) State.Drops.refl State.Drops.trans s'

theorem clearEntry_of_detached {s : State} {p : Nat} (hp : s.handles p = none) {h : UInt32}
    (hg : handleIsGlobal h = false) (obj : Nat) : clearEntry s p h obj = .error .nullPointer := by
  unfold clearEntry
  simp [hg, State.table, hp]

/-! ### Closing -/

/-- `s'` is `s` with slot `i` of process `p` cleared; every other table is as it was, or, when
the close is that of the last handle of a kill-on-close job `obj`, it is the table of a process
dropped. -/
def State.ClosedAt (env : Env) (s s' : State) (p i obj : Nat) : Prop :=
  s'.slots (.process p) = (s.slots (.process p)).set i none ∧
    ∀ tid, tid ≠ .process p → s'.table tid = s.table tid ∨
      (env.KillsOnClose s obj ∧ ∃ q, tid = .process q ∧ s'.table tid = none)

theorem closeHandle_of_live {s : State} (hs : s.TablesInv) (env : Env) {p : Nat} {h : UInt32}
    {tid : TableId} {i : Nat} {e : HandleEntry} {obj : Nat} (hl : s.lookup p h = some (tid, i))
    (he : (s.slots tid).get i = some e) (hobj : e.ptr = some obj)
    (hprot : e.access &&& reservedCloseProtect = 0) :
    closeHandle env s p h = closeCallback env env.depth s obj p h >>= fun r =>
      if !r.2 then pure (r.1, .handleNotClosable) else clearEntry r.1 p h obj := by
  unfold closeHandle
  rw [getHandle_eq_lookup hs, ok_bind, hl]
  dsimp only
  rw [State.entryAt_of_slots he, ok_bind, if_neg (by simp [hprot]), hobj]

theorem closeCallback_spec (env : Env) (fuel : Nat) (s : State) (obj p : Nat) (h : UInt32) :
    Ensures (closeCallback env fuel s obj p h) fun r =>
      s.Drops r.1 ∧ (r.1 = s ∨ (env.KillsOnClose s obj ∧ r.2 = true)) :=
  ((callbacksDrop env fuel).callback s obj p h).and (closeCallback_eq_or_kills env fuel s obj p h)

theorem closeHandle_cases {s : State} (hs : s.TablesInv) (env : Env) (p : Nat) (h : UInt32) :
    closeHandle env s p h = pure (s, .invalidHandle) ∨
      closeHandle env s p h = pure (s, .handleNotClosable) ∨
      ∃ tid i e obj, s.lookup p h = some (tid, i) ∧ (s.slots tid).get i = some e ∧
        e.ptr = some obj ∧ e.access &&& reservedCloseProtect = 0 ∧
        closeHandle env s p h = closeCallback env env.depth s obj p h >>= fun r =>
          if !r.2 then pure (r.1, .handleNotClosable) else clearEntry r.1 p h obj := by
  cases hl : s.lookup p h with
  | none =>
    left
    unfold closeHandle
    rw [getHandle_eq_lookup hs, ok_bind, hl]
  | some ref =>
    obtain ⟨tid, i⟩ := ref
    obtain ⟨-, e, he⟩ := State.lookup_eq_some hl
    obtain ⟨t, -, -, -, hsome⟩ := State.slots_get_eq_some he
    obtain ⟨obj, hobj⟩ := Option.isSome_iff_exists.mp hsome
    by_cases hprot : e.access &&& reservedCloseProtect = 0
    · exact .inr (.inr ⟨tid, i, e, obj, rfl, he, hobj, hprot,
        closeHandle_of_live hs env hl he hobj hprot⟩)
    · right
      left
      unfold closeHandle
      rw [getHandle_eq_lookup hs, ok_bind, hl]
      dsimp only
      rw [State.entryAt_of_slots he, ok_bind, if_pos hprot]

/-- `close_handle` of a process handle: on success it cleared exactly the slot the handle
names, and every other table is unchanged or, for the last handle of a kill-on-close job, was
dropped with its process; otherwise it changed nothing. -/
theorem closeHandle_spec {s : State} (hs : s.TablesInv) (env : Env) (p : Nat) {h : UInt32}
    (hg : handleIsGlobal h = false) :
    Ensures (closeHandle env s p h) fun r => r.1.TablesInv ∧
      (r.2 = .success → ∃ i e obj, s.lookup p h = some (.process p, i) ∧
        (s.slots (.process p)).get i = some e ∧ e.ptr = some obj ∧ s.ClosedAt env r.1 p i obj) ∧
      (r.2 ≠ .success → r.1 = s) := by
  rcases closeHandle_cases hs env p h with hc | hc | ⟨tid, i, e, obj, hl, he, hobj, -, hc⟩
  · rw [hc]
    exact Ensures.pure ⟨hs, (fun h => by cases h), fun _ => rfl⟩
  · rw [hc]
    exact Ensures.pure ⟨hs, (fun h => by cases h), fun _ => rfl⟩
  obtain ⟨href, -⟩ := State.lookup_eq_some hl
  have htid : tid = .process p ∧ handleToIndex h = i := by
    unfold handleRef at href
    rw [if_neg (by simp [hg])] at href
    simp only [Prod.mk.injEq] at href
    exact ⟨href.1.symm, href.2⟩
  obtain ⟨rfl, hidx⟩ := htid
  obtain ⟨t, ht, hle, -, -⟩ := State.slots_get_eq_some he
  rw [hc]
  refine (closeCallback_spec env env.depth s obj p h).bind ?_
  rintro ⟨s₁, ok⟩ ⟨hdrop, hkeep⟩
  cases ok with
  | false =>
    obtain rfl : s₁ = s := hkeep.resolve_right fun h => Bool.false_ne_true h.2
    exact Ensures.pure ⟨hs, (fun h => by cases h), fun _ => rfl⟩
  | true =>
    show Ensures (clearEntry s₁ p h obj) _
    unfold clearEntry
    simp only [hg, Bool.false_eq_true, if_false]
    cases ht₁ : s₁.table (.process p) with
    | none => exact Ensures.error _
    | some t₁ =>
      obtain rfl : t₁ = t := Option.some.inj ((hdrop.table ht₁).symm.trans ht)
      have h0 : 0 ≤ handleToIndex h := by omega
      have hlast : handleToIndex h ≤ t₁.last := by omega
      refine (HandleTable.removeEntry_spec (hs _ t₁ ht) h0 hlast).ensures.bind ?_
      rintro t' ⟨hinv, hview⟩
      refine Ensures.pure ⟨((hs.of_drops hdrop).setTable hinv _).release obj,
        fun _ => ⟨i, e, obj, hl, he, hobj, ?_, ?_⟩, fun h => absurd rfl h⟩
      · rw [State.slots_release, State.slots_setTable, Function.update_self, hview,
          ← State.slots_of_table ht, hidx]
        rfl
      · intro tid htid
        rw [State.table_release, State.table_setTable, Function.update_of_ne htid]
        rcases hkeep with rfl | ⟨hk, -⟩
        · exact .inl rfl
        · rcases hdrop.table_eq_or tid with h | ⟨q, rfl, hq⟩
          · exact .inl h
          · exact .inr ⟨hk, q, rfl, hq⟩

theorem removeEntry_of_length_le {t : HandleTable} {index : Int} (h0 : 0 ≤ index)
    (hlen : t.entries.length ≤ index.toNat) : removeEntry t index = .error .outOfBounds := by
  unfold removeEntry
  rw [if_neg (by omega), load_eq_error hlen, error_bind]

theorem entries_length_le_of_global {t : HandleTable} (ht : t.Inv) {h : UInt32}
    (hg : handleIsGlobal h = true) : t.entries.length ≤ (handleToIndex h).toNat := by
  have hidx := handleToIndex_of_global hg
  have hle := ht.count_le
  have hcount := ht.length
  unfold maxHandleEntries at hle
  omega

theorem closeHandle_global_spec {s : State} (hs : s.TablesInv) (env : Env) (p : Nat)
    {h : UInt32} (hg : handleIsGlobal h = true) :
    Ensures (closeHandle env s p h) fun r => r.1 = s ∧ r.2 ≠ .success := by
  rcases closeHandle_cases hs env p h with hc | hc | ⟨tid, i, e, obj, hl, he, hobj, -, hc⟩
  · rw [hc]
    exact Ensures.pure ⟨rfl, fun h => by cases h⟩
  · rw [hc]
    exact Ensures.pure ⟨rfl, fun h => by cases h⟩
  rw [hc]
  refine (closeCallback_spec env env.depth s obj p h).bind ?_
  rintro ⟨s₁, ok⟩ ⟨hdrop, hkeep⟩
  cases ok with
  | false =>
    obtain rfl : s₁ = s := hkeep.resolve_right fun h => Bool.false_ne_true h.2
    exact Ensures.pure ⟨rfl, fun h => by cases h⟩
  | true =>
    show Ensures (clearEntry s₁ p h obj) _
    unfold clearEntry
    simp only [hg, if_true]
    cases ht₁ : s₁.table .global with
    | none => exact Ensures.error _
    | some t =>
      dsimp only
      rw [removeEntry_of_length_le (by have := handleToIndex_of_global hg; omega)
        (entries_length_le_of_global (hs .global t (hdrop.table ht₁)) hg), error_bind]
      exact Ensures.error _

/-! ### Handle flags and duplication -/

namespace State

/-- `s'` is `s` with only the access of the entry in slot `i` of table `tid` changed. -/
def AccessChangedAt (s s' : State) (tid : TableId) (i : Nat) : Prop :=
  ∃ e a, (s.slots tid).get i = some e ∧
    s'.slots = Function.update s.slots tid ((s.slots tid).set i (some { e with access := a }))

theorem AccessChangedAt.sameSlots {s s' : State} {tid : TableId} {i : Nat}
    (h : s.AccessChangedAt s' tid i) (tid' : TableId) : (s.slots tid').SameSlots (s'.slots tid') := by
  obtain ⟨e, a, he, hs'⟩ := h
  rw [hs']
  by_cases htid : tid' = tid
  · subst htid
    rw [Function.update_self]
    exact SlotMap.sameSlots_set (by simp [he])
  · rw [Function.update_of_ne htid]
    exact SlotMap.SameSlots.refl _

theorem FilledAt.accessChanged {s s₁ s₂ : State} {tid : TableId} {i : Nat} {e : HandleEntry}
    (hf : s.FilledAt s₁ tid i e) (hc : s₁.AccessChangedAt s₂ tid i) :
    ∃ a, s.FilledAt s₂ tid i { e with access := a } := by
  obtain ⟨hleast, hi, hs₁⟩ := hf
  obtain ⟨e', a, he', hs₂⟩ := hc
  have he'e : e' = e := by
    rw [hs₁, Function.update_self, SlotMap.get_set_self] at he'
    exact (Option.some.inj he').symm
  subst he'e
  refine ⟨a, hleast, hi, ?_⟩
  rw [hs₂, hs₁, Function.update_self, Function.update_idem, SlotMap.set_set]

end State

theorem setAccess_state {s : State} (hs : s.TablesInv) {tid : TableId} {t : HandleTable}
    (ht : s.table tid = some t) {i : Nat} {e : HandleEntry} (he : (s.slots tid).get i = some e)
    (a : UInt32) :
    Returns (store t.entries i { e with access := a }) fun entries =>
      (s.setTable tid { t with entries := entries }).TablesInv ∧
        s.AccessChangedAt (s.setTable tid { t with entries := entries }) tid i := by
  have hslot : t.slot i = some e := by
    rw [State.slots_of_table ht] at he
    exact he
  obtain ⟨-, hget, -⟩ := HandleTable.slot_eq_some_iff.mp hslot
  apply returns_store (List.getElem?_eq_some_iff.mp hget).1
  obtain ⟨hinv, hview⟩ := HandleTable.setAccess_spec (hs _ t ht) hslot { e with access := a } rfl
  refine ⟨hs.setTable hinv tid, e, a, he, ?_⟩
  rw [State.slots_setTable, hview, State.slots_of_table ht]

theorem setHandleFlags_spec {s : State} (hs : s.TablesInv) (env : Env) (process : Option Nat)
    (handle mask flags : UInt32) :
    Ensures (setHandleFlags env s process handle mask flags) fun r => r.1.TablesInv ∧
      (r.1.slots = s.slots ∨ ∃ p tid i, process = some p ∧ s.lookup p handle = some (tid, i) ∧
        s.AccessChangedAt r.1 tid i) := by
  unfold setHandleFlags
  cases env.magicHandle handle with
  | some _ =>
    apply Ensures.pure
    split
    · exact ⟨hs.setError _, .inl (State.slots_setError _ _)⟩
    · exact ⟨hs, .inl rfl⟩
  | none =>
    cases process with
    | none => exact Ensures.error _
    | some p =>
      dsimp only
      rw [getHandle_eq_lookup hs, ok_bind]
      cases hl : s.lookup p handle with
      | none => exact Ensures.pure ⟨hs.setError _, .inl (State.slots_setError _ _)⟩
      | some ref =>
        obtain ⟨tid, i⟩ := ref
        obtain ⟨-, e, he⟩ := State.lookup_eq_some hl
        obtain ⟨t, ht, -⟩ := State.slots_get_eq_some he
        dsimp only
        rw [State.entryAt_of_slots he, ok_bind]
        simp only [ht]
        refine (setAccess_state hs ht he _).ensures.bind ?_
        rintro entries ⟨h1, h2⟩
        exact Ensures.pure ⟨h1, .inr ⟨p, tid, i, rfl, hl, h2⟩⟩

/-- The table a duplicate goes into: the global table, or the destination process's. -/
def dupTarget (dst : Option Nat) (options : UInt32) : Option TableId :=
  if options &&& duplicateMakeGlobal ≠ 0 then some .global else dst.map .process

namespace State

/-- The outcome of `duplicate_handle`: a failure returning 0 that changes no slot, the source
handle itself returned with only accesses changed, or an allocation into the target table. -/
def DupResult (s : State) (srcHandle : UInt32) (dst : Option Nat) (options : UInt32)
    (r : State × UInt32) : Prop :=
  r.1.TablesInv ∧ ((r.2 = 0 ∧ r.1.slots = s.slots) ∨
    (r.2 = srcHandle ∧ ∀ tid, (s.slots tid).SameSlots (r.1.slots tid)) ∨
    ∃ tid ∈ dupTarget dst options, ∃ obj, s.AllocatedAt r.1 tid obj r.2)

theorem DupResult.of_alloc {s : State} {srcHandle : UInt32} {dst : Option Nat} {options : UInt32}
    {tid : TableId} (htid : tid ∈ dupTarget dst options) {obj : Nat} {r : State × UInt32}
    (h : s.AllocResult tid obj r) : s.DupResult srcHandle dst options r := by
  obtain ⟨h1, h2 | h2⟩ := h
  · exact ⟨h1, .inl h2⟩
  · exact ⟨h1, .inr (.inr ⟨tid, htid, obj, h2⟩)⟩

theorem DupResult.failed {s : State} (hs : s.TablesInv) (srcHandle : UInt32) (dst : Option Nat)
    (options : UInt32) (st : NtStatus) : s.DupResult srcHandle dst options (s.setError st, 0) :=
  ⟨hs.setError st, .inl ⟨rfl, slots_setError s st⟩⟩

end State

theorem duplicateChecked_spec {s : State} (hs : s.TablesInv) (env : Env) (srcHandle : UInt32)
    (dst : Option Nat) (obj : Nat) (access attr options : UInt32) :
    Ensures (duplicateChecked env s dst obj access attr options)
      (s.DupResult srcHandle dst options) := by
  unfold duplicateChecked
  dsimp only
  split
  · exact Ensures.pure (State.DupResult.failed hs _ _ _ _)
  · cases dst with
    | none => exact Ensures.error _
    | some d =>
      dsimp only
      split
      · exact Ensures.pure (State.DupResult.failed hs _ _ _ _)
      · split
        · rename_i hglobal
          have htid : TableId.global ∈ dupTarget (some d) options := by simp [dupTarget, hglobal]
          exact (allocGlobalHandle_spec hs env obj _).ensures.mono fun r hr =>
            State.DupResult.of_alloc htid hr
        · rename_i hlocal
          have htid : TableId.process d ∈ dupTarget (some d) options := by simp [dupTarget, hlocal]
          exact (allocHandleNoAccessCheck_spec hs env d obj _ attr).ensures.mono fun r hr =>
            State.DupResult.of_alloc htid hr

theorem duplicateUnchecked_spec {s : State} (hs : s.TablesInv) (src : Nat) (srcHandle : UInt32)
    (dst : Option Nat) (obj : Nat) (entry : Option (TableId × Nat))
    (hentry : ∀ tid i, entry = some (tid, i) → ((s.slots tid).get i).isSome)
    (access attr options : UInt32) :
    Ensures (duplicateUnchecked s src srcHandle dst obj entry access attr options)
      (s.DupResult srcHandle dst options) := by
  unfold duplicateUnchecked
  split
  · rename_i hglobal
    have htid : TableId.global ∈ dupTarget dst options := by simp [dupTarget, hglobal]
    exact (allocGlobalHandleNoAccessCheck_spec hs obj access).ensures.mono fun r hr =>
      State.DupResult.of_alloc htid hr
  · rename_i hlocal
    have htarget : ∀ d, .process d ∈ dupTarget (some d) options := by
      intro d
      simp [dupTarget, hlocal]
    split
    · rename_i tid i d
      obtain ⟨e, he⟩ := Option.isSome_iff_exists.mp (hentry tid i rfl)
      obtain ⟨t, ht, -⟩ := State.slots_get_eq_some he
      rw [State.entryAt_of_slots he, ok_bind]
      dsimp only
      split
      · simp only [ht]
        refine (setAccess_state hs ht he _).ensures.bind ?_
        rintro entries ⟨h1, h2⟩
        exact Ensures.pure ⟨h1, .inr (.inl ⟨rfl, h2.sameSlots⟩)⟩
      · exact (allocHandleEntry_spec hs d obj _ attr).ensures.mono fun r hr =>
          State.DupResult.of_alloc (htarget d) hr
    · rename_i d
      exact (allocHandleEntry_spec hs d obj _ attr).ensures.mono fun r hr =>
        State.DupResult.of_alloc (htarget d) hr
    · exact Ensures.error _

theorem duplicateAlloc_spec {s : State} (hs : s.TablesInv) (env : Env) (src : Nat)
    (srcHandle : UInt32) (dst : Option Nat) (obj : Nat) (entry : Option (TableId × Nat))
    (hentry : ∀ tid i, entry = some (tid, i) → ((s.slots tid).get i).isSome)
    (access srcAccess attr options : UInt32) :
    Ensures (duplicateAlloc env s src srcHandle dst obj entry access srcAccess attr options)
      (s.DupResult srcHandle dst options) := by
  unfold duplicateAlloc
  split
  · exact duplicateChecked_spec hs env srcHandle dst obj access attr options
  · exact duplicateUnchecked_spec hs src srcHandle dst obj entry hentry access attr options

theorem State.DupResult.setHandleFlags {s s₁ : State} {srcHandle : UInt32} {dst : Option Nat}
    {options : UInt32} {res : UInt32} (hr : s.DupResult srcHandle dst options (s₁, res))
    (hres : res ≠ 0) (env : Env) (mask flags : UInt32) :
    Ensures (setHandleFlags env s₁ dst res mask flags) fun r =>
      s.DupResult srcHandle dst options (r.1, res) := by
  obtain ⟨hinv, h0 | ⟨hsrc, hsame⟩ | ⟨tid, htid, obj, i, e, hh, hobj, hf⟩⟩ := hr
  · exact absurd h0.1 hres
  · refine (setHandleFlags_spec hinv env dst res mask flags).mono ?_
    rintro r ⟨h1, hr | ⟨p, tid', i', -, -, hc⟩⟩
    · exact ⟨h1, .inr (.inl ⟨hsrc, fun tid => hr ▸ hsame tid⟩)⟩
    · exact ⟨h1, .inr (.inl ⟨hsrc, fun tid => (hsame tid).trans (hc.sameSlots tid)⟩)⟩
  · refine (setHandleFlags_spec hinv env dst res mask flags).mono ?_
    rintro r ⟨h1, hr | ⟨p, tid', i', rfl, hl, hc⟩⟩
    · exact ⟨h1, .inr (.inr ⟨tid, htid, obj, i, e, hh, hobj, hf.congr' hr.symm⟩)⟩
    · have hslot : ((s₁.slots tid).get i).isSome := by
        rw [hf.2.2, Function.update_self, SlotMap.get_set_self]
        rfl
      have htid' : tid = .global ∨ tid = .process p := by
        unfold dupTarget at htid
        split at htid
        · exact .inl (Option.mem_some_iff.mp htid).symm
        · obtain ⟨d, hd, rfl⟩ := Option.mem_map.mp htid
          exact .inr (Option.some.inj hd ▸ rfl)
      have hl' := State.lookup_of_slot (hh ▸ handleRef_handleOf hf.2.1 p htid') hslot
      rw [hl, Option.some.injEq, Prod.mk.injEq] at hl'
      rw [hl'.1, hl'.2] at hc
      obtain ⟨a, hf'⟩ := hf.accessChanged hc
      exact ⟨h1, .inr (.inr ⟨tid, htid, obj, i, { e with access := a }, hh, hobj, hf'⟩)⟩

theorem duplicateHandle_spec {s : State} (hs : s.TablesInv) (env : Env) (src : Nat)
    (srcHandle : UInt32) (dst : Option Nat) (access attr options : UInt32) :
    Ensures (duplicateHandle env s src srcHandle dst access attr options)
      (s.DupResult srcHandle dst options) := by
  unfold duplicateHandle
  refine Ensures.bind (P := fun _ => True) (fun _ _ => trivial) ?_
  rintro (_ | obj) -
  · exact Ensures.pure (State.DupResult.failed hs _ _ _ _)
  · dsimp only
    rw [getHandle_eq_lookup hs, ok_bind]
    refine Ensures.bind (P := fun _ => True) (fun _ _ => trivial) ?_
    rintro srcAccess -
    have hentry : ∀ tid i, s.lookup src srcHandle = some (tid, i) → ((s.slots tid).get i).isSome :=
      fun tid i hl => Option.isSome_iff_exists.mpr (State.lookup_eq_some hl).2
    refine (duplicateAlloc_spec hs env src srcHandle dst obj _ hentry _ _ attr options).bind ?_
    rintro ⟨s₁, res⟩ hr
    dsimp only
    split
    · rename_i hcond
      refine (State.DupResult.setHandleFlags hr hcond.1 env _ _).bind ?_
      rintro ⟨s₂, _⟩ hr₂
      exact Ensures.pure hr₂
    · exact Ensures.pure hr

end Wine.Server
