import Mathlib

/-!
# A value published in two halves through three cells

One writer publishes a sequence of values `w 0, w 1, ...`: to publish `w n` it stores the high
half into a guard cell, then the low half, then the high half into the main cell. A reader loads
the main high cell, the low cell and the guard cell, in that order, and starts over until the
two high halves agree. Every load and store is one step of an interleaving of the writer with
any number of readers.

The writer's position is the number of stores it has made: store `t` is store `t % 3` of write
`t / 3 + 1`. The cells then hold the halves of writes `t / 3`, `(t + 1) / 3` and `(t + 2) / 3`.
The values a reader returns are exactly the high half of one write joined with the low half of a
later one, where a write later still shares that high half (`returned_iff`). Where the high
halves never come back to a value they left, that is one written value, of a write finished no
earlier than the read began and begun no later than it ended (`returned_written`).
-/

namespace SplitWord

structure Cells (H L : Type*) where
  high1 : H
  low : L
  high2 : H

/-- A reader's position in its loop, with what it has loaded. -/
inductive Reader (H L V : Type*)
  | start
  | loadedHigh (high : H)
  | loadedLow (high : H) (low : L)
  | done (value : V)

structure State (H L V ι : Type*) where
  stores : Nat
  cells : Cells H L
  readers : ι → Reader H L V

inductive Act (ι : Type*)
  | writer
  | reader (i : ι)

section Protocol

variable {H L V ι : Type*} (hi : V → H) (lo : V → L) (join : H → L → V) (w : Nat → V)

/-- The writer's next store. -/
def writerStep (s : State H L V ι) : State H L V ι :=
  let n := s.stores / 3 + 1
  { s with
    stores := s.stores + 1
    cells :=
      match s.stores % 3 with
      | 0 => { s.cells with high2 := hi (w n) }
      | 1 => { s.cells with low := lo (w n) }
      | _ => { s.cells with high1 := hi (w n) } }

/-- The first value is in place and no reader has started. -/
def init : State H L V ι :=
  { stores := 0, cells := ⟨hi (w 0), lo (w 0), hi (w 0)⟩, readers := fun _ => .start }

/-- The main high cell, the low cell and the guard cell hold the halves of writes `t / 3`,
`(t + 1) / 3` and `(t + 2) / 3` after `t` stores. -/
def CellsOk (s : State H L V ι) : Prop :=
  s.cells = ⟨hi (w (s.stores / 3)), lo (w ((s.stores + 1) / 3)), hi (w ((s.stores + 2) / 3))⟩

theorem cellsOk_init : CellsOk hi lo w (init hi lo w : State H L V ι) := by
  simp [CellsOk, init]

/-- A value a reader may return having started when write `k` was complete, with the writer at
`t` stores now: the high half of write `a` and the low half of write `b`, where write `c`, begun
by now, has the same high half. -/
def Returnable (k t : Nat) (v : V) : Prop :=
  ∃ a b c, k ≤ a ∧ a ≤ b ∧ b ≤ c ∧ c ≤ (t + 2) / 3 ∧ hi (w a) = hi (w c) ∧ v = join (hi (w a)) (lo (w b))

/-- What each position of a reader that started when write `k` was complete has loaded. -/
def ReaderOk (k t : Nat) : Reader H L V → Prop
  | .start => True
  | .loadedHigh high => ∃ a, k ≤ a ∧ a ≤ t / 3 ∧ high = hi (w a)
  | .loadedLow high low =>
    ∃ a b, k ≤ a ∧ a ≤ b ∧ b ≤ (t + 1) / 3 ∧ high = hi (w a) ∧ low = lo (w b)
  | .done v => Returnable hi lo join w k t v

theorem Returnable.mono {k t t' : Nat} {v : V} (h : Returnable hi lo join w k t v) (ht : t ≤ t') :
    Returnable hi lo join w k t' v := by
  obtain ⟨a, b, c, hka, hab, hbc, hc, heq, rfl⟩ := h
  exact ⟨a, b, c, hka, hab, hbc, by omega, heq, rfl⟩

theorem ReaderOk.mono {k t t' : Nat} {r : Reader H L V} (h : ReaderOk hi lo join w k t r)
    (ht : t ≤ t') : ReaderOk hi lo join w k t' r := by
  cases r with
  | start => trivial
  | loadedHigh high =>
    obtain ⟨a, hka, ha, rfl⟩ := h
    exact ⟨a, hka, by omega, rfl⟩
  | loadedLow high low =>
    obtain ⟨a, b, hka, hab, hb, rfl, rfl⟩ := h
    exact ⟨a, b, hka, hab, by omega, rfl, rfl⟩
  | done v => exact Returnable.mono hi lo join w h ht

variable [DecidableEq H] [DecidableEq ι]

/-- A reader's next load. -/
def readerStep (c : Cells H L) : Reader H L V → Reader H L V
  | .start => .loadedHigh c.high1
  | .loadedHigh high => .loadedLow high c.low
  | .loadedLow high low => if high = c.high2 then .done (join high low) else .start
  | .done v => .done v

def step (s : State H L V ι) : Act ι → State H L V ι
  | .writer => writerStep hi lo w s
  | .reader i =>
    { s with readers := Function.update s.readers i (readerStep join s.cells (s.readers i)) }

def run (s : State H L V ι) (acts : List (Act ι)) : State H L V ι :=
  acts.foldl (step hi lo join w) s

@[simp] theorem run_nil (s : State H L V ι) : run hi lo join w s [] = s := rfl

theorem run_cons (s : State H L V ι) (a : Act ι) (acts : List (Act ι)) :
    run hi lo join w s (a :: acts) = run hi lo join w (step hi lo join w s a) acts := rfl

theorem run_append (s : State H L V ι) (l₁ l₂ : List (Act ι)) :
    run hi lo join w s (l₁ ++ l₂) = run hi lo join w (run hi lo join w s l₁) l₂ :=
  List.foldl_append

@[simp] theorem step_writer_stores (s : State H L V ι) :
    (step hi lo join w s .writer).stores = s.stores + 1 := rfl

@[simp] theorem step_writer_readers (s : State H L V ι) :
    (step hi lo join w s .writer).readers = s.readers := rfl

@[simp] theorem step_reader_stores (s : State H L V ι) (i : ι) :
    (step hi lo join w s (.reader i)).stores = s.stores := rfl

@[simp] theorem step_reader_cells (s : State H L V ι) (i : ι) :
    (step hi lo join w s (.reader i)).cells = s.cells := rfl

@[simp] theorem step_reader_self (s : State H L V ι) (i : ι) :
    (step hi lo join w s (.reader i)).readers i = readerStep join s.cells (s.readers i) := by
  simp [step]

theorem step_reader_other (s : State H L V ι) {i j : ι} (h : j ≠ i) :
    (step hi lo join w s (.reader i)).readers j = s.readers j := by
  simp [step, Function.update_of_ne h]

/-! The cells are fixed by the writer's position. -/

theorem CellsOk.step {s : State H L V ι} (hs : CellsOk hi lo w s) (a : Act ι) :
    CellsOk hi lo w (step hi lo join w s a) := by
  cases a with
  | reader i => exact hs
  | writer =>
    unfold CellsOk at hs ⊢
    simp only [SplitWord.step, writerStep, hs]
    have h3 := Nat.mod_lt s.stores (show 0 < 3 by norm_num)
    rcases (by omega : s.stores % 3 = 0 ∨ s.stores % 3 = 1 ∨ s.stores % 3 = 2) with h | h | h <;>
      simp only [h, Cells.mk.injEq] <;> refine ⟨?_, ?_, ?_⟩ <;> congr 2 <;> omega

theorem CellsOk.run {s : State H L V ι} (hs : CellsOk hi lo w s) (acts : List (Act ι)) :
    CellsOk hi lo w (run hi lo join w s acts) := by
  induction acts generalizing s with
  | nil => exact hs
  | cons a acts ih => exact ih (hs.step hi lo join w a)

/-! What a reader holds: an invariant over every interleaving. -/

omit [DecidableEq ι] in
theorem ReaderOk.readerStep {k : Nat} {s : State H L V ι} (hs : CellsOk hi lo w s)
    (hk : k ≤ s.stores / 3) {r : Reader H L V} (h : ReaderOk hi lo join w k s.stores r) :
    ReaderOk hi lo join w k s.stores (readerStep join s.cells r) := by
  rw [hs]
  cases r with
  | start => exact ⟨s.stores / 3, hk, le_rfl, rfl⟩
  | loadedHigh high =>
    obtain ⟨a, hka, ha, rfl⟩ := h
    exact ⟨a, (s.stores + 1) / 3, hka, by omega, le_rfl, rfl, rfl⟩
  | loadedLow high low =>
    obtain ⟨a, b, hka, hab, hb, rfl, rfl⟩ := h
    simp only [SplitWord.readerStep]
    split_ifs with heq
    · exact ⟨a, b, (s.stores + 2) / 3, hka, hab, by omega, le_rfl, heq, rfl⟩
    · trivial
  | done v => exact h

/-- The invariant of one reader that started when write `k` was complete. -/
structure Inv (k : Nat) (i : ι) (s : State H L V ι) : Prop where
  cells : CellsOk hi lo w s
  started : k ≤ s.stores / 3
  reader : ReaderOk hi lo join w k s.stores (s.readers i)

theorem Inv.step {k : Nat} {i : ι} {s : State H L V ι} (h : Inv hi lo join w k i s) (a : Act ι) :
    Inv hi lo join w k i (step hi lo join w s a) := by
  refine ⟨h.cells.step hi lo join w a, ?_, ?_⟩
  · cases a <;> simp only [step_writer_stores, step_reader_stores] <;> have := h.started <;> omega
  · cases a with
    | writer => exact h.reader.mono hi lo join w (Nat.le_succ _)
    | reader j =>
      by_cases hj : i = j
      · subst hj
        rw [step_reader_self]
        exact h.reader.readerStep hi lo join w h.cells h.started
      · rw [step_reader_other hi lo join w s hj]
        exact h.reader

theorem Inv.run {k : Nat} {i : ι} {s : State H L V ι} (h : Inv hi lo join w k i s)
    (acts : List (Act ι)) : Inv hi lo join w k i (run hi lo join w s acts) := by
  induction acts generalizing s with
  | nil => exact h
  | cons a acts ih => exact ih (h.step hi lo join w a)

theorem returned_returnable {s : State H L V ι} (hs : CellsOk hi lo w s) {i : ι}
    (hstart : s.readers i = .start) (acts : List (Act ι)) {v : V}
    (hv : (run hi lo join w s acts).readers i = .done v) :
    Returnable hi lo join w (s.stores / 3) (run hi lo join w s acts).stores v := by
  have h := (Inv.mk hs le_rfl (by rw [hstart]; trivial) : Inv hi lo join w _ i s).run hi lo join w acts
  have hr := h.reader
  rw [hv] at hr
  exact hr

/-! Every such value is returned by some interleaving. -/

theorem run_writes (s : State H L V ι) (m : Nat) :
    (run hi lo join w s (List.replicate m .writer)).stores = s.stores + m ∧
      (run hi lo join w s (List.replicate m .writer)).readers = s.readers := by
  induction m generalizing s with
  | zero => exact ⟨rfl, rfl⟩
  | succ m ih =>
    rw [List.replicate_succ, run_cons]
    obtain ⟨h1, h2⟩ := ih (step hi lo join w s .writer)
    rw [h1, h2, step_writer_stores, step_writer_readers]
    exact ⟨by omega, rfl⟩

theorem exists_run_load {s : State H L V ι} (hs : CellsOk hi lo w s) {t : Nat} (ht : s.stores ≤ t)
    (i : ι) :
    ∃ acts, (run hi lo join w s acts).stores = t ∧ CellsOk hi lo w (run hi lo join w s acts) ∧
      (run hi lo join w s acts).readers i = readerStep join
        ⟨hi (w (t / 3)), lo (w ((t + 1) / 3)), hi (w ((t + 2) / 3))⟩ (s.readers i) := by
  obtain ⟨h1, h2⟩ := run_writes hi lo join w s (t - s.stores)
  have hc := hs.run hi lo join w (List.replicate (t - s.stores) .writer)
  unfold CellsOk at hc
  rw [h1, Nat.add_sub_cancel' ht] at hc
  refine ⟨List.replicate (t - s.stores) .writer ++ [.reader i], ?_, hs.run hi lo join w _, ?_⟩
  · rw [run_append, run_cons, run_nil, step_reader_stores, h1, Nat.add_sub_cancel' ht]
  · rw [run_append, run_cons, run_nil, step_reader_self, h2, hc]

theorem returnable_returned (i : ι) {a b c : Nat} (hab : a ≤ b) (hbc : b ≤ c)
    (heq : hi (w a) = hi (w c)) :
    ∃ acts, (run hi lo join w (init hi lo w) acts).readers i =
      .done (join (hi (w a)) (lo (w b))) := by
  -- load the main cell after 3a stores, the low cell after t₁ and the guard cell after t₂
  let t₁ := max (3 * a) (3 * b - 1)
  let t₂ := max t₁ (3 * c - 2)
  obtain ⟨acts₁, e₁, c₁, r₁⟩ := exists_run_load hi lo join w (cellsOk_init hi lo w)
    (Nat.zero_le (3 * a)) i
  obtain ⟨acts₂, e₂, c₂, r₂⟩ := exists_run_load hi lo join w c₁ (t := t₁) (by omega) i
  obtain ⟨acts₃, -, -, r₃⟩ := exists_run_load hi lo join w c₂ (t := t₂) (by omega) i
  refine ⟨acts₁ ++ acts₂ ++ acts₃, ?_⟩
  rw [run_append, run_append, r₃, r₂, r₁]
  have ha : 3 * a / 3 = a := by omega
  have hb : (t₁ + 1) / 3 = b := by omega
  have hc : (t₂ + 2) / 3 = c := by omega
  simp only [init, readerStep, ha, hb, hc, heq, if_true]

theorem returned_iff (i : ι) (v : V) :
    (∃ acts, (run hi lo join w (init hi lo w) acts).readers i = .done v) ↔
      ∃ a b c, a ≤ b ∧ b ≤ c ∧ hi (w a) = hi (w c) ∧ v = join (hi (w a)) (lo (w b)) := by
  constructor
  · rintro ⟨acts, hv⟩
    obtain ⟨a, b, c, -, hab, hbc, -, heq, rfl⟩ :=
      returned_returnable hi lo join w (cellsOk_init hi lo w) rfl acts hv
    exact ⟨a, b, c, hab, hbc, heq, rfl⟩
  · rintro ⟨a, b, c, hab, hbc, heq, rfl⟩
    exact returnable_returned hi lo join w i hab hbc heq

theorem returned_written
    (hback : ∀ a b c, a ≤ b → b ≤ c → hi (w a) = hi (w c) → hi (w b) = hi (w a))
    (hjoin : ∀ v, join (hi v) (lo v) = v) {s : State H L V ι} (hs : CellsOk hi lo w s) {i : ι}
    (hstart : s.readers i = .start) (acts : List (Act ι)) {v : V}
    (hv : (run hi lo join w s acts).readers i = .done v) :
    ∃ b, s.stores / 3 ≤ b ∧ b ≤ ((run hi lo join w s acts).stores + 2) / 3 ∧ v = w b := by
  obtain ⟨a, b, c, hka, hab, hbc, hc, heq, rfl⟩ := returned_returnable hi lo join w hs hstart acts hv
  refine ⟨b, by omega, by omega, ?_⟩
  rw [← hback a b c hab hbc heq, hjoin]

end Protocol

theorem back_of_monotone {H V : Type*} [PartialOrder H] {hi : V → H} {w : Nat → V}
    (hmono : Monotone (hi ∘ w)) (a b c : Nat) (hab : a ≤ b) (hbc : b ≤ c)
    (heq : hi (w a) = hi (w c)) : hi (w b) = hi (w a) :=
  le_antisymm (heq ▸ hmono hbc) (hmono hab)

end SplitWord
