import Mathlib.Data.List.Infix
import Mathlib.Logic.Function.Basic

/-!
# Reference-counted tables of names

A table maps slots to a name and a count of references, kept modulo `cap` as a machine word
keeps it. Names are compared through a key, and two names of one key stand for the same entry.
`acquire` returns the slot of a name and adds a reference to it, or puts the name in the lowest
free slot of `[lo, hi)` with one reference, or fails when that range is full; `addRef` and
`release` add and drop a reference to a slot, and a slot whose count drops from one to zero is
freed. A count that reaches `cap` goes round to zero.

The main result is the lifetime of an entry over any sequence of operations in which its count
stays below `cap`: it is there, with the count its history gives, until it has been released as
many times as it was referred to.
-/

namespace RefTable

set_option autoImplicit false

variable {κ β : Type} [DecidableEq β] (key : κ → β) (cap : Nat)

/-- The live slot of `[0, hi)` whose name has the key of `k`. -/
def lookup (hi : Nat) (m : Nat → Option (κ × Nat)) (k : κ) : Option Nat :=
  (List.range hi).find? fun i => (m i).any fun e => key e.1 == key k

/-- The lowest free slot of `[lo, hi)`. -/
def lowestFree (lo hi : Nat) (m : Nat → Option (κ × Nat)) : Option Nat :=
  (List.range' lo (hi - lo)).find? fun i => (m i).isNone

def addRef (m : Nat → Option (κ × Nat)) (i : Nat) : Nat → Option (κ × Nat) :=
  Function.update m i ((m i).map fun e => (e.1, (e.2 + 1) % cap))

/-- A count of zero, left by a count that went round, goes round to `cap - 1` and stays. -/
def release (m : Nat → Option (κ × Nat)) (i : Nat) : Nat → Option (κ × Nat) :=
  Function.update m i ((m i).bind fun e => if e.2 = 1 then none else some (e.1, (e.2 + cap - 1) % cap))

/-- The table after `k` is acquired, and its slot, or `none` when `[lo, hi)` is full. -/
def acquire (lo hi : Nat) (m : Nat → Option (κ × Nat)) (k : κ) :
    (Nat → Option (κ × Nat)) × Option Nat :=
  match lookup key hi m k with
  | some i => (addRef cap m i, some i)
  | none =>
    match lowestFree lo hi m with
    | some i => (Function.update m i (some (k, 1)), some i)
    | none => (m, none)

/-- The operations that change a table. -/
inductive Op (κ : Type) where
  | acquire (k : κ)
  | addRef (i : Nat)
  | release (i : Nat)

def Op.apply (lo hi : Nat) (m : Nat → Option (κ × Nat)) : Op κ → Nat → Option (κ × Nat)
  | .acquire k => (RefTable.acquire key cap lo hi m k).1
  | .addRef i => RefTable.addRef cap m i
  | .release i => RefTable.release cap m i

def run (lo hi : Nat) (m : Nat → Option (κ × Nat)) (ops : List (Op κ)) : Nat → Option (κ × Nat) :=
  ops.foldl (fun m o => o.apply key cap lo hi m) m

/-- The operations that add a reference to the entry of slot `i`, whose name is `k`. -/
def Op.Adds (k : κ) (i : Nat) : Op κ → Bool
  | .acquire k' => key k' == key k
  | .addRef j => j == i
  | .release _ => false

/-- The operations that drop a reference to slot `i`. -/
def Op.Drops (i : Nat) : Op κ → Bool
  | .release j => j == i
  | _ => false

/-- A table whose live slots are in `[lo, hi)`, no two of one key. -/
structure WF (lo hi : Nat) (m : Nat → Option (κ × Nat)) : Prop where
  bounded : ∀ i e, m i = some e → lo ≤ i ∧ i < hi
  unique : ∀ i j ei ej, m i = some ei → m j = some ej → key ei.1 = key ej.1 → i = j

variable {key cap} {lo hi : Nat} {m : Nat → Option (κ × Nat)}

/-! ## The searches -/

theorem lookup_spec {k : κ} {j : Nat} (h : lookup key hi m k = some j) :
    ∃ e, m j = some e ∧ key e.1 = key k := by
  have htest := List.find?_some h
  cases hmj : m j with
  | none => rw [hmj] at htest; cases htest
  | some e =>
    rw [hmj] at htest
    exact ⟨e, rfl, beq_iff_eq.mp htest⟩

theorem lookup_of_live (hwf : WF key lo hi m) {i : Nat} {e : κ × Nat} (hm : m i = some e) {k : κ}
    (hk : key e.1 = key k) : lookup key hi m k = some i := by
  have hfound : ((m i).any fun e => key e.1 == key k) = true := by
    rw [hm]
    exact beq_iff_eq.mpr hk
  have hsome : ((List.range hi).find? fun i => (m i).any fun e => key e.1 == key k).isSome :=
    List.find?_isSome.mpr ⟨i, List.mem_range.mpr (hwf.bounded i e hm).2, hfound⟩
  obtain ⟨j, hj⟩ := Option.isSome_iff_exists.mp hsome
  obtain ⟨ej, hej, hkj⟩ := lookup_spec hj
  unfold lookup
  rw [hj, hwf.unique j i ej e hej hm (hkj.trans hk.symm)]

theorem lookup_of_none {k : κ} (h : ∀ i e, m i = some e → key e.1 ≠ key k) :
    lookup key hi m k = none := by
  refine List.find?_eq_none.mpr fun i _ htest => ?_
  cases hmi : m i with
  | none => rw [hmi] at htest; cases htest
  | some e =>
    rw [hmi] at htest
    exact h i e hmi (beq_iff_eq.mp htest)

theorem lowestFree_eq_some {i : Nat} (hlo : lo ≤ i) (hhi : i < hi) (hfree : m i = none)
    (hlive : ∀ j, lo ≤ j → j < i → m j ≠ none) : lowestFree lo hi m = some i := by
  rw [lowestFree, List.find?_range'_eq_some]
  refine ⟨?_, List.mem_range'_1.mpr ⟨hlo, by omega⟩, fun j hj hji => ?_⟩
  · simp [hfree]
  · simpa [Option.isSome_iff_ne_none] using hlive j hj hji

theorem lowestFree_eq_none (hlive : ∀ j, lo ≤ j → j < hi → m j ≠ none) : lowestFree lo hi m = none := by
  rw [lowestFree, List.find?_range'_eq_none]
  intro j hj hjh
  simpa [Option.isSome_iff_ne_none] using hlive j hj (by omega)

theorem lowestFree_spec {i : Nat} (h : lowestFree lo hi m = some i) :
    lo ≤ i ∧ i < hi ∧ m i = none := by
  rw [lowestFree, List.find?_range'_eq_some] at h
  obtain ⟨hfree, hmem, -⟩ := h
  obtain ⟨hlo, hhi⟩ := List.mem_range'_1.mp hmem
  exact ⟨hlo, by omega, Option.isNone_iff_eq_none.mp hfree⟩

/-! ## The operations -/

omit [DecidableEq β] in
theorem addRef_of_none {i : Nat} (h : m i = none) : addRef cap m i = m := by
  rw [addRef, h]
  exact Function.update_eq_self_iff.mpr h.symm

omit [DecidableEq β] in
theorem release_of_none {i : Nat} (h : m i = none) : release cap m i = m := by
  rw [release, h]
  exact Function.update_eq_self_iff.mpr h.symm

theorem acquire_of_live (hwf : WF key lo hi m) {i : Nat} {e : κ × Nat} (hm : m i = some e) {k : κ}
    (hk : key e.1 = key k) : acquire key cap lo hi m k = (addRef cap m i, some i) := by
  rw [acquire, lookup_of_live hwf hm hk]

theorem acquire_of_free {k : κ} (hnew : ∀ i e, m i = some e → key e.1 ≠ key k) {i : Nat}
    (hf : lowestFree lo hi m = some i) :
    acquire key cap lo hi m k = (Function.update m i (some (k, 1)), some i) := by
  rw [acquire, lookup_of_none hnew]
  dsimp only
  rw [hf]

theorem acquire_of_full {k : κ} (hnew : ∀ i e, m i = some e → key e.1 ≠ key k)
    (hfull : ∀ j, lo ≤ j → j < hi → m j ≠ none) : acquire key cap lo hi m k = (m, none) := by
  rw [acquire, lookup_of_none hnew]
  dsimp only
  rw [lowestFree_eq_none hfull]

theorem run_append (ops₁ ops₂ : List (Op κ)) :
    run key cap lo hi m (ops₁ ++ ops₂) = run key cap lo hi (run key cap lo hi m ops₁) ops₂ :=
  List.foldl_append

/-! ## Each operation keeps the table well formed -/

omit [DecidableEq β] in
theorem WF.of_sub (hwf : WF key lo hi m) {m' : Nat → Option (κ × Nat)}
    (h : ∀ j e, m' j = some e → ∃ e₀, m j = some e₀ ∧ e.1 = e₀.1) : WF key lo hi m' := by
  refine ⟨fun j e hj => ?_, fun j j' e e' hj hj' hk => ?_⟩
  · obtain ⟨e₀, he₀, -⟩ := h j e hj
    exact hwf.bounded j e₀ he₀
  · obtain ⟨e₀, he₀, h₁⟩ := h j e hj
    obtain ⟨e₀', he₀', h₁'⟩ := h j' e' hj'
    exact hwf.unique j j' e₀ e₀' he₀ he₀' (by rw [← h₁, ← h₁', hk])

omit [DecidableEq β] in
theorem addRef_wf (hwf : WF key lo hi m) (i : Nat) : WF key lo hi (addRef cap m i) := by
  refine hwf.of_sub fun j e hj => ?_
  by_cases hji : j = i
  · subst hji
    rw [addRef, Function.update_self] at hj
    obtain ⟨e₀, he₀, rfl⟩ := Option.map_eq_some_iff.mp hj
    exact ⟨e₀, he₀, rfl⟩
  · rw [addRef, Function.update_of_ne hji] at hj
    exact ⟨e, hj, rfl⟩

omit [DecidableEq β] in
theorem release_wf (hwf : WF key lo hi m) (i : Nat) : WF key lo hi (release cap m i) := by
  refine hwf.of_sub fun j e hj => ?_
  by_cases hji : j = i
  · subst hji
    rw [release, Function.update_self] at hj
    obtain ⟨e₀, he₀, hif⟩ := Option.bind_eq_some_iff.mp hj
    by_cases h1 : e₀.2 = 1
    · rw [if_pos h1] at hif
      cases hif
    · rw [if_neg h1] at hif
      cases hif
      exact ⟨e₀, he₀, rfl⟩
  · rw [release, Function.update_of_ne hji] at hj
    exact ⟨e, hj, rfl⟩

omit [DecidableEq β] in
theorem update_wf (hwf : WF key lo hi m) {i : Nat} (hlo : lo ≤ i) (hhi : i < hi) {k : κ}
    (hnew : ∀ j e, m j = some e → key e.1 ≠ key k) : WF key lo hi (Function.update m i (some (k, 1))) := by
  have hval : ∀ j e, Function.update m i (some (k, 1)) j = some e →
      (j = i ∧ e = (k, 1)) ∨ (j ≠ i ∧ m j = some e) := by
    intro j e hj
    by_cases hji : j = i
    · subst hji
      rw [Function.update_self] at hj
      exact .inl ⟨rfl, (Option.some_inj.mp hj).symm⟩
    · rw [Function.update_of_ne hji] at hj
      exact .inr ⟨hji, hj⟩
  refine ⟨fun j e hj => ?_, fun j j' e e' hj hj' hk => ?_⟩
  · rcases hval j e hj with ⟨rfl, -⟩ | ⟨-, hj₀⟩
    · exact ⟨hlo, hhi⟩
    · exact hwf.bounded j e hj₀
  · rcases hval j e hj with ⟨hji, rfl⟩ | ⟨-, hj₀⟩ <;>
      rcases hval j' e' hj' with ⟨hji', rfl⟩ | ⟨-, hj₀'⟩
    · rw [hji, hji']
    · exact absurd hk.symm (hnew j' e' hj₀')
    · exact absurd hk (hnew j e hj₀)
    · exact hwf.unique j j' e e' hj₀ hj₀' hk

theorem acquire_wf (hwf : WF key lo hi m) (k : κ) : WF key lo hi (acquire key cap lo hi m k).1 := by
  rw [acquire]
  cases hl : lookup key hi m k with
  | some i => exact addRef_wf hwf i
  | none =>
    dsimp only
    cases hf : lowestFree lo hi m with
    | none => exact hwf
    | some i =>
      obtain ⟨hlo, hhi, -⟩ := lowestFree_spec hf
      refine update_wf hwf hlo hhi fun j e hj hk => ?_
      rw [lookup_of_live hwf hj hk] at hl
      cases hl

theorem Op.apply_wf (hwf : WF key lo hi m) (o : Op κ) : WF key lo hi (o.apply key cap lo hi m) := by
  cases o with
  | acquire k => exact acquire_wf hwf k
  | addRef i => exact addRef_wf hwf i
  | release i => exact release_wf hwf i

theorem acquire_of_ne {i : Nat} {e : κ × Nat} (hm : m i = some e) {k : κ} (hk : key e.1 ≠ key k) :
    (acquire key cap lo hi m k).1 i = m i := by
  rw [acquire]
  cases hl : lookup key hi m k with
  | some j =>
    obtain ⟨ej, hej, hkj⟩ := lookup_spec hl
    have hij : i ≠ j := by
      intro hij
      subst hij
      rw [hm] at hej
      cases hej
      exact hk hkj
    exact Function.update_of_ne hij _ _
  | none =>
    dsimp only
    cases hf : lowestFree lo hi m with
    | none => rfl
    | some j =>
      have hij : i ≠ j := fun hij => by
        rw [hij, (lowestFree_spec hf).2.2] at hm
        cases hm
      exact Function.update_of_ne hij _ _

theorem run_replicate_acquire (hwf : WF key lo hi m) {i c : Nat} {k k' : κ} (hm : m i = some (k', c))
    (hc : c < cap) (hk : key k' = key k) (n : Nat) :
    run key cap lo hi m (List.replicate n (.acquire k)) i = some (k', (c + n) % cap) := by
  induction n generalizing m c with
  | zero => simpa [run, Nat.mod_eq_of_lt hc] using hm
  | succ n ih =>
    have hstep : (Op.acquire k).apply key cap lo hi m i = some (k', (c + 1) % cap) := by
      rw [Op.apply, acquire_of_live hwf hm hk]
      dsimp only
      rw [addRef, Function.update_self, hm]
      rfl
    rw [List.replicate_succ, show run key cap lo hi m (.acquire k :: List.replicate n (.acquire k)) =
      run key cap lo hi ((Op.acquire k).apply key cap lo hi m) (List.replicate n (.acquire k)) from rfl,
      ih ((Op.acquire k).apply_wf hwf) hstep (Nat.mod_lt _ (by omega)), Nat.mod_add_mod, Nat.add_assoc,
      Nat.add_comm 1 n]

/-! ## The lifetime of an entry -/

section Lifetime

variable {i c : Nat} {k : κ}

omit [DecidableEq β] in
theorem pred_mod_of_lt (hc : 0 < c) (h : c < cap) : (c + cap - 1) % cap = c - 1 := by
  rw [show c + cap - 1 = c - 1 + cap by omega, Nat.add_mod_right, Nat.mod_eq_of_lt (by omega)]

theorem Op.apply_live (hwf : WF key lo hi m) (hm : m i = some (k, c)) (hc : 0 < c) (hcap : c < cap)
    (o : Op κ) (hcap' : c + [o].countP (Op.Adds key k i) - [o].countP (Op.Drops i) < cap) :
    o.apply key cap lo hi m i =
      if c + [o].countP (Op.Adds key k i) - [o].countP (Op.Drops i) = 0 then none
      else some (k, c + [o].countP (Op.Adds key k i) - [o].countP (Op.Drops i)) := by
  have hc0 : c ≠ 0 := Nat.pos_iff_ne_zero.mp hc
  cases o with
  | acquire k' =>
    by_cases hk : key k' = key k
    · have hl : lookup key hi m k' = some i := lookup_of_live hwf hm hk.symm
      have hsucc : (c + 1) % cap = c + 1 := Nat.mod_eq_of_lt (by simpa [Op.Adds, Op.Drops, hk] using hcap')
      simp [Op.apply, Op.Drops, Op.Adds, RefTable.acquire, hl, RefTable.addRef, hm, hk, hsucc]
    · have hkk : key k ≠ key k' := Ne.symm hk
      simp [Op.apply, Op.Drops, Op.Adds, acquire_of_ne hm hkk, hm, hk, hc0]
  | addRef j =>
    by_cases hji : j = i
    · subst hji
      have hsucc : (c + 1) % cap = c + 1 := Nat.mod_eq_of_lt (by simpa [Op.Adds, Op.Drops] using hcap')
      simp [Op.apply, Op.Drops, Op.Adds, RefTable.addRef, hm, hsucc]
    · simp [Op.apply, Op.Drops, Op.Adds, RefTable.addRef, Function.update_of_ne (Ne.symm hji), hm, hji, hc0]
  | release j =>
    by_cases hji : j = i
    · subst hji
      by_cases h1 : c = 1
      · simp [Op.apply, Op.Drops, Op.Adds, RefTable.release, hm, h1]
      · simp [Op.apply, Op.Drops, Op.Adds, RefTable.release, hm, h1, pred_mod_of_lt hc hcap,
          show c - 1 ≠ 0 by omega]
    · simp [Op.apply, Op.Drops, Op.Adds, RefTable.release, Function.update_of_ne (Ne.symm hji), hm, hji, hc0]

theorem countP_cons_eq (p : Op κ → Bool) (o : Op κ) (q : List (Op κ)) :
    (o :: q).countP p = [o].countP p + q.countP p := by
  rw [← List.singleton_append, List.countP_append]

theorem run_live (hwf : WF key lo hi m) (hm : m i = some (k, c)) (hc : 0 < c) (ops : List (Op κ))
    (hlive : ∀ q, q <+: ops → q ≠ ops → q.countP (Op.Drops i) < c + q.countP (Op.Adds key k i))
    (hcap : ∀ q, q <+: ops → c + q.countP (Op.Adds key k i) - q.countP (Op.Drops i) < cap) :
    run key cap lo hi m ops i =
      if c + ops.countP (Op.Adds key k i) - ops.countP (Op.Drops i) = 0 then none
      else some (k, c + ops.countP (Op.Adds key k i) - ops.countP (Op.Drops i)) := by
  induction ops generalizing m c with
  | nil => simp [run, hm, Nat.pos_iff_ne_zero.mp hc]
  | cons o ops ih =>
    have hstep := o.apply_live hwf hm hc (by simpa using hcap [] List.nil_prefix)
      (hcap [o] (List.prefix_cons_inj o |>.mpr List.nil_prefix))
    by_cases hops : ops = []
    · subst hops
      exact hstep
    have hone := hlive [o] (List.prefix_cons_inj o |>.mpr List.nil_prefix)
      fun e => hops ((List.cons_inj_right o).mp e).symm
    rw [if_neg (by omega)] at hstep
    have ih' := ih (o.apply_wf hwf) hstep (by omega)
      (fun q hq hne => by
        have := hlive (o :: q) (List.prefix_cons_inj o |>.mpr hq) fun e => hne ((List.cons_inj_right o).mp e)
        rw [countP_cons_eq (Op.Drops i) o q, countP_cons_eq (Op.Adds key k i) o q] at this
        omega)
      (fun q hq => by
        have := hcap (o :: q) (List.prefix_cons_inj o |>.mpr hq)
        rw [countP_cons_eq (Op.Drops i) o q, countP_cons_eq (Op.Adds key k i) o q] at this
        omega)
    show run key cap lo hi (o.apply key cap lo hi m) ops i = _
    rw [ih', countP_cons_eq (Op.Adds key k i) o ops, countP_cons_eq (Op.Drops i) o ops]
    have harith : c + [o].countP (Op.Adds key k i) - [o].countP (Op.Drops i) + ops.countP (Op.Adds key k i) -
        ops.countP (Op.Drops i) = c + ([o].countP (Op.Adds key k i) + ops.countP (Op.Adds key k i)) -
        ([o].countP (Op.Drops i) + ops.countP (Op.Drops i)) := by omega
    rw [harith]

end Lifetime

end RefTable
