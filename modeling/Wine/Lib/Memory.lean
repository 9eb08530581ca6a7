import Mathlib

/-!
# Checked memory objects

A C object is modelled as the list of its cells. Every access names an index, and an
access outside the object is a fault rather than a value, so a program that never
faults touches only the objects it was given and only inside them.

`Returns x Q` says that `x` finishes without a fault in a state satisfying `Q`; its rules
are the pre/postcondition rules used by the memory-safety proofs of the models.
-/

namespace Mem

set_option autoImplicit false

/-- Undefined behaviour that the models detect instead of executing. -/
inductive Fault where
  /-- a read or write outside the object it addresses -/
  | outOfBounds
  /-- a signed arithmetic result outside the range of its type -/
  | overflow
  /-- a dereference of a null pointer -/
  | nullPointer
  /-- nested calls deeper than the bound a model follows them to; the code has no such bound -/
  | outOfFuel
  deriving DecidableEq, Repr

/-- Computations that may stop on undefined behaviour. -/
abbrev Run (α : Type) := Except Fault α

/-- The result of C `int` arithmetic: outside the type's range it is undefined behaviour. -/
def int32 (x : Int) : Run Int :=
  if -2 ^ 31 ≤ x ∧ x < 2 ^ 31 then pure x else .error .overflow

variable {α β : Type}

/-- Read cell `i` of an object. -/
def load (b : List α) (i : Nat) : Run α :=
  if h : i < b.length then .ok b[i] else .error .outOfBounds

/-- Write cell `i` of an object. -/
def store (b : List α) (i : Nat) (v : α) : Run (List α) :=
  if i < b.length then .ok (b.set i v) else .error .outOfBounds

/-- `memcpy`/`memmove` of `n` cells from `src` at `s` into `dst` at `d`. The source cells are
read before any is written, so overlapping ranges within one object are handled by passing
the same list twice. -/
def copy (dst : List α) (d : Nat) (src : List α) (s n : Nat) : Run (List α) :=
  if s + n ≤ src.length ∧ d + n ≤ dst.length then
    .ok (dst.take d ++ (src.drop s).take n ++ dst.drop (d + n))
  else .error .outOfBounds

/-- `memset` of `n` cells of `dst` at `d` to `v`. -/
def fill (dst : List α) (d n : Nat) (v : α) : Run (List α) :=
  if d + n ≤ dst.length then .ok (dst.take d ++ List.replicate n v ++ dst.drop (d + n))
  else .error .outOfBounds

/-- Read cell `i` of an object through a signed index; a negative one is before the object. -/
def loadInt (b : List α) (i : Int) : Run α :=
  if i < 0 then .error .outOfBounds else load b i.toNat

/-- Write cell `i` of an object through a signed index. -/
def storeInt (b : List α) (i : Int) (v : α) : Run (List α) :=
  if i < 0 then .error .outOfBounds else store b i.toNat v

/-- Read the cell `k` places before cell `i`; a pointer before the object faults. -/
def loadBack (b : List α) (i k : Nat) : Run α :=
  if k ≤ i then load b (i - k) else .error .outOfBounds

/-- The object seen through the pointer `b + start` with the size `n`: the callee's view of a
(pointer, size) argument, which must lie inside the caller's object. -/
def slice (b : List α) (start n : Nat) : Run (List α) :=
  if start + n ≤ b.length then .ok ((b.drop start).take n) else .error .outOfBounds

/-- The caller's object after the callee has rewritten the slice at `start`. -/
def unslice (b : List α) (start : Nat) (s : List α) : List α :=
  b.take start ++ s ++ b.drop (start + s.length)

/-- The computation finishes without a fault, in a result satisfying `Q`. -/
def Returns (x : Run α) (Q : α → Prop) : Prop := ∃ a, x = .ok a ∧ Q a

section Rules

variable {x : Run α} {P Q : α → Prop}

theorem Returns.pure {a : α} (h : Q a) : Returns (Pure.pure a : Run α) Q := ⟨a, rfl, h⟩

theorem Returns.ok {a : α} (h : Q a) : Returns (.ok a : Run α) Q := ⟨a, rfl, h⟩

theorem Returns.mono (h : Returns x P) (hPQ : ∀ a, P a → Q a) : Returns x Q := by
  obtain ⟨a, hx, ha⟩ := h
  exact ⟨a, hx, hPQ a ha⟩

theorem Returns.bind {f : α → Run β} {R : β → Prop} (h : Returns x P)
    (hf : ∀ a, P a → Returns (f a) R) : Returns (x >>= f) R := by
  obtain ⟨a, hx, ha⟩ := h
  obtain ⟨b, hb, hR⟩ := hf a ha
  exact ⟨b, by simp [hx, hb, Bind.bind, Except.bind], hR⟩

theorem Returns.ite {c : Prop} [Decidable c] {y z : Run α}
    (hy : c → Returns y Q) (hz : ¬ c → Returns z Q) : Returns (if c then y else z) Q := by
  by_cases hc : c
  · simpa [hc] using hy hc
  · simpa [hc] using hz hc

theorem Returns.of_eq {a : α} (hx : x = .ok a) (h : Q a) : Returns x Q := ⟨a, hx, h⟩

theorem Returns.map {f : α → β} {R : β → Prop} (h : Returns x P) (hf : ∀ a, P a → R (f a)) :
    Returns (f <$> x) R := by
  obtain ⟨a, hx, ha⟩ := h
  exact ⟨f a, by rw [hx]; rfl, hf a ha⟩

theorem Returns.ne_error (h : Returns x Q) (e : Fault) : x ≠ .error e := by
  obtain ⟨a, hx, _⟩ := h
  simp [hx]

@[simp] theorem ok_bind {a : α} {f : α → Run β} : (.ok a : Run α) >>= f = f a := rfl

@[simp] theorem error_bind {e : Fault} {f : α → Run β} : (.error e : Run α) >>= f = .error e := rfl

theorem bind_eq_ok {f : α → Run β} {b : β} : x >>= f = .ok b ↔ ∃ a, x = .ok a ∧ f a = .ok b := by
  cases x <;> simp [Bind.bind, Except.bind]

end Rules

/-- Every result the computation finishes with satisfies `Q`; a fault satisfies anything. This
is the partial-correctness counterpart of `Returns`, for code that may fault. -/
def Ensures (x : Run α) (Q : α → Prop) : Prop := ∀ a, x = .ok a → Q a

section EnsuresRules

variable {x : Run α} {P Q : α → Prop}

theorem Ensures.pure {a : α} (h : Q a) : Ensures (Pure.pure a : Run α) Q := by
  rintro b ⟨⟩
  exact h

theorem Ensures.error (e : Fault) : Ensures (.error e : Run α) Q := by
  rintro b ⟨⟩

theorem Ensures.mono (h : Ensures x P) (hPQ : ∀ a, P a → Q a) : Ensures x Q :=
  fun a ha => hPQ a (h a ha)

theorem Ensures.and (hP : Ensures x P) (hQ : Ensures x Q) : Ensures x fun a => P a ∧ Q a :=
  fun a ha => ⟨hP a ha, hQ a ha⟩

theorem Ensures.bind {f : α → Run β} {R : β → Prop} (h : Ensures x P)
    (hf : ∀ a, P a → Ensures (f a) R) : Ensures (x >>= f) R := by
  intro b hb
  obtain ⟨a, hx, hfa⟩ := bind_eq_ok.mp hb
  exact hf a (h a hx) b hfa

theorem Ensures.bind_of_forall {f : α → Run β} {R : β → Prop} (hf : ∀ a, Ensures (f a) R) :
    Ensures (x >>= f) R := by
  intro b hb
  obtain ⟨a, _, hfa⟩ := bind_eq_ok.mp hb
  exact hf a b hfa

theorem Ensures.map {f : α → β} {R : β → Prop} (h : Ensures x P) (hf : ∀ a, P a → R (f a)) :
    Ensures (f <$> x) R := by
  intro b hb
  cases x with
  | error e => cases hb
  | ok a =>
    cases hb
    exact hf a (h a rfl)

theorem Returns.ensures (h : Returns x Q) : Ensures x Q := by
  obtain ⟨a, hx, ha⟩ := h
  intro b hb
  rw [hx] at hb
  cases hb
  exact ha

section Folds

variable {γ : Type} {R : β → β → Prop} {f : β → γ → Run β} {l : List γ}

theorem Ensures.foldlM (hrefl : ∀ b, R b b) (htrans : ∀ {a b c}, R a b → R b c → R a c)
    (hf : ∀ b c, c ∈ l → Ensures (f b c) (R b)) (b : β) : Ensures (l.foldlM f b) (R b) := by
  induction l generalizing b with
  | nil => exact Ensures.pure (hrefl b)
  | cons c l ih =>
    rw [List.foldlM_cons]
    refine Ensures.bind (hf b c List.mem_cons_self) fun b' hb' => ?_
    exact (ih (fun b c hc => hf b c (List.mem_cons_of_mem _ hc)) b').mono fun _ h => htrans hb' h

theorem Ensures.foldlM_of_mem {P : β → Prop} (hkeep : ∀ {b b'}, P b → R b b' → P b')
    (hf : ∀ b c, c ∈ l → Ensures (f b c) (R b)) {c : γ} (hc : c ∈ l)
    (hmake : ∀ b, Ensures (f b c) P) (hrefl : ∀ b, R b b)
    (htrans : ∀ {a b c}, R a b → R b c → R a c) (b : β) : Ensures (l.foldlM f b) P := by
  induction l generalizing b with
  | nil => cases hc
  | cons d l ih =>
    have hrest : ∀ b c, c ∈ l → Ensures (f b c) (R b) := fun b c hc =>
      hf b c (List.mem_cons_of_mem _ hc)
    rw [List.foldlM_cons]
    by_cases hcd : c = d
    · subst hcd
      refine Ensures.bind (hmake b) fun b' hb' => ?_
      exact (Ensures.foldlM hrefl htrans hrest b').mono fun _ h => hkeep hb' h
    · exact Ensures.bind_of_forall fun b' =>
        ih hrest ((List.mem_cons.mp hc).resolve_left hcd) b'

end Folds

end EnsuresRules

/-! ## Runs that can also return an error code

A function that returns a status code runs in `ExceptT ε Run`: a fault stops it as undefined
behaviour, an error code is an ordinary result. `Faults F x Q` says that `x` faults only with
a fault in `F` and that a value it returns satisfies `Q`. -/

def Faults {ε : Type} (F : Fault → Prop) (x : ExceptT ε Run α) (Q : α → Prop) : Prop :=
  match x.run with
  | .error f => F f
  | .ok (.error _) => True
  | .ok (.ok a) => Q a

section FaultsRules

variable {ε : Type} {F : Fault → Prop} {x : ExceptT ε Run α} {P Q : α → Prop}

theorem Faults.pure {a : α} (h : Q a) : Faults F (Pure.pure a : ExceptT ε Run α) Q := h

theorem Faults.throw {e : ε} : Faults F (MonadExcept.throw e : ExceptT ε Run α) Q := trivial

theorem Faults.mono (h : Faults F x P) (hPQ : ∀ a, P a → Q a) : Faults F x Q := by
  unfold Faults at *
  split at h
  · exact h
  · trivial
  · exact hPQ _ h

theorem Faults.bind {f : α → ExceptT ε Run β} {R : β → Prop} (h : Faults F x P)
    (hf : ∀ a, P a → Faults F (f a) R) : Faults F (x >>= f) R := by
  unfold Faults at h ⊢
  rw [ExceptT.run_bind]
  split at h
  · next hx => rw [hx]; exact h
  · next hx => rw [hx]; trivial
  · next hx => rw [hx]; exact hf _ h

theorem Faults.ite {c : Prop} [Decidable c] {y z : ExceptT ε Run α}
    (hy : c → Faults F y Q) (hz : ¬c → Faults F z Q) : Faults F (if c then y else z) Q := by
  split
  · next h => exact hy h
  · next h => exact hz h

theorem Faults.lift {y : Run α} (hF : ∀ f, y = .error f → F f) (hQ : Ensures y Q) :
    Faults F (monadLift y : ExceptT ε Run α) Q := by
  cases y with
  | error f => exact hF f rfl
  | ok a => exact hQ a rfl

theorem Faults.lift_returns {y : Run α} (h : Returns y Q) :
    Faults F (monadLift y : ExceptT ε Run α) Q := by
  obtain ⟨a, rfl, ha⟩ := h
  exact ha

theorem lift_bind_of_ok {y : Run α} {a : α} (hy : y = .ok a) (f : α → ExceptT ε Run β) :
    (monadLift y >>= f : ExceptT ε Run β) = f a := by
  subst hy
  rfl

theorem run_lift_bind_of_error {y : Run α} {e : Fault} (hy : y = .error e)
    (f : α → ExceptT ε Run β) : (monadLift y >>= f : ExceptT ε Run β).run = .error e := by
  subst hy
  rfl

theorem run_bind_of_run_error {e : Fault} (hx : x.run = .error e) (f : α → ExceptT ε Run β) :
    (x >>= f).run = .error e := by
  rw [ExceptT.run_bind, hx]
  rfl

end FaultsRules

/-! ## Runs over a smaller object

`Narrower x y` says that `x` is the run `y` over objects that are cut short: it gives the same
result, or it stops on a read out of bounds that `y` did not make. -/

def Narrower (x y : Run α) : Prop := x = y ∨ x = .error .outOfBounds

section NarrowerRules

variable {ε : Type} {x y : Run α}

theorem Narrower.rfl : Narrower x x := .inl (Eq.refl x)

theorem Narrower.outOfBounds : Narrower (.error .outOfBounds) y := .inr (Eq.refl _)

theorem Narrower.bind {f g : α → Run β} (h : Narrower x y) (hf : ∀ a, Narrower (f a) (g a)) :
    Narrower (x >>= f) (y >>= g) := by
  rcases h with rfl | rfl
  · cases x with
    | error e => exact .rfl
    | ok a => exact hf a
  · exact .outOfBounds

theorem Narrower.ite {c : Prop} [Decidable c] {x' y' : Run α} (hx : c → Narrower x x')
    (hy : ¬c → Narrower y y') : Narrower (if c then x else y) (if c then x' else y') := by
  split
  · next h => exact hx h
  · next h => exact hy h

theorem Narrower.exceptBind {x y : ExceptT ε Run α} {f g : α → ExceptT ε Run β}
    (h : Narrower x.run y.run) (hf : ∀ a, Narrower (f a).run (g a).run) :
    Narrower (x >>= f).run (y >>= g).run := by
  rw [ExceptT.run_bind, ExceptT.run_bind]
  refine h.bind fun r => ?_
  cases r with
  | error e => exact .rfl
  | ok a => exact hf a

theorem Narrower.lift (h : Narrower x y) :
    Narrower (monadLift x : ExceptT ε Run α).run (monadLift y : ExceptT ε Run α).run :=
  h.bind fun _ => .rfl

end NarrowerRules

section Access

variable {b : List α} {i : Nat}

theorem load_of_lt (h : i < b.length) : load b i = .ok b[i] := by
  simp [load, h]

theorem load_eq_ok {a : α} : load b i = .ok a ↔ ∃ h : i < b.length, b[i] = a := by
  unfold load
  split <;> simp_all

theorem store_eq_ok {v : α} {b' : List α} : store b i v = .ok b' ↔ i < b.length ∧ b.set i v = b' := by
  unfold store
  split <;> simp_all

theorem ensures_load : Ensures (load b i) fun a => ∃ h : i < b.length, b[i] = a :=
  fun _ h => load_eq_ok.mp h

theorem ensures_store {v : α} : Ensures (store b i v) fun b' => i < b.length ∧ b.set i v = b' :=
  fun _ h => store_eq_ok.mp h

theorem loadInt_of_neg {j : Int} (h : j < 0) : loadInt b j = .error .outOfBounds := by
  simp [loadInt, h]

theorem loadInt_of_lt {j : Int} (h0 : 0 ≤ j) (h : j.toNat < b.length) : loadInt b j = .ok b[j.toNat] := by
  rw [loadInt, if_neg (by omega), load_of_lt h]

theorem load_eq_error (h : b.length ≤ i) : load b i = .error .outOfBounds := by
  simp [load, Nat.not_lt.mpr h]

theorem store_of_lt {v : α} (h : i < b.length) : store b i v = .ok (b.set i v) := by
  simp [store, h]

theorem storeInt_of_lt {j : Int} {v : α} (h0 : 0 ≤ j) (h : j.toNat < b.length) :
    storeInt b j v = .ok (b.set j.toNat v) := by
  rw [storeInt, if_neg (by omega), store_of_lt h]

theorem store_eq_error {v : α} (h : b.length ≤ i) : store b i v = .error .outOfBounds := by
  simp [store, Nat.not_lt.mpr h]

theorem returns_load {Q : α → Prop} (h : i < b.length) (hQ : Q b[i]) : Returns (load b i) Q :=
  .of_eq (load_of_lt h) hQ

theorem returns_store {v : α} {Q : List α → Prop} (h : i < b.length) (hQ : Q (b.set i v)) :
    Returns (store b i v) Q :=
  .of_eq (store_of_lt h) hQ

theorem returns_loadBack {k : Nat} {Q : α → Prop} (hk : k ≤ i) (h : i - k < b.length)
    (hQ : Q b[i - k]) : Returns (loadBack b i k) Q := by
  unfold loadBack
  rw [if_pos hk]
  exact returns_load h hQ

theorem returns_slice {n : Nat} {Q : List α → Prop} (h : i + n ≤ b.length)
    (hQ : ∀ s, s.length = n → Q s) : Returns (slice b i n) Q := by
  have hs : slice b i n = .ok ((b.drop i).take n) := by simp [slice, h]
  refine .of_eq hs (hQ _ ?_)
  simp only [List.length_take, List.length_drop]
  omega

theorem unslice_length {s : List α} (h : i + s.length ≤ b.length) :
    (unslice b i s).length = b.length := by
  simp only [unslice, List.length_append, List.length_take, List.length_drop]
  omega

theorem unslice_drop {s : List α} (h : i + s.length ≤ b.length) :
    (unslice b i s).drop (i + s.length) = b.drop (i + s.length) := by
  have hlen : (b.take i ++ s).length = i + s.length := by
    simp only [List.length_append, List.length_take]
    omega
  rw [unslice, ← hlen, List.drop_left, hlen]

@[simp] theorem unslice_nil (b : List α) (i : Nat) : unslice b i [] = b := by
  simp [unslice]

theorem unslice_append {s t : List α} (h : i + s.length + t.length ≤ b.length) :
    unslice (unslice b i s) (i + s.length) t = unslice b i (s ++ t) := by
  have hlen : (b.take i ++ s).length = i + s.length := by
    simp only [List.length_append, List.length_take]
    omega
  have htake : (b.take i ++ s ++ b.drop (i + s.length)).take (i + s.length) = b.take i ++ s :=
    List.take_left' hlen
  have hdrop : (b.take i ++ s ++ b.drop (i + s.length)).drop (i + s.length + t.length) =
      b.drop (i + (s ++ t).length) := by
    rw [← List.drop_drop, List.drop_left' hlen, List.drop_drop, List.length_append, Nat.add_assoc]
  rw [unslice, unslice, htake, hdrop, unslice]
  simp only [List.append_assoc]

theorem copy_one {dst src : List α} {d s : Nat} (hd : d < dst.length) (hs : s < src.length) :
    copy dst d src s 1 = .ok (dst.set d src[s]) := by
  rw [copy, if_pos ⟨by omega, by omega⟩, List.set_eq_take_append_cons_drop, if_pos hd,
    List.drop_eq_getElem_cons hs, List.append_assoc]
  rfl

theorem copy_length {dst src dst' : List α} {d s n : Nat}
    (h : copy dst d src s n = .ok dst') : dst'.length = dst.length := by
  unfold copy at h
  split at h
  · rename_i hb
    cases h
    simp only [List.length_append, List.length_take, List.length_drop]
    omega
  · cases h

theorem copy_bounds {dst src dst' : List α} {d s n : Nat}
    (h : copy dst d src s n = .ok dst') : s + n ≤ src.length ∧ d + n ≤ dst.length := by
  unfold copy at h
  split at h
  · assumption
  · cases h

theorem copy_eq_unslice {dst src : List α} {d s n : Nat} (hs : s + n ≤ src.length)
    (hd : d + n ≤ dst.length) : copy dst d src s n = .ok (unslice dst d ((src.drop s).take n)) := by
  have hlen : ((src.drop s).take n).length = n := by
    simp only [List.length_take, List.length_drop]
    omega
  rw [copy, if_pos ⟨hs, hd⟩, unslice, hlen]

theorem getElem?_copy {dst src dst' : List α} {d s n : Nat} (h : copy dst d src s n = .ok dst')
    {j : Nat} (hd : d ≤ j) (hn : j < d + n) : dst'[j]? = src[s + (j - d)]? := by
  unfold copy at h
  split at h
  · cases h
    rw [List.getElem?_append_left (by simp; omega), List.getElem?_append_right (by simp; omega)]
    simp only [List.length_take, List.getElem?_take, List.getElem?_drop]
    rw [if_pos (by omega)]
    congr 2
    omega
  · cases h

theorem returns_copy {dst src : List α} {d s n : Nat} {Q : List α → Prop}
    (hs : s + n ≤ src.length) (hd : d + n ≤ dst.length)
    (hQ : ∀ dst', dst'.length = dst.length → Q dst') : Returns (copy dst d src s n) Q := by
  have hc : copy dst d src s n = .ok (dst.take d ++ (src.drop s).take n ++ dst.drop (d + n)) := by
    simp [copy, hs, hd]
  exact .of_eq hc (hQ _ (copy_length hc))

theorem returns_copy_forall {dst src : List α} {d s n : Nat} {P : α → Prop}
    (hs : s + n ≤ src.length) (hd : d + n ≤ dst.length) (hdst : ∀ a ∈ dst, P a)
    (hsrc : ∀ a ∈ src, P a) :
    Returns (copy dst d src s n) fun dst' => dst'.length = dst.length ∧ ∀ a ∈ dst', P a := by
  unfold copy
  rw [if_pos ⟨hs, hd⟩]
  refine Returns.ok ⟨by simp only [List.length_append, List.length_take, List.length_drop]; omega,
    fun a ha => ?_⟩
  simp only [List.mem_append] at ha
  rcases ha with (ha | ha) | ha
  · exact hdst a (List.mem_of_mem_take ha)
  · exact hsrc a (List.mem_of_mem_drop (List.mem_of_mem_take ha))
  · exact hdst a (List.mem_of_mem_drop ha)

theorem returns_store_forall {b : List α} {i : Nat} {v : α} {P : α → Prop} (h : i < b.length)
    (hb : ∀ a ∈ b, P a) (hv : P v) :
    Returns (store b i v) fun b' => b'.length = b.length ∧ ∀ a ∈ b', P a := by
  refine returns_store h ⟨List.length_set, fun a ha => ?_⟩
  rcases List.mem_or_eq_of_mem_set ha with ha | rfl
  · exact hb a ha
  · exact hv

theorem fill_length {dst dst' : List α} {d n : Nat} {v : α}
    (h : fill dst d n v = .ok dst') : dst'.length = dst.length := by
  unfold fill at h
  split at h
  · cases h
    simp only [List.length_append, List.length_take, List.length_replicate, List.length_drop]
    omega
  · cases h

theorem fill_bounds {dst dst' : List α} {d n : Nat} {v : α}
    (h : fill dst d n v = .ok dst') : d + n ≤ dst.length := by
  unfold fill at h
  split at h
  · assumption
  · cases h

theorem returns_fill {dst : List α} {d n : Nat} {v : α} {Q : List α → Prop}
    (hd : d + n ≤ dst.length) (hQ : ∀ dst', dst'.length = dst.length → Q dst') :
    Returns (fill dst d n v) Q := by
  have hc : fill dst d n v = .ok (dst.take d ++ List.replicate n v ++ dst.drop (d + n)) := by
    simp [fill, hd]
  exact .of_eq hc (hQ _ (fill_length hc))

end Access

/-- A little-endian 16-bit load, as `*(WORD *)p` reads it on a little-endian target. -/
def loadU16 (b : List UInt8) (i : Nat) : Run Nat := do
  let lo ← load b i
  let hi ← load b (i + 1)
  pure (lo.toNat + 256 * hi.toNat)

theorem returns_loadU16 {b : List UInt8} {i : Nat} {Q : Nat → Prop} (h : i + 2 ≤ b.length)
    (hQ : ∀ w, w < 65536 → Q w) : Returns (loadU16 b i) Q := by
  unfold loadU16
  refine Returns.bind (P := fun _ => True) (returns_load (by omega) trivial) fun lo _ => ?_
  refine Returns.bind (P := fun _ => True) (returns_load (by omega) trivial) fun hi _ => ?_
  refine Returns.pure (hQ _ ?_)
  have hlo := lo.toNat_lt
  have hhi := hi.toNat_lt
  omega

theorem loadU16_lt {b : List UInt8} {i w : Nat} (h : loadU16 b i = .ok w) : w < 65536 := by
  unfold loadU16 at h
  obtain ⟨lo, _, h⟩ := bind_eq_ok.mp h
  obtain ⟨hi, _, h⟩ := bind_eq_ok.mp h
  cases h
  have hlo := lo.toNat_lt
  have hhi := hi.toNat_lt
  omega

theorem loadU16_eq_error {b : List UInt8} {i : Nat} (h : b.length < i + 2) :
    loadU16 b i = .error .outOfBounds := by
  unfold loadU16
  by_cases hi : i < b.length
  · rw [load_of_lt hi, ok_bind, load_eq_error (by omega), error_bind]
  · rw [load_eq_error (by omega), error_bind]

/-- The two bytes of a 16-bit value, low byte first. -/
def wordBytes (w : Nat) : List UInt8 := [UInt8.ofNat w, UInt8.ofNat (w / 256)]

/-- A little-endian 16-bit store, as `*(WORD *)p = w` writes it. -/
def storeU16 (b : List UInt8) (i w : Nat) : Run (List UInt8) := copy b i (wordBytes w) 0 2

theorem storeU16_eq_unslice {b : List UInt8} {i : Nat} (h : i + 2 ≤ b.length) (w : Nat) :
    storeU16 b i w = .ok (unslice b i (wordBytes w)) :=
  copy_eq_unslice (by rfl) h

theorem loadU16_of_drop {b rest : List UInt8} {i w : Nat} (hb : b.drop i = wordBytes w ++ rest)
    (hw : w < 65536) : loadU16 b i = .ok w := by
  have h0 : b[i]? = some (UInt8.ofNat w) := by
    rw [← Nat.add_zero i, ← List.getElem?_drop, hb]
    rfl
  have h1 : b[i + 1]? = some (UInt8.ofNat (w / 256)) := by
    rw [← List.getElem?_drop, hb]
    rfl
  obtain ⟨hl0, h0⟩ := List.getElem?_eq_some_iff.mp h0
  obtain ⟨hl1, h1⟩ := List.getElem?_eq_some_iff.mp h1
  rw [loadU16, load_of_lt hl0, ok_bind, load_of_lt hl1, ok_bind, h0, h1]
  simp only [UInt8.toNat_ofNat', Nat.reducePow]
  rw [show w % 256 + 256 * (w / 256 % 256) = w by omega]
  rfl

theorem toNat_sub_ofNat {s : UInt32} {a : Nat} (h : a ≤ s.toNat) :
    (s - UInt32.ofNat a).toNat = s.toNat - a := by
  have hs := s.toNat_lt
  rw [UInt32.toNat_sub_of_le]
  · simp
    omega
  · rw [UInt32.le_iff_toNat_le]
    simp
    omega

/-- A little-endian 32-bit load. -/
def loadU32 (b : List UInt8) (i : Nat) : Run Nat := do
  let lo ← loadU16 b i
  let hi ← loadU16 b (i + 2)
  pure (lo + 65536 * hi)

theorem returns_loadU32 {b : List UInt8} {i : Nat} {Q : Nat → Prop} (h : i + 4 ≤ b.length)
    (hQ : ∀ w, w < 2 ^ 32 → Q w) : Returns (loadU32 b i) Q := by
  unfold loadU32
  refine Returns.bind (P := fun w => w < 65536) (returns_loadU16 (by omega) fun _ h => h)
    fun lo hlo => ?_
  refine Returns.bind (P := fun w => w < 65536) (returns_loadU16 (by omega) fun _ h => h)
    fun hi hhi => ?_
  exact Returns.pure (hQ _ (by omega))

theorem loadU32_eq_error {b : List UInt8} {i : Nat} (h : b.length < i + 4) :
    loadU32 b i = .error .outOfBounds := by
  unfold loadU32
  by_cases hi : i + 2 ≤ b.length
  · obtain ⟨lo, hlo, -⟩ := returns_loadU16 hi (Q := fun _ => True) fun _ _ => trivial
    rw [hlo, ok_bind, loadU16_eq_error (by omega), error_bind]
  · rw [loadU16_eq_error (by omega), error_bind]

end Mem
