import Mathlib

/-! Finite maps from slot numbers to values, the abstract view of a table that hands out
the lowest free slot. A slot map carries the proof that only finitely many slots are used,
so its lowest free slot exists. -/

set_option autoImplicit false

structure SlotMap (α : Type) where
  get : Nat → Option α
  finite : ∃ n, ∀ i, n ≤ i → get i = none

namespace SlotMap

variable {α : Type}

@[ext] theorem ext {m m' : SlotMap α} (h : ∀ i, m.get i = m'.get i) : m = m' := by
  cases m
  cases m'
  congr
  funext i
  exact h i

def empty : SlotMap α := ⟨fun _ => none, ⟨0, fun _ _ => rfl⟩⟩

def set (m : SlotMap α) (i : Nat) (a : Option α) : SlotMap α where
  get := Function.update m.get i a
  finite := by
    obtain ⟨n, hn⟩ := m.finite
    refine ⟨max n (i + 1), fun j hj => ?_⟩
    rw [Function.update_of_ne (by omega)]
    exact hn j (by omega)

@[simp] theorem get_empty (i : Nat) : (empty : SlotMap α).get i = none := rfl

@[simp] theorem get_set_self (m : SlotMap α) (i : Nat) (a : Option α) : (m.set i a).get i = a := by
  simp [set]

@[simp] theorem get_set_ne (m : SlotMap α) {i j : Nat} (a : Option α) (h : j ≠ i) :
    (m.set i a).get j = m.get j := by
  simp [set, h]

theorem get_set (m : SlotMap α) (i j : Nat) (a : Option α) :
    (m.set i a).get j = if j = i then a else m.get j := by
  by_cases h : j = i
  · subst h
    simp
  · simp [h]

@[simp] theorem set_set (m : SlotMap α) (i : Nat) (a b : Option α) : (m.set i a).set i b = m.set i b := by
  ext1 j
  by_cases h : j = i
  · subst h
    simp
  · simp [h]

/-- Slot `i` is free and every slot below it is used. -/
def IsLeastFree (m : SlotMap α) (i : Nat) : Prop := m.get i = none ∧ ∀ j < i, m.get j ≠ none

theorem exists_free (m : SlotMap α) : ∃ i, m.get i = none := by
  obtain ⟨n, hn⟩ := m.finite
  exact ⟨n, hn n le_rfl⟩

def leastFree (m : SlotMap α) : Nat := Nat.find m.exists_free

theorem isLeastFree_leastFree (m : SlotMap α) : m.IsLeastFree m.leastFree :=
  ⟨Nat.find_spec m.exists_free, fun _ hj => Nat.find_min m.exists_free hj⟩

theorem IsLeastFree.eq_leastFree {m : SlotMap α} {i : Nat} (h : m.IsLeastFree i) :
    i = m.leastFree := by
  obtain ⟨hfree, hused⟩ := h
  obtain ⟨hfree', hused'⟩ := m.isLeastFree_leastFree
  rcases Nat.lt_trichotomy i m.leastFree with hlt | heq | hgt
  · exact absurd hfree (hused' i hlt)
  · exact heq
  · exact absurd hfree' (hused _ hgt)

theorem IsLeastFree.unique {m : SlotMap α} {i j : Nat} (hi : m.IsLeastFree i)
    (hj : m.IsLeastFree j) : i = j :=
  hi.eq_leastFree.trans hj.eq_leastFree.symm

/-- The abstract allocation: `a` goes into the lowest free slot. -/
def alloc (m : SlotMap α) (a : α) : SlotMap α := m.set m.leastFree (some a)

theorem alloc_eq_set {m : SlotMap α} {i : Nat} (h : m.IsLeastFree i) (a : α) :
    m.alloc a = m.set i (some a) := by
  rw [alloc, ← h.eq_leastFree]

/-- Two maps use the same slots; what they hold there may differ. -/
def SameSlots (m m' : SlotMap α) : Prop := ∀ i, (m.get i).isSome = (m'.get i).isSome

theorem SameSlots.refl (m : SlotMap α) : SameSlots m m := fun _ => rfl

theorem SameSlots.trans {m₁ m₂ m₃ : SlotMap α} (h₁ : SameSlots m₁ m₂) (h₂ : SameSlots m₂ m₃) :
    SameSlots m₁ m₃ := fun i => (h₁ i).trans (h₂ i)

theorem sameSlots_set {m : SlotMap α} {i : Nat} {a : α} (h : (m.get i).isSome) :
    SameSlots m (m.set i (some a)) := by
  intro j
  by_cases hj : j = i
  · subst hj
    simp [h]
  · simp [hj]

end SlotMap
