import Mathlib.Tactic.Common

/-! An intrusive free list: a head pointer and a chain of cells whose first word holds the
address of the next cell, with 0 as the null pointer. Threads mem head l says that the
cells listed in l, in order, form the chain that starts at head. -/

namespace Wine.Lib.FreeList

set_option autoImplicit false

/-- The chain from head through mem visits exactly the cells of l and ends in null. -/
def Threads (mem : Nat → Nat) : Nat → List Nat → Prop
  | head, [] => head = 0
  | head, c :: l => head = c ∧ c ≠ 0 ∧ Threads mem (mem c) l

@[simp] theorem threads_nil (mem : Nat → Nat) (head : Nat) :
    Threads mem head [] ↔ head = 0 := Iff.rfl

@[simp] theorem threads_cons (mem : Nat → Nat) (head c : Nat) (l : List Nat) :
    Threads mem head (c :: l) ↔ head = c ∧ c ≠ 0 ∧ Threads mem (mem c) l := Iff.rfl

theorem Threads.head_eq {mem : Nat → Nat} {head : Nat} {l : List Nat} (h : Threads mem head l) :
    head = l.headD 0 := by
  cases l with
  | nil => exact h
  | cons c l => exact h.1

theorem Threads.update {mem : Nat → Nat} {head : Nat} {l : List Nat} (h : Threads mem head l)
    {a : Nat} (ha : a ∉ l) (v : Nat) : Threads (Function.update mem a v) head l := by
  induction l generalizing head with
  | nil => exact h
  | cons c l ih =>
    obtain ⟨hhead, hc, ht⟩ := h
    have hac : c ≠ a := fun e => ha (e ▸ List.mem_cons_self)
    refine ⟨hhead, hc, ?_⟩
    rw [Function.update_of_ne hac]
    exact ih ht (fun hm => ha (List.mem_cons_of_mem c hm))

end Wine.Lib.FreeList
