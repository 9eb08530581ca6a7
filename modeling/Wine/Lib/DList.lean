import Mathlib.Data.List.Nodup
import Mathlib.Logic.Function.Basic

/-!
# Doubly linked lists threaded through a heap

A heap maps addresses to nodes, and a node holds the addresses of the next and the previous
node of its list beside its value. `IsChain heap p head l` says that the next pointers from
`head` visit the addresses `l` and stop, each node pointing back to the one before it and the
first to `p`. The lemmas are those a list kept by C code needs: a search along the chain, the
insertion of a node at the head, the unlinking of a node anywhere in it, and the writes that
leave a chain alone.
-/

namespace DList

set_option autoImplicit false

/-- A node of a doubly linked list: the addresses of its neighbours, and what it holds. -/
structure Node (β : Type) where
  next : Option Nat
  prev : Option Nat
  val : β
deriving DecidableEq, Repr

variable {β : Type}

/-- `if (ptr) ptr->prev = p;` -/
def setPrevAt (heap : Nat → Option (Node β)) : Option Nat → Option Nat → Nat → Option (Node β)
  | some j, p => Function.update heap j ((heap j).map fun a => { a with prev := p })
  | none, _ => heap

/-- `if (ptr) ptr->next = n;` -/
def setNextAt (heap : Nat → Option (Node β)) : Option Nat → Option Nat → Nat → Option (Node β)
  | some j, n => Function.update heap j ((heap j).map fun a => { a with next := n })
  | none, _ => heap

/-- The next pointers from `head` visit the nodes `l`, each of which points back to the one
before it, the first to `p`. -/
def IsChain (heap : Nat → Option (Node β)) : Option Nat → Option Nat → List Nat → Prop
  | _, head, [] => head = none
  | p, head, i :: l => head = some i ∧ ∃ a, heap i = some a ∧ a.prev = p ∧ IsChain heap (some i) a.next l

/-- The first node from `head` on whose value passes `test`, looking at `fuel` nodes at most. -/
def find (heap : Nat → Option (Node β)) (test : β → Bool) : Nat → Option Nat → Option (Nat × Node β)
  | 0, _ => none
  | _ + 1, none => none
  | fuel + 1, some i =>
    match heap i with
    | none => none
    | some a => if test a.val then some (i, a) else find heap test fuel a.next

variable {heap heap' : Nat → Option (Node β)}

@[simp] theorem isChain_nil (p head : Option Nat) : IsChain heap p head [] ↔ head = none := Iff.rfl

@[simp] theorem isChain_cons (p head : Option Nat) (i : Nat) (l : List Nat) :
    IsChain heap p head (i :: l) ↔
      head = some i ∧ ∃ a, heap i = some a ∧ a.prev = p ∧ IsChain heap (some i) a.next l :=
  Iff.rfl

/-! ## Writes of one pointer -/

theorem setPrevAt_of_ne {ptr : Option Nat} {x : Nat} (h : ptr ≠ some x) (p : Option Nat) :
    setPrevAt heap ptr p x = heap x := by
  cases ptr with
  | none => rfl
  | some j => exact Function.update_of_ne (fun e => h (by rw [e])) _ _

theorem setPrevAt_self (x : Nat) (p : Option Nat) :
    setPrevAt heap (some x) p x = (heap x).map fun a => { a with prev := p } :=
  Function.update_self _ _ _

theorem setNextAt_of_ne {ptr : Option Nat} {x : Nat} (h : ptr ≠ some x) (n : Option Nat) :
    setNextAt heap ptr n x = heap x := by
  cases ptr with
  | none => rfl
  | some j => exact Function.update_of_ne (fun e => h (by rw [e])) _ _

theorem setNextAt_self (x : Nat) (n : Option Nat) :
    setNextAt heap (some x) n x = (heap x).map fun a => { a with next := n } :=
  Function.update_self _ _ _

@[simp] theorem map_setPrevAt {γ : Type} (f : β → γ) (ptr p : Option Nat) (x : Nat) :
    (setPrevAt heap ptr p x).map (fun a => f a.val) = (heap x).map fun a => f a.val := by
  by_cases hx : ptr = some x
  · subst hx
    rw [setPrevAt_self, Option.map_map]
    rfl
  · rw [setPrevAt_of_ne hx]

@[simp] theorem map_setNextAt {γ : Type} (f : β → γ) (ptr n : Option Nat) (x : Nat) :
    (setNextAt heap ptr n x).map (fun a => f a.val) = (heap x).map fun a => f a.val := by
  by_cases hx : ptr = some x
  · subst hx
    rw [setNextAt_self, Option.map_map]
    rfl
  · rw [setNextAt_of_ne hx]

/-! ## Chains -/

def Node.links (a : Node β) : Option Nat × Option Nat := (a.next, a.prev)

theorem IsChain.of_links {p head : Option Nat} {l : List Nat} (h : IsChain heap p head l)
    (hl : ∀ i ∈ l, (heap' i).map Node.links = (heap i).map Node.links) :
    IsChain heap' p head l := by
  induction l generalizing p head with
  | nil => exact h
  | cons i l ih =>
    obtain ⟨hhead, a, hi, hprev, hrest⟩ := h
    have hi' : (heap' i).map Node.links = some (a.next, a.prev) := by
      rw [hl i List.mem_cons_self, hi]
      rfl
    obtain ⟨a', ha', hlinks⟩ := Option.map_eq_some_iff.mp hi'
    obtain ⟨hnext, hprev'⟩ := Prod.mk.inj hlinks
    refine ⟨hhead, a', ha', hprev' ▸ hprev, ?_⟩
    rw [hnext]
    exact ih hrest fun j hj => hl j (List.mem_cons_of_mem i hj)

theorem IsChain.congr {p head : Option Nat} {l : List Nat} (h : IsChain heap p head l)
    (hl : ∀ i ∈ l, heap' i = heap i) : IsChain heap' p head l :=
  h.of_links fun i hi => by rw [hl i hi]

theorem IsChain.setVal {p head : Option Nat} {l : List Nat} (h : IsChain heap p head l) {i : Nat}
    {a : Node β} (hi : heap i = some a) (v : β) :
    IsChain (Function.update heap i (some { a with val := v })) p head l := by
  refine h.of_links fun j _ => ?_
  by_cases hj : j = i
  · subst hj
    rw [Function.update_self, hi]
    rfl
  · rw [Function.update_of_ne hj]

theorem IsChain.head_eq {p head : Option Nat} {l : List Nat} (h : IsChain heap p head l) :
    head = l.head? := by
  cases l with
  | nil => exact h
  | cons i l => exact h.1

theorem IsChain.isSome_of_mem {p head : Option Nat} {l : List Nat} (h : IsChain heap p head l)
    {i : Nat} (hi : i ∈ l) : (heap i).isSome := by
  induction l generalizing p head with
  | nil => exact absurd hi List.not_mem_nil
  | cons j l ih =>
    obtain ⟨-, a, hj, -, hrest⟩ := h
    rcases List.mem_cons.mp hi with rfl | hi
    · rw [hj]
      rfl
    · exact ih hrest hi

theorem IsChain.links_of_append {p head : Option Nat} {pre post : List Nat} {i : Nat}
    (h : IsChain heap p head (pre ++ i :: post)) :
    ∃ a, heap i = some a ∧ a.prev = pre.getLast?.or p ∧ a.next = post.head? := by
  induction pre generalizing p head with
  | nil =>
    obtain ⟨-, a, hi, hprev, hrest⟩ := h
    exact ⟨a, hi, hprev, hrest.head_eq⟩
  | cons k pre ih =>
    obtain ⟨-, c, -, -, hrest⟩ := h
    obtain ⟨a, hi, hprev, hnext⟩ := ih hrest
    refine ⟨a, hi, ?_, hnext⟩
    rw [hprev, List.getLast?_cons]
    cases pre.getLast? <;> rfl

theorem IsChain.neighbours_mem {head : Option Nat} {l : List Nat} (h : IsChain heap none head l)
    {i : Nat} (hi : i ∈ l) {a : Node β} (ha : heap i = some a) :
    (∀ x, a.next = some x → x ∈ l) ∧ (∀ x, a.prev = some x → x ∈ l) := by
  obtain ⟨pre, post, rfl⟩ := List.append_of_mem hi
  obtain ⟨a', ha', hprev, hnext⟩ := h.links_of_append
  rw [ha] at ha'
  cases ha'
  refine ⟨fun x hx => ?_, fun x hx => ?_⟩
  · rw [hnext] at hx
    exact List.mem_append_right pre (List.mem_cons_of_mem i (List.mem_of_mem_head? hx))
  · rw [hprev, Option.or_none] at hx
    exact List.mem_append_left _ (List.mem_of_getLast? hx)

theorem IsChain.find_some {p head : Option Nat} {l : List Nat} (h : IsChain heap p head l)
    {test : β → Bool} {fuel i : Nat} {a : Node β} (hfind : find heap test fuel head = some (i, a)) :
    i ∈ l ∧ heap i = some a ∧ test a.val = true := by
  induction l generalizing p head fuel with
  | nil =>
    have hhead : head = none := h
    rw [hhead] at hfind
    cases fuel <;> cases hfind
  | cons j l ih =>
    obtain ⟨rfl, b, hj, -, hrest⟩ := h
    cases fuel with
    | zero => cases hfind
    | succ fuel =>
      rw [find, hj] at hfind
      dsimp only at hfind
      by_cases htest : test b.val = true
      · rw [if_pos htest] at hfind
        cases hfind
        exact ⟨List.mem_cons_self, hj, htest⟩
      · rw [if_neg htest] at hfind
        obtain ⟨hmem, hi, hval⟩ := ih hrest hfind
        exact ⟨List.mem_cons_of_mem j hmem, hi, hval⟩

theorem IsChain.find_none {p head : Option Nat} {l : List Nat} (h : IsChain heap p head l)
    {test : β → Bool} {fuel : Nat} (hfuel : l.length ≤ fuel) (hfind : find heap test fuel head = none) :
    ∀ i ∈ l, ∀ a, heap i = some a → test a.val = false := by
  induction l generalizing p head fuel with
  | nil => exact fun i hi => absurd hi List.not_mem_nil
  | cons j l ih =>
    obtain ⟨rfl, b, hj, -, hrest⟩ := h
    obtain ⟨fuel, rfl⟩ : ∃ f, fuel = f + 1 := ⟨fuel - 1, by simp at hfuel; omega⟩
    rw [find, hj] at hfind
    dsimp only at hfind
    have htest : test b.val = false := by
      by_contra hb
      rw [if_pos (Bool.not_eq_false _ ▸ hb)] at hfind
      cases hfind
    rw [if_neg (by rw [htest]; decide)] at hfind
    intro i hi a ha
    rcases List.mem_cons.mp hi with rfl | hi
    · rw [hj] at ha
      cases ha
      exact htest
    · exact ih hrest (by simp at hfuel; omega) hfind i hi a ha

/-! ## Insertion and removal -/

theorem IsChain.push {l : List Nat} {head : Option Nat} (h : IsChain heap none head l) (hnd : l.Nodup)
    {n : Nat} (hn : heap n = none) (v : β) :
    IsChain (setPrevAt (Function.update heap n (some ⟨head, none, v⟩)) head (some n)) none (some n)
      (n :: l) := by
  have hfresh : ∀ x ∈ l, x ≠ n := fun x hx e => by
    have := h.isSome_of_mem hx
    rw [e, hn] at this
    cases this
  have hhead : head ≠ some n := by
    rw [h.head_eq]
    intro e
    exact hfresh n (List.mem_of_mem_head? e) rfl
  refine ⟨rfl, ⟨head, none, v⟩, ?_, rfl, ?_⟩
  · rw [setPrevAt_of_ne hhead, Function.update_self]
  cases l with
  | nil => exact h
  | cons j l =>
    obtain ⟨rfl, b, hj, -, hrest⟩ := h
    have hjn : j ≠ n := hfresh j List.mem_cons_self
    refine ⟨rfl, { b with prev := some n }, ?_, rfl, ?_⟩
    · rw [setPrevAt_self, Function.update_of_ne hjn, hj]
      rfl
    · refine hrest.congr fun x hx => ?_
      have hxj : x ≠ j := fun e => (List.nodup_cons.mp hnd).1 (e ▸ hx)
      rw [setPrevAt_of_ne (fun e => hxj (Option.some_inj.mp e).symm),
        Function.update_of_ne (hfresh x (List.mem_cons_of_mem j hx))]

section Unlink

variable {i : Nat} {a : Node β}

/-- The heap after the node `i`, holding `a`, is unlinked as C code does it
(`if (a->next) a->next->prev = a->prev; if (a->prev) a->prev->next = a->next;`) and freed. -/
def unlinked (heap : Nat → Option (Node β)) (i : Nat) (a : Node β) : Nat → Option (Node β) :=
  Function.update (setNextAt (setPrevAt heap a.next a.prev) a.prev a.next) i none

theorem unlinked_of_ne {x : Nat} (hxi : x ≠ i) (hnext : a.next ≠ some x) (hprev : a.prev ≠ some x) :
    unlinked heap i a x = heap x := by
  rw [unlinked, Function.update_of_ne hxi, setNextAt_of_ne hprev, setPrevAt_of_ne hnext]

theorem map_unlinked {γ : Type} (f : β → γ) (x : Nat) :
    (unlinked heap i a x).map (fun b => f b.val) =
      Function.update (fun x => (heap x).map fun b => f b.val) i none x := by
  by_cases hx : x = i
  · subst hx
    rw [unlinked, Function.update_self, Function.update_self]
    rfl
  · rw [unlinked, Function.update_of_ne hx, Function.update_of_ne hx, map_setNextAt, map_setPrevAt]

/-- Unlinking `i` from a chain that starts after `p`, `p` outside the chain. -/
theorem IsChain.unlinked_aux {post : List Nat} (hi : heap i = some a) :
    ∀ (pre : List Nat) (p head : Option Nat), IsChain heap p head (pre ++ i :: post) →
      (pre ++ i :: post).Nodup → (∀ x, p = some x → x ∉ pre ++ i :: post) →
      IsChain (unlinked heap i a) p (if pre = [] then a.next else head) (pre ++ post)
  | [], p, head, h, hnd, hp => by
    obtain ⟨-, a', hi', hprev, hrest⟩ := h
    rw [hi] at hi'
    cases hi'
    rw [if_pos rfl]
    cases post with
    | nil => exact hrest
    | cons j post =>
      obtain ⟨hnext, b, hj, -, hrest⟩ := hrest
      have hji : j ≠ i := fun e => (List.nodup_cons.mp hnd).1 (e ▸ List.mem_cons_self)
      have hpj : p ≠ some j := fun e => hp j e (List.mem_cons_of_mem i List.mem_cons_self)
      refine ⟨hnext, { b with prev := a.prev }, ?_, hprev, ?_⟩
      · rw [unlinked, Function.update_of_ne hji, setNextAt_of_ne (hprev ▸ hpj), hnext, setPrevAt_self, hj]
        rfl
      · refine hrest.congr fun x hx => unlinked_of_ne ?_ ?_ ?_
        · exact fun e => (List.nodup_cons.mp hnd).1 (e ▸ List.mem_cons_of_mem j hx)
        · rw [hnext]
          exact fun e => (List.nodup_cons.mp (List.nodup_cons.mp hnd).2).1
            ((Option.some_inj.mp e) ▸ hx)
        · rw [hprev]
          exact fun e => hp x e (List.mem_cons_of_mem i (List.mem_cons_of_mem j hx))
  | k :: pre, p, head, h, hnd, hp => by
    obtain ⟨hhead, c, hk, hcprev, hrest⟩ := h
    have hnd' : (pre ++ i :: post).Nodup := (List.nodup_cons.mp hnd).2
    have hkout : k ∉ pre ++ i :: post := (List.nodup_cons.mp hnd).1
    have ih := IsChain.unlinked_aux hi pre (some k) c.next hrest hnd'
      fun x e => (Option.some_inj.mp e) ▸ hkout
    obtain ⟨a', hi', hprev, hnext⟩ := hrest.links_of_append
    rw [hi] at hi'
    cases hi'
    rw [if_neg (List.cons_ne_nil k pre)]
    have hki : k ≠ i := fun e => hkout (e ▸ List.mem_append_right pre List.mem_cons_self)
    have hnk : a.next ≠ some k := by
      rw [hnext]
      intro e
      exact hkout (List.mem_append_right pre (List.mem_cons_of_mem i (List.mem_of_mem_head? e)))
    refine ⟨hhead, ?_⟩
    by_cases hpre : pre = []
    · subst hpre
      refine ⟨{ c with next := a.next }, ?_, hcprev, ?_⟩
      · rw [unlinked, Function.update_of_ne hki, hprev, List.getLast?_nil, Option.none_or,
          setNextAt_self, setPrevAt_of_ne hnk, hk]
        rfl
      · rw [if_pos rfl] at ih
        exact ih
    · have hpk : a.prev ≠ some k := by
        rw [hprev]
        obtain ⟨x, hx⟩ := Option.ne_none_iff_exists'.mp (mt List.getLast?_eq_none_iff.mp hpre)
        rw [hx, Option.some_or]
        intro e
        exact hkout (List.mem_append_left _ ((Option.some_inj.mp e) ▸ List.mem_of_getLast? hx))
      refine ⟨c, ?_, hcprev, ?_⟩
      · rw [unlinked_of_ne hki hnk hpk, hk]
      · rw [if_neg hpre] at ih
        exact ih

theorem IsChain.unlink {pre post : List Nat} {head : Option Nat}
    (h : IsChain heap none head (pre ++ i :: post)) (hnd : (pre ++ i :: post).Nodup)
    (hi : heap i = some a) :
    IsChain (unlinked heap i a) none (if a.prev = none then a.next else head) (pre ++ post) := by
  have hprev : a.prev = none ↔ pre = [] := by
    obtain ⟨a', hi', hprev, -⟩ := h.links_of_append
    rw [hi] at hi'
    cases hi'
    rw [hprev, Option.or_none, List.getLast?_eq_none_iff]
  have haux := IsChain.unlinked_aux hi pre none head h hnd fun x e => nomatch e
  by_cases hpre : pre = []
  · rw [if_pos hpre] at haux
    rwa [if_pos (hprev.mpr hpre)]
  · rw [if_neg hpre] at haux
    rwa [if_neg (mt hprev.mp hpre)]

end Unlink

end DList
