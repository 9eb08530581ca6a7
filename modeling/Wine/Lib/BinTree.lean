import Mathlib

/-!
# Binary trees, their traversals, and following a successor function

Mathlib's `BinaryTree` with its in-order and post-order lists, the mirror image (whose in-order
list is the reverse), subtrees and search trees for a relation. A subtree's post-order list is a
block of the whole one that ends with its root, so every node comes after its subtrees.

`Walk.after l a` is the element after `a` in `l`, and `Walk.follow` follows a fallible successor
function with fuel: when the successor of each element of a duplicate-free list is the one after
it, following from its head gives the list and stops.
-/

set_option autoImplicit false

namespace BinaryTree

variable {α : Type}

def root : BinaryTree α → Option α
  | nil => none
  | node a _ _ => some a

def inorder : BinaryTree α → List α
  | nil => []
  | node a l r => inorder l ++ a :: inorder r

def postorder : BinaryTree α → List α
  | nil => []
  | node a l r => postorder l ++ postorder r ++ [a]

def mirror : BinaryTree α → BinaryTree α
  | nil => nil
  | node a l r => node a (mirror r) (mirror l)

@[simp] theorem root_nil : (nil : BinaryTree α).root = none := rfl
@[simp] theorem root_node (a : α) (l r : BinaryTree α) : (node a l r).root = some a := rfl
@[simp] theorem inorder_nil : (nil : BinaryTree α).inorder = [] := rfl
@[simp] theorem inorder_node (a : α) (l r : BinaryTree α) :
    (node a l r).inorder = l.inorder ++ a :: r.inorder := rfl
@[simp] theorem postorder_nil : (nil : BinaryTree α).postorder = [] := rfl
@[simp] theorem postorder_node (a : α) (l r : BinaryTree α) :
    (node a l r).postorder = l.postorder ++ r.postorder ++ [a] := rfl
@[simp] theorem mirror_nil : (nil : BinaryTree α).mirror = nil := rfl
@[simp] theorem mirror_node (a : α) (l r : BinaryTree α) :
    (node a l r).mirror = node a r.mirror l.mirror := rfl
@[simp] theorem numNodes_nil : (nil : BinaryTree α).numNodes = 0 := rfl
@[simp] theorem numNodes_node (a : α) (l r : BinaryTree α) :
    (node a l r).numNodes = l.numNodes + r.numNodes + 1 := rfl

theorem root_mem_inorder {t : BinaryTree α} {a : α} (h : t.root = some a) : a ∈ t.inorder := by
  cases t with
  | nil => cases h
  | node b l r =>
    cases h
    simp

theorem root_mem_postorder {t : BinaryTree α} {a : α} (h : t.root = some a) :
    a ∈ t.postorder := by
  cases t with
  | nil => cases h
  | node b l r =>
    cases h
    simp

@[simp] theorem inorder_eq_nil {t : BinaryTree α} : t.inorder = [] ↔ t = nil := by
  cases t <;> simp

@[simp] theorem postorder_eq_nil {t : BinaryTree α} : t.postorder = [] ↔ t = nil := by
  cases t <;> simp

@[simp] theorem length_inorder (t : BinaryTree α) : t.inorder.length = t.numNodes := by
  induction t with
  | nil => rfl
  | node a l r ihl ihr =>
    simp only [inorder_node, List.length_append, List.length_cons, ihl, ihr, numNodes_node]
    omega

theorem head?_inorder_of_left (a : α) {l : BinaryTree α} (r : BinaryTree α) (hl : l ≠ nil) :
    (node a l r).inorder.head? = l.inorder.head? := by
  rw [inorder_node, List.head?_append_of_ne_nil _ (by simpa using hl)]

theorem head?_postorder_of_left (a : α) {l : BinaryTree α} (r : BinaryTree α) (hl : l ≠ nil) :
    (node a l r).postorder.head? = l.postorder.head? := by
  rw [postorder_node, List.append_assoc, List.head?_append_of_ne_nil _ (by simpa using hl)]

theorem postorder_perm_inorder (t : BinaryTree α) : t.postorder.Perm t.inorder := by
  induction t with
  | nil => exact List.Perm.refl []
  | node a l r ihl ihr =>
    rw [postorder_node, inorder_node]
    have hmid : (l.inorder ++ (r.inorder ++ [a])).Perm (l.inorder ++ a :: r.inorder) :=
      (List.perm_append_singleton a r.inorder).append_left _
    rw [← List.append_assoc] at hmid
    exact ((ihl.append ihr).append_right [a]).trans hmid

theorem numNodes_mirror (t : BinaryTree α) : t.mirror.numNodes = t.numNodes := by
  induction t with
  | nil => rfl
  | node a l r ihl ihr =>
    simp only [mirror_node, numNodes_node, ihl, ihr]
    omega

theorem inorder_mirror (t : BinaryTree α) : t.mirror.inorder = t.inorder.reverse := by
  induction t with
  | nil => rfl
  | node a l r ihl ihr => simp [ihl, ihr]

@[simp] theorem root_mirror (t : BinaryTree α) : t.mirror.root = t.root := by
  cases t <;> rfl

/-- `s` is `t` or a subtree of one of `t`'s children. -/
inductive IsSubtree (s : BinaryTree α) : BinaryTree α → Prop
  | refl : IsSubtree s s
  | left (a : α) {l : BinaryTree α} (r : BinaryTree α) : IsSubtree s l → IsSubtree s (node a l r)
  | right (a : α) (l : BinaryTree α) {r : BinaryTree α} : IsSubtree s r → IsSubtree s (node a l r)

theorem IsSubtree.numNodes_le {s t : BinaryTree α} (h : IsSubtree s t) :
    s.numNodes ≤ t.numNodes := by
  induction h with
  | refl => exact Nat.le_refl _
  | left a r _ ih =>
    rw [numNodes_node]
    omega
  | right a l _ ih =>
    rw [numNodes_node]
    omega

theorem IsSubtree.postorder_infix {s t : BinaryTree α} (h : IsSubtree s t) :
    s.postorder <:+: t.postorder := by
  induction h with
  | refl => exact List.infix_refl _
  | left a r _ ih => exact ih.trans ⟨[], r.postorder ++ [a], by simp⟩
  | right a l _ ih => exact ih.trans ⟨l.postorder, [a], by simp⟩

theorem exists_isSubtree_of_mem {t : BinaryTree α} {a : α} (h : a ∈ t.inorder) :
    ∃ l r, IsSubtree (node a l r) t := by
  induction t with
  | nil => simp at h
  | node b l r ihl ihr =>
    rw [inorder_node, List.mem_append, List.mem_cons] at h
    rcases h with h | rfl | h
    · obtain ⟨l', r', hs⟩ := ihl h
      exact ⟨l', r', .left b r hs⟩
    · exact ⟨l, r, .refl⟩
    · obtain ⟨l', r', hs⟩ := ihr h
      exact ⟨l', r', .right b l hs⟩

theorem IsSubtree.eq_or_child {s t : BinaryTree α} (h : IsSubtree s t) :
    s = t ∨ ∃ a l r, IsSubtree (node a l r) t ∧ (s = l ∨ s = r) := by
  induction h with
  | refl => exact .inl rfl
  | @left a l r _ ih =>
    rcases ih with rfl | ⟨b, l', r', hs, hc⟩
    · exact .inr ⟨a, s, r, .refl, .inl rfl⟩
    · exact .inr ⟨b, l', r', .left a r hs, hc⟩
  | @right a l r _ ih =>
    rcases ih with rfl | ⟨b, l', r', hs, hc⟩
    · exact .inr ⟨a, l, s, .refl, .inr rfl⟩
    · exact .inr ⟨b, l', r', .right a l hs, hc⟩

/-- Every node is after all of its left subtree and before all of its right one. -/
def SearchTree (lt : α → α → Prop) : BinaryTree α → Prop
  | nil => True
  | node a l r =>
    (∀ x ∈ l.inorder, lt x a) ∧ (∀ y ∈ r.inorder, lt a y) ∧ SearchTree lt l ∧ SearchTree lt r

theorem SearchTree.inorder_pairwise {lt : α → α → Prop} [IsTrans α lt] {t : BinaryTree α}
    (h : SearchTree lt t) : t.inorder.Pairwise lt := by
  induction t with
  | nil => exact List.Pairwise.nil
  | node a l r ihl ihr =>
    obtain ⟨hl, hr, hsl, hsr⟩ := h
    rw [inorder_node, List.pairwise_append, List.pairwise_cons]
    refine ⟨ihl hsl, ⟨hr, ihr hsr⟩, fun x hx y hy => ?_⟩
    rcases List.mem_cons.mp hy with rfl | hy
    · exact hl x hx
    · exact IsTrans.trans _ _ _ (hl x hx) (hr y hy)

theorem searchTree_of_pairwise {lt : α → α → Prop} {t : BinaryTree α}
    (h : t.inorder.Pairwise lt) : SearchTree lt t := by
  induction t with
  | nil => trivial
  | node a l r ihl ihr =>
    rw [inorder_node, List.pairwise_append, List.pairwise_cons] at h
    obtain ⟨hl, ⟨hr, hrr⟩, hlr⟩ := h
    exact ⟨fun x hx => hlr x hx a List.mem_cons_self, hr, ihl hl, ihr hrr⟩

end BinaryTree

namespace Walk

variable {α : Type}

theorem not_mem_of_nodup_split {v rest : List α} {a : α} (h : (v ++ a :: rest).Nodup) :
    a ∉ v ∧ a ∉ rest := by
  rw [List.nodup_append, List.nodup_cons] at h
  exact ⟨fun ha => h.2.2 a ha a List.mem_cons_self rfl, h.2.1.1⟩

theorem rest_eq_of_nodup_split {v w rest m : List α} {a : α} (hnd : (v ++ a :: rest).Nodup)
    (h : v ++ a :: rest = w ++ a :: m) : rest = m := by
  induction v generalizing w with
  | nil =>
    cases w with
    | nil => simpa using h
    | cons b w =>
      obtain ⟨rfl, rfl⟩ := List.cons_eq_cons.mp h
      exact absurd (by simp) (not_mem_of_nodup_split hnd).2
  | cons b v ih =>
    cases w with
    | nil =>
      obtain ⟨rfl, rfl⟩ := List.cons_eq_cons.mp h
      exact absurd (by simp) (List.nodup_cons.mp hnd).1
    | cons c w => exact ih (List.nodup_cons.mp hnd).2 (List.cons_eq_cons.mp h).2

variable [DecidableEq α]

/-- The element after the first `a` in a list, `none` if `a` is last or absent. -/
def after : List α → α → Option α
  | [], _ => none
  | b :: l, a => if b = a then l.head? else after l a

@[simp] theorem after_cons_self (a : α) (l : List α) : after (a :: l) a = l.head? := by
  simp [after]

theorem after_append_of_mem {l : List α} {a : α} (m : List α) (h : a ∈ l) :
    after (l ++ m) a = (after l a).or m.head? := by
  induction l with
  | nil => cases h
  | cons b l ih =>
    by_cases hb : b = a
    · subst hb
      simp [List.head?_append]
    · have ha : a ∈ l := (List.mem_cons.mp h).resolve_left (Ne.symm hb)
      simp [after, hb, ih ha]

theorem after_append_of_not_mem {l : List α} {a : α} (m : List α) (h : a ∉ l) :
    after (l ++ m) a = after m a := by
  induction l with
  | nil => rfl
  | cons b l ih =>
    have hb : b ≠ a := fun hb => h (hb ▸ List.mem_cons_self)
    simp [after, hb, ih (fun h' => h (List.mem_cons_of_mem b h'))]

theorem after_split {v rest : List α} {a : α} (h : a ∉ v) : after (v ++ a :: rest) a = rest.head? := by
  rw [after_append_of_not_mem _ h, after_cons_self]

/-- Follow `next` from a cursor until it yields `none`, the visited elements in order; `none`
if `next` fails or the fuel runs out. -/
def follow (next : α → Option (Option α)) : Nat → Option α → Option (List α)
  | _, none => some []
  | 0, some _ => none
  | n + 1, some a => do
    let b ← next a
    let rest ← follow next n b
    pure (a :: rest)

section Follow

variable {next : α → Option (Option α)} {l : List α}

theorem follow_suffix (hnd : l.Nodup) (hnext : ∀ a ∈ l, next a = some (after l a)) :
    ∀ (rest v : List α), l = v ++ rest → ∀ n, rest.length ≤ n →
      follow next n rest.head? = some rest := by
  intro rest
  induction rest with
  | nil =>
    intro v _ n _
    cases n <;> rfl
  | cons a rest ih =>
    intro v hl n hn
    obtain ⟨n, rfl⟩ : ∃ m, n = m + 1 := ⟨n - 1, by simp at hn; omega⟩
    have hav := (not_mem_of_nodup_split (hl ▸ hnd)).1
    have hstep : next a = some rest.head? := by
      rw [hnext a (by simp [hl]), hl, after_split hav]
    have hrest := ih (v ++ [a]) (by simp [hl]) n (by simp at hn; omega)
    simp [follow, hstep, hrest]

theorem follow_eq (hnd : l.Nodup) (hnext : ∀ a ∈ l, next a = some (after l a)) {n : Nat}
    (hn : l.length ≤ n) : follow next n l.head? = some l :=
  follow_suffix hnd hnext l [] rfl n hn

end Follow

end Walk
