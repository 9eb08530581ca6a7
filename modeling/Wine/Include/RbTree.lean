import Wine.Lib.BinTree

/-!
# Walking the red-black trees of include/wine/rbtree.h

An `rb_entry` is embedded in the caller's structure and points at its parent and its two
children; the traversals never look at the colour flags, nor at the tree's compare function,
which only `rb_put` and `rb_get` call. The entries live in a heap of addresses, a pointer is an
`Option Nat` (`none` is NULL), and every loop that chases pointers runs on fuel.

A heap is well formed for an abstract `BinaryTree` of addresses when each node's entry holds its
parent and the roots of its two subtrees (`Links`), no address is used twice, and the tree is a
search tree for the compare order. For such a tree, with more fuel than it has entries:

* `RB_FOR_EACH` (`rb_head`, then `rb_next` until NULL) visits the in-order list, and `rb_tail`
  followed by `rb_prev` its reverse. `rb_next` and `rb_prev` are one function of the child fields
  it follows, so the second is the first on the mirror image of the tree.
* `rb_postorder`, through `RB_FOR_EACH_DESTRUCTOR`, hands the callback the post-order list. The
  successor of an entry is computed before the callback sees it, so a callback that frees or
  rewrites its own entry, and no other, does not disturb the walk.
-/

namespace Wine.RbTree

set_option autoImplicit false

open BinaryTree Walk

/-- struct rb_entry, without its colour flags. -/
structure Entry where
  parent : Option Nat
  left : Option Nat
  right : Option Nat
  deriving DecidableEq, Repr

/-- The entries by address; `none` where nothing is allocated. -/
abbrev Heap := Nat → Option Entry

/-- The loop of rb_head (child = left) and of rb_tail (child = right): follow that child while
it is set. -/
def descend (heap : Heap) (child : Entry → Option Nat) : Nat → Nat → Option Nat
  | 0, _ => none
  | fuel + 1, i => do
    let e ← heap i
    match child e with
    | none => some i
    | some c => descend heap child fuel c

/-- rb_head and rb_tail: NULL for NULL, else the end of the loop. -/
def extreme (heap : Heap) (child : Entry → Option Nat) (fuel : Nat) :
    Option Nat → Option (Option Nat)
  | none => some none
  | some i => (descend heap child fuel i).map some

def rbHead (heap : Heap) (fuel : Nat) (iter : Option Nat) : Option (Option Nat) :=
  extreme heap Entry.left fuel iter

def rbTail (heap : Heap) (fuel : Nat) (iter : Option Nat) : Option (Option Nat) :=
  extreme heap Entry.right fuel iter

/-- The loop of rb_next (side = right) and of rb_prev (side = left): climb while the entry is
its parent's child on that side, then return the parent. -/
def climb (heap : Heap) (side : Entry → Option Nat) : Nat → Nat → Option (Option Nat)
  | 0, _ => none
  | fuel + 1, i => do
    let e ← heap i
    match e.parent with
    | none => some none
    | some p => do
      let pe ← heap p
      if side pe = some i then climb heap side fuel p else some (some p)

/-- rb_next (fwd = right, back = left) and rb_prev (fwd = left, back = right). -/
def successor (heap : Heap) (fwd back : Entry → Option Nat) (fuel : Nat) (i : Nat) :
    Option (Option Nat) := do
  let e ← heap i
  match fwd e with
  | some c => extreme heap back fuel (some c)
  | none => climb heap fwd fuel i

def rbNext (heap : Heap) (fuel : Nat) (i : Nat) : Option (Option Nat) :=
  successor heap Entry.right Entry.left fuel i

def rbPrev (heap : Heap) (fuel : Nat) (i : Nat) : Option (Option Nat) :=
  successor heap Entry.left Entry.right fuel i

/-- The loops of rb_postorder_head: the inner while loop down the left children and the for
loop around it that steps to the right child, as one loop. -/
def postorderHeadLoop (heap : Heap) : Nat → Nat → Option Nat
  | 0, _ => none
  | fuel + 1, i => do
    let e ← heap i
    match e.left, e.right with
    | some l, _ => postorderHeadLoop heap fuel l
    | none, none => some i
    | none, some r => postorderHeadLoop heap fuel r

def rbPostorderHead (heap : Heap) (fuel : Nat) : Option Nat → Option (Option Nat)
  | none => some none
  | some i => (postorderHeadLoop heap fuel i).map some

def rbPostorderNext (heap : Heap) (fuel : Nat) (i : Nat) : Option (Option Nat) := do
  let e ← heap i
  match e.parent with
  | none => some none
  | some p => do
    let pe ← heap p
    if pe.right = some i ∨ pe.right = none then some (some p)
    else rbPostorderHead heap fuel pe.right

/-- RB_FOR_EACH: the entries the cursor takes, from rb_head of the root by rb_next until NULL. -/
def rbForEach (heap : Heap) (fuel : Nat) (root : Option Nat) : Option (List Nat) := do
  let c ← rbHead heap fuel root
  follow (rbNext heap fuel) fuel c

/-- RB_FOR_EACH_DESTRUCTOR with rb_postorder's body: the cursor's successor is taken, then the
callback runs on the cursor. The entries visited and the heap the callbacks leave. -/
def postorderLoop (callback : Nat → Heap → Heap) (fuel : Nat) :
    Nat → Heap → Option Nat → Option (List Nat × Heap)
  | _, mem, none => some ([], mem)
  | 0, _, some _ => none
  | n + 1, mem, some c => do
    let next ← rbPostorderNext mem fuel c
    let r ← postorderLoop callback fuel n (callback c mem) next
    pure (c :: r.1, r.2)

def rbPostorder (heap : Heap) (callback : Nat → Heap → Heap) (fuel : Nat) (root : Option Nat) :
    Option (List Nat × Heap) := do
  let c ← rbPostorderHead heap fuel root
  postorderLoop callback fuel fuel heap c

/-- The entries at the nodes of `t` hold its shape: each its parent `p` and the roots of its
subtrees under the child fields `lc` and `rc`. -/
def Links (heap : Heap) (lc rc : Entry → Option Nat) : BinaryTree Nat → Option Nat → Prop
  | .nil, _ => True
  | .node i l r, p =>
    (∃ e, heap i = some e ∧ e.parent = p ∧ lc e = l.root ∧ rc e = r.root) ∧
      Links heap lc rc l (some i) ∧ Links heap lc rc r (some i)

/-- A well-formed tree: the heap holds the links of `t` from `root` down, no entry is in it
twice, and it is a search tree for the compare order `lt`. -/
structure WellFormed (heap : Heap) (lt : Nat → Nat → Prop) (root : Option Nat)
    (t : BinaryTree Nat) : Prop where
  links : Links heap Entry.left Entry.right t none
  root_eq : t.root = root
  nodup : t.inorder.Nodup
  ordered : SearchTree lt t

section Links

variable {heap : Heap} {lc rc : Entry → Option Nat}

theorem Links.mirror : ∀ {t : BinaryTree Nat} {p : Option Nat},
    Links heap lc rc t p → Links heap rc lc t.mirror p
  | .nil, _, _ => trivial
  | .node _ _ _, _, ⟨⟨e, he, hp, hl, hr⟩, hLl, hLr⟩ =>
    ⟨⟨e, he, hp, by rw [root_mirror, hr], by rw [root_mirror, hl]⟩, hLr.mirror, hLl.mirror⟩

theorem Links.congr {heap' : Heap} : ∀ {t : BinaryTree Nat} {p : Option Nat},
    (∀ x ∈ t.postorder, heap' x = heap x) → Links heap lc rc t p → Links heap' lc rc t p
  | .nil, _, _, _ => trivial
  | .node i l r, _, hagree, ⟨⟨e, he, hp, hl, hr⟩, hLl, hLr⟩ => by
    refine ⟨⟨e, (hagree i (by simp)).trans he, hp, hl, hr⟩, hLl.congr ?_, hLr.congr ?_⟩
    · exact fun x hx => hagree x (by simp [hx])
    · exact fun x hx => hagree x (by simp [hx])

theorem Links.entry {s : BinaryTree Nat} {p : Option Nat} {j : Nat} (hL : Links heap lc rc s p)
    (hj : s.root = some j) : ∃ e, heap j = some e ∧ e.parent = p := by
  cases s with
  | nil => cases hj
  | node a l r =>
    cases hj
    obtain ⟨⟨e, he, hp, -, -⟩, -, -⟩ := hL
    exact ⟨e, he, hp⟩

theorem Links.isSubtree {s t : BinaryTree Nat} {p : Option Nat} (hL : Links heap lc rc t p)
    (hs : IsSubtree s t) : ∃ q, Links heap lc rc s q := by
  induction hs generalizing p with
  | refl => exact ⟨p, hL⟩
  | left a r _ ih => exact ih hL.2.1
  | right a l _ ih => exact ih hL.2.2

end Links

section Descend

variable {heap : Heap} {lc rc : Entry → Option Nat}

theorem descend_eq {s : BinaryTree Nat} {p : Option Nat} {i f : Nat} (hL : Links heap lc rc s p)
    (hi : s.root = some i) (hf : s.numNodes ≤ f) : descend heap lc f i = s.inorder.head? := by
  induction s generalizing p i f with
  | nil => cases hi
  | node a l r ihl _ =>
    cases hi
    obtain ⟨⟨e, he, -, hl, -⟩, hLl, -⟩ := hL
    obtain ⟨f, rfl⟩ : ∃ g, f = g + 1 := ⟨f - 1, by simp at hf; omega⟩
    rw [numNodes_node] at hf
    cases l with
    | nil =>
      rw [root_nil] at hl
      simp [descend, he, hl]
    | node b ll lr =>
      rw [root_node] at hl
      rw [head?_inorder_of_left a r (by simp), ← ihl (f := f) hLl rfl (by omega)]
      simp [descend, he, hl]

theorem extreme_eq {t : BinaryTree Nat} {p : Option Nat} {f : Nat} (hL : Links heap lc rc t p)
    (hf : t.numNodes ≤ f) : extreme heap lc f t.root = some t.inorder.head? := by
  cases t with
  | nil => rfl
  | node a l r =>
    rw [root_node, extreme, descend_eq hL rfl hf]
    cases h : (node a l r).inorder with
    | nil => simp at h
    | cons x xs => rfl

end Descend

section Successor

variable {heap : Heap} {fwd back side : Entry → Option Nat} {i q f : Nat} {e ep : Entry}

theorem climb_of_root (he : heap i = some e) (hp : e.parent = none) (f : Nat) :
    climb heap side (f + 1) i = some none := by
  simp [climb, he, hp]

theorem climb_of_ne (he : heap i = some e) (hp : e.parent = some q) (hq : heap q = some ep)
    (hs : side ep ≠ some i) (f : Nat) : climb heap side (f + 1) i = some (some q) := by
  simp [climb, he, hp, hq, hs]

theorem climb_of_eq (he : heap i = some e) (hp : e.parent = some q) (hq : heap q = some ep)
    (hs : side ep = some i) (f : Nat) : climb heap side (f + 1) i = climb heap side f q := by
  simp [climb, he, hp, hq, hs]

theorem successor_of_fwd {c : Nat} (he : heap i = some e) (hc : fwd e = some c) (f : Nat) :
    successor heap fwd back f i = extreme heap back f (some c) := by
  simp [successor, he, hc]

theorem successor_of_no_fwd (he : heap i = some e) (hc : fwd e = none) (f : Nat) :
    successor heap fwd back f i = climb heap fwd f i := by
  simp [successor, he, hc]

end Successor

section Inorder

variable {heap : Heap} {lc rc : Entry → Option Nat}

/-- The successor of every entry of a subtree `s`, where climbing out of `s` from its root
(after at least `D` steps of fuel) gives `ex`: the next one in order in `s`, then `ex`. The
induction is on `s`; the left subtree's exit is the node itself and the right subtree's is
`ex` again, one climbing step further up. -/
theorem successor_after : ∀ (s : BinaryTree Nat) {p ex : Option Nat} {D : Nat},
    Links heap lc rc s p → (s.inorder ++ ex.toList).Nodup →
    (∀ i, s.root = some i → ∀ f, D ≤ f → climb heap rc f i = some ex) →
    ∀ a ∈ s.inorder, ∀ f, D + s.numNodes ≤ f →
      successor heap rc lc f a = some (after (s.inorder ++ ex.toList) a)
  | .nil, _, _, _, _, _, _, a, ha, _, _ => by simp at ha
  | .node i l r, p, ex, D, hL, hnd, hexit, a, ha, f, hf => by
    obtain ⟨⟨e, he, -, hle, hri⟩, hLl, hLr⟩ := hL
    rw [numNodes_node] at hf
    rw [inorder_node, List.append_assoc, List.cons_append] at hnd ⊢
    have hndir := (List.nodup_append.mp hnd).2.1
    have hdisj := (List.nodup_append.mp hnd).2.2
    rw [inorder_node, List.mem_append, List.mem_cons] at ha
    rcases ha with ha | rfl | ha
    · have hexit_l : ∀ j, l.root = some j → ∀ f, 1 ≤ f → climb heap rc f j = some (some i) := by
        intro j hj f hf1
        obtain ⟨ej, hej, hparj⟩ := hLl.entry hj
        obtain ⟨f, rfl⟩ : ∃ g, f = g + 1 := ⟨f - 1, by omega⟩
        refine climb_of_ne hej hparj he ?_ f
        rw [hri]
        intro hk
        exact hdisj j (root_mem_inorder hj) j (by simp [root_mem_inorder hk]) rfl
      have hndl : (l.inorder ++ (some i).toList).Nodup :=
        hnd.sublist (List.Sublist.append_left (by simp) _)
      rw [successor_after l hLl hndl hexit_l a ha f (by omega), after_append_of_mem _ ha,
        after_append_of_mem _ ha]
      rfl
    · rw [after_split (fun h => hdisj a h a List.mem_cons_self rfl)]
      cases r with
      | nil =>
        rw [root_nil] at hri
        rw [successor_of_no_fwd he hri, hexit a rfl f (by omega)]
        simp
      | node k rl rr =>
        rw [root_node] at hri
        rw [successor_of_fwd he hri]
        refine (extreme_eq hLr (by omega)).trans ?_
        rw [List.head?_append_of_ne_nil _ (by simp)]
    · have hexit_r : ∀ k, r.root = some k → ∀ f, D + 1 ≤ f → climb heap rc f k = some ex := by
        intro k hk f hf1
        obtain ⟨ek, hek, hpark⟩ := hLr.entry hk
        obtain ⟨f, rfl⟩ : ∃ g, f = g + 1 := ⟨f - 1, by omega⟩
        rw [climb_of_eq hek hpark he (hri.trans hk) f]
        exact hexit i rfl f (by omega)
      have hai : a ∉ l.inorder ++ [i] := by
        rw [List.mem_append, List.mem_singleton]
        rintro (h | rfl)
        · exact hdisj a h a (by simp [ha]) rfl
        · exact (List.nodup_cons.mp hndir).1 (by simp [ha])
      rw [successor_after r hLr (List.nodup_cons.mp hndir).2 hexit_r a ha f (by omega),
        ← List.singleton_append, ← List.append_assoc, after_append_of_not_mem _ hai]

theorem successor_after_root {t : BinaryTree Nat} (hL : Links heap lc rc t none)
    (hnd : t.inorder.Nodup) (a : Nat) (ha : a ∈ t.inorder) (f : Nat) (hf : t.numNodes < f) :
    successor heap rc lc f a = some (after t.inorder a) := by
  have hexit : ∀ i, t.root = some i → ∀ f, 1 ≤ f → climb heap rc f i = some none := by
    intro i hi f hf1
    obtain ⟨e, he, hpar⟩ := hL.entry hi
    obtain ⟨f, rfl⟩ : ∃ g, f = g + 1 := ⟨f - 1, by omega⟩
    exact climb_of_root he hpar f
  have h := successor_after t hL (by simpa using hnd) hexit a ha f (by omega)
  simpa using h

theorem follow_successor {t : BinaryTree Nat} {f : Nat} (hL : Links heap lc rc t none)
    (hnd : t.inorder.Nodup) (hf : t.numNodes < f) :
    (extreme heap lc f t.root).bind (follow (successor heap rc lc f) f) = some t.inorder := by
  rw [extreme_eq hL (by omega)]
  exact follow_eq hnd (fun a ha => successor_after_root hL hnd a ha f hf) (by simp; omega)

end Inorder

section Postorder

variable {heap : Heap} {c q f : Nat} {e ep : Entry}

theorem postorderHeadLoop_eq {s : BinaryTree Nat} {p : Option Nat} {i n : Nat}
    (hL : Links heap Entry.left Entry.right s p) (hi : s.root = some i) (hn : s.numNodes ≤ n) :
    postorderHeadLoop heap n i = s.postorder.head? := by
  induction s generalizing p i n with
  | nil => cases hi
  | node a l r ihl ihr =>
    cases hi
    obtain ⟨⟨e, he, -, hl, hr⟩, hLl, hLr⟩ := hL
    obtain ⟨n, rfl⟩ : ∃ m, n = m + 1 := ⟨n - 1, by simp at hn; omega⟩
    rw [numNodes_node] at hn
    cases l with
    | node b ll lr =>
      rw [root_node] at hl
      rw [head?_postorder_of_left a r (by simp), ← ihl (n := n) hLl rfl (by omega)]
      simp [postorderHeadLoop, he, hl]
    | nil =>
      rw [root_nil] at hl
      cases r with
      | nil =>
        rw [root_nil] at hr
        simp [postorderHeadLoop, he, hl, hr]
      | node k rl rr =>
        rw [root_node] at hr
        have hhead : (node a nil (node k rl rr)).postorder.head? = (node k rl rr).postorder.head? := by
          rw [postorder_node, postorder_nil, List.nil_append, List.head?_append_of_ne_nil _ (by simp)]
        rw [hhead, ← ihr (n := n) hLr rfl (by omega)]
        simp [postorderHeadLoop, he, hl, hr]

theorem rbPostorderHead_eq {t : BinaryTree Nat} {p : Option Nat}
    (hL : Links heap Entry.left Entry.right t p) (hf : t.numNodes ≤ f) :
    rbPostorderHead heap f t.root = some t.postorder.head? := by
  cases t with
  | nil => rfl
  | node a l r =>
    rw [root_node, rbPostorderHead, postorderHeadLoop_eq hL rfl hf]
    cases h : (node a l r).postorder with
    | nil => simp at h
    | cons x xs => rfl

theorem rbPostorderNext_of_root (he : heap c = some e) (hp : e.parent = none) (f : Nat) :
    rbPostorderNext heap f c = some none := by
  simp [rbPostorderNext, he, hp]

theorem rbPostorderNext_of_right (he : heap c = some e) (hp : e.parent = some q)
    (hq : heap q = some ep) (hr : ep.right = some c) (f : Nat) :
    rbPostorderNext heap f c = some (some q) := by
  simp [rbPostorderNext, he, hp, hq, hr]

theorem rbPostorderNext_of_left {s : BinaryTree Nat} (he : heap c = some e)
    (hp : e.parent = some q) (hq : heap q = some ep) (hr : ep.right = s.root)
    (hne : s.root ≠ some c) (hL : Links heap Entry.left Entry.right s (some q))
    (hf : s.numNodes ≤ f) : rbPostorderNext heap f c = some (s.postorder ++ [q]).head? := by
  cases s with
  | nil =>
    rw [root_nil] at hr
    simp [rbPostorderNext, he, hp, hq, hr]
  | node k sl sr =>
    have hk : k ≠ c := fun h => hne (by rw [h, root_node])
    have hhead := rbPostorderHead_eq hL hf
    rw [root_node] at hr hhead
    rw [List.head?_append_of_ne_nil _ (by simp), ← hhead]
    simp [rbPostorderNext, he, hp, hq, hr, hk]

theorem head?_append_singleton_eq (l : List Nat) (q : Nat) (m : List Nat) :
    (l ++ [q]).head? = (l ++ q :: m).head? := by
  cases l <;> rfl

/-- An entry's post-order successor reads only the entries from it on: in a heap that agrees
with a well-formed one there, it is the next entry in post-order. -/
theorem rbPostorderNext_after {heap' : Heap} {t : BinaryTree Nat}
    (hL : Links heap Entry.left Entry.right t none) (hnd : t.postorder.Nodup)
    {v rest : List Nat} (hsplit : t.postorder = v ++ c :: rest)
    (hagree : ∀ x ∈ c :: rest, heap' x = heap x) (hf : t.numNodes ≤ f) :
    rbPostorderNext heap' f c = some rest.head? := by
  have hnd' : (v ++ c :: rest).Nodup := hsplit ▸ hnd
  have hmem : c ∈ t.inorder := (postorder_perm_inorder t).subset (by simp [hsplit])
  obtain ⟨l, r, hsub⟩ := exists_isSubtree_of_mem hmem
  have hc' : heap' c = heap c := hagree c List.mem_cons_self
  rcases hsub.eq_or_child with heq | ⟨q, ql, qr, hq, hchild⟩
  · subst heq
    obtain ⟨e, he, hpar⟩ := hL.entry rfl
    have hrest : rest = [] := rest_eq_of_nodup_split (w := l.postorder ++ r.postorder) hnd'
      (hsplit.symm.trans (by simp))
    rw [rbPostorderNext_of_root (hc'.trans he) hpar, hrest]
    rfl
  · obtain ⟨pq, ⟨eq, heq, -, -, hqr⟩, hLql, hLqr⟩ := hL.isSubtree hq
    obtain ⟨A, B, hAB⟩ := hq.postorder_infix
    rcases hchild with rfl | rfl
    · obtain ⟨ec, hec, hparc⟩ := hLql.entry rfl
      have hrest : rest = qr.postorder ++ q :: B :=
        rest_eq_of_nodup_split (w := A ++ l.postorder ++ r.postorder) hnd'
          (by rw [← hsplit, ← hAB]; simp)
      have hcqr : c ∉ qr.postorder := fun h =>
        (not_mem_of_nodup_split hnd').2 (by simp [hrest, h])
      have hq' : heap' q = heap q := hagree q (by simp [hrest])
      have hLqr' : Links heap' Entry.left Entry.right qr (some q) :=
        hLqr.congr fun x hx => hagree x (by simp [hrest, hx])
      rw [rbPostorderNext_of_left (hc'.trans hec) hparc (hq'.trans heq) hqr
          (fun h => hcqr (root_mem_postorder h)) hLqr'
          (le_trans (IsSubtree.right q _ .refl).numNodes_le (le_trans hq.numNodes_le hf)),
        hrest, head?_append_singleton_eq]
    · obtain ⟨ec, hec, hparc⟩ := hLqr.entry rfl
      have hrest : rest = q :: B :=
        rest_eq_of_nodup_split (w := A ++ ql.postorder ++ l.postorder ++ r.postorder) hnd'
          (by rw [← hsplit, ← hAB]; simp)
      have hq' : heap' q = heap q := hagree q (by simp [hrest])
      rw [rbPostorderNext_of_right (hc'.trans hec) hparc (hq'.trans heq) (by rw [hqr, root_node]),
        hrest]
      rfl

theorem postorderLoop_eq {callback : Nat → Heap → Heap}
    (hcb : ∀ c mem x, x ≠ c → callback c mem x = mem x) {t : BinaryTree Nat}
    (hL : Links heap Entry.left Entry.right t none) (hnd : t.postorder.Nodup)
    {fuel : Nat} (hf : t.numNodes ≤ fuel) :
    ∀ (rest v : List Nat) (c : Nat) (heap' : Heap), t.postorder = v ++ c :: rest →
      (∀ x ∈ c :: rest, heap' x = heap x) → ∀ n, rest.length < n →
      postorderLoop callback fuel n heap' (some c) =
        some (c :: rest, (c :: rest).foldl (fun mem x => callback x mem) heap') := by
  intro rest
  induction rest with
  | nil =>
    intro v c heap' hsplit hagree n hn
    obtain ⟨n, rfl⟩ : ∃ m, n = m + 1 := ⟨n - 1, by simp at hn; omega⟩
    have hnext := rbPostorderNext_after hL hnd hsplit hagree hf
    simp [postorderLoop, hnext]
  | cons d rest ih =>
    intro v c heap' hsplit hagree n hn
    obtain ⟨n, rfl⟩ : ∃ m, n = m + 1 := ⟨n - 1, by simp at hn; omega⟩
    have hnext := rbPostorderNext_after hL hnd hsplit hagree hf
    have hc : c ∉ d :: rest := (not_mem_of_nodup_split (hsplit ▸ hnd)).2
    have hagree' : ∀ x ∈ d :: rest, callback c heap' x = heap x := by
      intro x hx
      rw [hcb c heap' x (fun h => hc (h ▸ hx))]
      exact hagree x (List.mem_cons_of_mem c hx)
    have hrun := ih (v ++ [c]) d (callback c heap') (by simp [hsplit]) hagree' n
      (by simp at hn; omega)
    simp [postorderLoop, hnext, hrun]

theorem rbPostorder_eq {callback : Nat → Heap → Heap}
    (hcb : ∀ c mem x, x ≠ c → callback c mem x = mem x) {lt : Nat → Nat → Prop}
    {root : Option Nat} {t : BinaryTree Nat} (hwf : WellFormed heap lt root t) {fuel : Nat}
    (hf : t.numNodes < fuel) :
    rbPostorder heap callback fuel root =
      some (t.postorder, t.postorder.foldl (fun mem x => callback x mem) heap) := by
  have hnd : t.postorder.Nodup := (postorder_perm_inorder t).nodup_iff.mpr hwf.nodup
  have hlen : t.postorder.length = t.numNodes := by
    rw [(postorder_perm_inorder t).length_eq, length_inorder]
  rw [← hwf.root_eq, rbPostorder, rbPostorderHead_eq hwf.links (by omega)]
  cases h : t.postorder with
  | nil => cases fuel <;> rfl
  | cons c rest =>
    rw [h] at hlen
    exact postorderLoop_eq hcb hwf.links hnd (by omega) rest [] c heap (by simp [h])
      (fun _ _ => rfl) fuel (by simp at hlen; omega)

end Postorder

section Traversals

variable {heap : Heap} {lt : Nat → Nat → Prop} {root : Option Nat} {t : BinaryTree Nat}
  {fuel : Nat}

theorem rbForEach_eq (hwf : WellFormed heap lt root t) (hf : t.numNodes < fuel) :
    rbForEach heap fuel root = some t.inorder := by
  rw [← hwf.root_eq]
  exact follow_successor hwf.links hwf.nodup hf

theorem rbTail_follow_rbPrev (hwf : WellFormed heap lt root t) (hf : t.numNodes < fuel) :
    (rbTail heap fuel root).bind (follow (rbPrev heap fuel) fuel) = some t.inorder.reverse := by
  rw [← hwf.root_eq, ← root_mirror, ← inorder_mirror]
  refine follow_successor hwf.links.mirror ?_ (by rw [numNodes_mirror]; exact hf)
  rw [inorder_mirror]
  exact List.nodup_reverse.mpr hwf.nodup

theorem rbTree_traversals [IsTrans Nat lt] (hwf : WellFormed heap lt root t) :
    (∀ fuel, t.numNodes < fuel → rbForEach heap fuel root = some t.inorder) ∧
    t.inorder.Nodup ∧ t.inorder.Pairwise lt ∧
    (∀ fuel, t.numNodes < fuel →
      (rbTail heap fuel root).bind (follow (rbPrev heap fuel) fuel) = some t.inorder.reverse) ∧
    (∀ callback : Nat → Heap → Heap, (∀ c mem x, x ≠ c → callback c mem x = mem x) →
      ∀ fuel, t.numNodes < fuel →
        rbPostorder heap callback fuel root =
          some (t.postorder, t.postorder.foldl (fun mem x => callback x mem) heap)) ∧
    t.postorder.Perm t.inorder ∧
    (∀ i l r, IsSubtree (node i l r) t → l.postorder ++ r.postorder ++ [i] <:+: t.postorder) :=
  ⟨fun _ hf => rbForEach_eq hwf hf, hwf.nodup, hwf.ordered.inorder_pairwise,
    fun _ hf => rbTail_follow_rbPrev hwf hf, fun _ hcb _ hf => rbPostorder_eq hcb hwf hf,
    postorder_perm_inorder t, fun _ _ _ hs => hs.postorder_infix⟩

def threeHeap : Heap
  | 0 => some ⟨some 1, none, none⟩
  | 1 => some ⟨none, some 0, some 2⟩
  | 2 => some ⟨some 1, none, none⟩
  | _ => none

def threeTree : BinaryTree Nat := node 1 (node 0 nil nil) (node 2 nil nil)

theorem threeTree_wellFormed : WellFormed threeHeap (· < ·) (some 1) threeTree where
  links := ⟨⟨_, rfl, rfl, rfl, rfl⟩, ⟨⟨_, rfl, rfl, rfl, rfl⟩, trivial, trivial⟩,
    ⟨⟨_, rfl, rfl, rfl, rfl⟩, trivial, trivial⟩⟩
  root_eq := rfl
  nodup := by decide
  ordered := by simp [threeTree, SearchTree]

def freeEntry (c : Nat) (mem : Heap) : Heap := Function.update mem c none

theorem rbTree_traversals_three : WellFormed threeHeap (· < ·) (some 1) threeTree ∧
    rbForEach threeHeap 4 (some 1) = some [0, 1, 2] ∧
    (rbTail threeHeap 4 (some 1)).bind (follow (rbPrev threeHeap 4) 4) = some [2, 1, 0] ∧
    (rbPostorder threeHeap freeEntry 4 (some 1)).map Prod.fst = some [0, 2, 1] := by
  have h := rbTree_traversals threeTree_wellFormed
  refine ⟨threeTree_wellFormed, h.1 4 (by decide), h.2.2.2.1 4 (by decide), ?_⟩
  rw [h.2.2.2.2.1 freeEntry (fun c mem x hx => Function.update_of_ne hx _ _) 4 (by decide)]
  rfl

end Traversals

end Wine.RbTree
