import Wine.Lib.BinTree

/-!
# Positions in a binary tree, and rotations at them

A position is a path of frames from a subtree up to the root: at each ancestor, the side taken,
the ancestor and the subtree not taken. `plug` rebuilds the tree around a subtree. The in-order
list of a plugged tree is the subtree's with the path's nodes around it, so replacing the subtree
by one with the same in-order list, as a rotation does, keeps the in-order list of the whole tree
and with it every search-tree property.
-/

set_option autoImplicit false

namespace BinaryTree

variable {α : Type}

/-- A side of a node. -/
inductive Dir
  | left
  | right
  deriving DecidableEq, Repr

def Dir.other : Dir → Dir
  | .left => .right
  | .right => .left

@[simp] theorem Dir.other_other (d : Dir) : d.other.other = d := by cases d <;> rfl

@[simp] theorem Dir.other_ne (d : Dir) : d.other ≠ d := by cases d <;> decide

@[simp] theorem Dir.ne_other (d : Dir) : d ≠ d.other := by cases d <;> decide

theorem Dir.eq_or_eq_other (a b : Dir) : a = b ∨ a = b.other := by
  cases a <;> cases b <;> decide

/-- The node `x` with child `c` on side `d` and `o` on the other side. -/
def make : Dir → α → BinaryTree α → BinaryTree α → BinaryTree α
  | .left, x, c, o => node x c o
  | .right, x, c, o => node x o c

/-- A step of a path: the subtree below went to the `dir` side of `parent`, whose other child
is `sibling`. -/
structure Frame (α : Type) where
  dir : Dir
  parent : α
  sibling : BinaryTree α

def Frame.attach (f : Frame α) (s : BinaryTree α) : BinaryTree α :=
  make f.dir f.parent s f.sibling

/-- Rebuild the tree around `s`; the head of the path is the parent of `s`. -/
def plug : List (Frame α) → BinaryTree α → BinaryTree α
  | [], s => s
  | f :: fs, s => plug fs (f.attach s)

/-- The nodes of a path before the subtree in order, and those after it. -/
def pathLeft : List (Frame α) → List α
  | [] => []
  | f :: fs => pathLeft fs ++ (match f.dir with
      | .left => []
      | .right => f.sibling.inorder ++ [f.parent])

def pathRight : List (Frame α) → List α
  | [] => []
  | f :: fs => (match f.dir with
      | .left => f.parent :: f.sibling.inorder
      | .right => []) ++ pathRight fs

def pathParent : List (Frame α) → Option α
  | [] => none
  | f :: _ => some f.parent

def Frame.nodes (f : Frame α) : List α := f.parent :: f.sibling.inorder

def pathNodes (P : List (Frame α)) : List α := P.flatMap Frame.nodes

/-- The rotation that brings up the child of the root on side `d`: `rotate .right` turns
`node e a (node r b c)` into `node r (node e a b) c`. -/
def rotate : Dir → BinaryTree α → BinaryTree α
  | .right, node e a (node r b c) => node r (node e a b) c
  | .left, node e (node l a b) c => node l a (node e b c)
  | _, t => t

@[simp] theorem plug_nil (s : BinaryTree α) : plug [] s = s := rfl

@[simp] theorem plug_cons (f : Frame α) (fs : List (Frame α)) (s : BinaryTree α) :
    plug (f :: fs) s = plug fs (f.attach s) := rfl

@[simp] theorem make_left (x : α) (c o : BinaryTree α) : make .left x c o = node x c o := rfl

@[simp] theorem make_right (x : α) (c o : BinaryTree α) : make .right x c o = node x o c := rfl

@[simp] theorem root_make (d : Dir) (x : α) (c o : BinaryTree α) : (make d x c o).root = some x := by
  cases d <;> rfl

theorem numNodes_make (d : Dir) (x : α) (c o : BinaryTree α) :
    (make d x c o).numNodes = c.numNodes + o.numNodes + 1 := by
  cases d
  · rfl
  · rw [make_right, numNodes_node, Nat.add_comm o.numNodes]

@[simp] theorem root_attach (f : Frame α) (s : BinaryTree α) : (f.attach s).root = some f.parent :=
  root_make _ _ _ _

theorem make_other (d : Dir) (x : α) (c o : BinaryTree α) : make d.other x c o = make d x o c := by
  cases d <;> rfl

theorem exists_make {s : BinaryTree α} {x : α} (h : s.root = some x) (d : Dir) :
    ∃ c o, s = make d x c o := by
  cases s with
  | nil => cases h
  | node a l r =>
    cases h
    cases d
    · exact ⟨l, r, rfl⟩
    · exact ⟨r, l, rfl⟩

theorem pathParent_mem {P : List (Frame α)} {p : α} (h : pathParent P = some p) :
    p ∈ pathNodes P := by
  cases P with
  | nil => cases h
  | cons f fs =>
    cases h
    simp [pathNodes, Frame.nodes]

theorem root_plug_cons (f : Frame α) (fs : List (Frame α)) (s s' : BinaryTree α) :
    (plug (f :: fs) s).root = (plug (f :: fs) s').root := by
  induction fs generalizing f s s' with
  | nil => simp
  | cons g gs ih => exact ih g _ _

theorem root_plug_of_root {P : List (Frame α)} {s : BinaryTree α} {x : α} (h : s.root = some x) :
    ∃ r, (plug P s).root = some r := by
  induction P generalizing s x with
  | nil => exact ⟨x, h⟩
  | cons f fs ih => exact ih (root_attach f s)

theorem root_plug_cons_mem {f : Frame α} {fs : List (Frame α)} {s : BinaryTree α} {r : α}
    (h : (plug (f :: fs) s).root = some r) : r ∈ pathNodes (f :: fs) := by
  induction fs generalizing f s with
  | nil =>
    simp only [plug_cons, plug_nil, root_attach, Option.some.injEq] at h
    simp [pathNodes, Frame.nodes, h]
  | cons g gs ih =>
    have := ih h
    simp only [pathNodes, List.flatMap_cons, List.mem_append] at this ⊢
    tauto

theorem rotate_make (d : Dir) (e u : α) (X Y Z : BinaryTree α) :
    rotate d (make d e (make d u X Y) Z) = make d.other u (make d e Y Z) X := by
  cases d <;> rfl

theorem inorder_make_rotate (d : Dir) (e u : α) (X Y Z : BinaryTree α) :
    (make d.other u (make d e Y Z) X).inorder = (make d e (make d u X Y) Z).inorder := by
  cases d <;> simp [Dir.other]

theorem inorder_make_congr (d : Dir) (x : α) {c c' : BinaryTree α} (o : BinaryTree α)
    (h : c.inorder = c'.inorder) : (make d x c o).inorder = (make d x c' o).inorder := by
  cases d <;> simp [h]

theorem inorder_plug (P : List (Frame α)) (s : BinaryTree α) :
    (plug P s).inorder = pathLeft P ++ s.inorder ++ pathRight P := by
  induction P generalizing s with
  | nil => simp [pathLeft, pathRight]
  | cons f fs ih =>
    rw [plug_cons, ih, Frame.attach, pathLeft, pathRight]
    cases f.dir <;> simp

theorem inorder_make_perm (d : Dir) (x : α) (c o : BinaryTree α) :
    (make d x c o).inorder.Perm (x :: (c.inorder ++ o.inorder)) := by
  cases d
  · exact List.perm_middle
  · rw [make_right, inorder_node]
    exact List.perm_middle.trans (List.perm_append_comm.cons x)

theorem nodup_make_make {d d' : Dir} {g p : α} {A B C : BinaryTree α}
    (h : (make d g (make d' p A B) C).inorder.Nodup) :
    g ≠ p ∧ g ∉ A.inorder ∧ g ∉ B.inorder ∧ g ∉ C.inorder ∧ p ∉ A.inorder ∧ p ∉ B.inorder ∧
      p ∉ C.inorder ∧ (∀ x ∈ A.inorder, x ∉ B.inorder ∧ x ∉ C.inorder) ∧
      (∀ x ∈ B.inorder, x ∉ C.inorder) ∧ A.inorder.Nodup ∧ B.inorder.Nodup ∧ C.inorder.Nodup := by
  have hperm : (make d g (make d' p A B) C).inorder.Perm
      (g :: p :: (A.inorder ++ B.inorder ++ C.inorder)) :=
    (inorder_make_perm ..).trans ((((inorder_make_perm ..).append_right _).cons g).trans (by simp))
  have h' := hperm.nodup_iff.mp h
  simp only [List.nodup_cons, List.mem_cons, List.mem_append, not_or, List.nodup_append] at h'
  obtain ⟨⟨hgp, ⟨hgA, hgB⟩, hgC⟩, ⟨⟨hpA, hpB⟩, hpC⟩, ⟨hA, hB, hAB⟩, hC, hABC⟩ := h'
  exact ⟨hgp, hgA, hgB, hgC, hpA, hpB, hpC,
    fun x hx => ⟨fun hb => hAB x hx x hb rfl, fun hc => hABC x (.inl hx) x hc rfl⟩,
    fun x hx hc => hABC x (.inr hx) x hc rfl, hA, hB, hC⟩

theorem pathLeft_append_pathRight_perm (P : List (Frame α)) :
    (pathLeft P ++ pathRight P).Perm (pathNodes P) := by
  induction P with
  | nil => simp [pathLeft, pathRight, pathNodes]
  | cons f fs ih =>
    have hf : ∀ (A B : List α), (A ++ B).Perm f.nodes →
        (pathLeft fs ++ A ++ (B ++ pathRight fs)).Perm (f.nodes ++ pathNodes fs) := by
      intro A B hAB
      have hre : (pathLeft fs ++ A ++ (B ++ pathRight fs)).Perm
          (A ++ B ++ (pathLeft fs ++ pathRight fs)) := by
        simpa only [List.append_assoc] using
          (@List.perm_append_comm _ (pathLeft fs) (A ++ B)).append_right (pathRight fs)
      exact hre.trans (hAB.append ih)
    simp only [pathLeft, pathRight]
    unfold pathNodes at hf ⊢
    rw [List.flatMap_cons]
    cases f.dir
    · exact hf [] _ (List.Perm.refl _)
    · exact hf _ [] (by simp [Frame.nodes])

theorem inorder_plug_perm (P : List (Frame α)) (s : BinaryTree α) :
    (plug P s).inorder.Perm (s.inorder ++ pathNodes P) := by
  have hre : (pathLeft P ++ s.inorder ++ pathRight P).Perm
      (s.inorder ++ (pathLeft P ++ pathRight P)) := by
    simpa only [List.append_assoc] using
      (@List.perm_append_comm _ (pathLeft P) s.inorder).append_right (pathRight P)
  rw [inorder_plug]
  exact hre.trans ((pathLeft_append_pathRight_perm P).append_left _)

theorem plug_append (A B : List (Frame α)) (s : BinaryTree α) :
    plug (A ++ B) s = plug B (plug A s) := by
  induction A generalizing s with
  | nil => rfl
  | cons f fs ih => exact ih _

theorem pathLeft_append (A B : List (Frame α)) : pathLeft (A ++ B) = pathLeft B ++ pathLeft A := by
  induction A with
  | nil => simp [pathLeft]
  | cons f fs ih => simp [pathLeft, ih]

theorem pathRight_append (A B : List (Frame α)) :
    pathRight (A ++ B) = pathRight A ++ pathRight B := by
  induction A with
  | nil => simp [pathRight]
  | cons f fs ih => simp [pathRight, ih]

theorem pathLeft_of_left {Q : List (Frame α)} (hQ : ∀ f ∈ Q, f.dir = .left) : pathLeft Q = [] := by
  induction Q with
  | nil => rfl
  | cons f fs ih =>
    rw [pathLeft, ih fun g hg => hQ g (.tail f hg), hQ f (.head fs)]
    rfl

theorem exists_leftmost {s : BinaryTree α} (hs : s ≠ nil) :
    ∃ Q x R, s = plug Q (node x nil R) ∧ ∀ f ∈ Q, f.dir = .left := by
  induction s with
  | nil => exact absurd rfl hs
  | node a l r ihl _ =>
    by_cases hl : l = nil
    · exact ⟨[], a, r, by rw [hl]; rfl, fun _ h => absurd h List.not_mem_nil⟩
    · obtain ⟨Q, x, R, rfl, hQ⟩ := ihl hl
      refine ⟨Q ++ [⟨.left, a, r⟩], x, R, by rw [plug_append]; rfl, fun f hf => ?_⟩
      rcases List.mem_append.mp hf with hf | hf
      · exact hQ f hf
      · rw [List.mem_singleton.mp hf]

theorem exists_plug_of_mem {t : BinaryTree α} {x : α} (h : x ∈ t.inorder) :
    ∃ P l r, t = plug P (node x l r) := by
  induction t with
  | nil => simp at h
  | node a l r ihl ihr =>
    rw [inorder_node, List.mem_append, List.mem_cons] at h
    rcases h with h | rfl | h
    · obtain ⟨P, l', r', rfl⟩ := ihl h
      exact ⟨P ++ [⟨.left, a, r⟩], l', r', by rw [plug_append]; rfl⟩
    · exact ⟨[], l, r, rfl⟩
    · obtain ⟨P, l', r', rfl⟩ := ihr h
      exact ⟨P ++ [⟨.right, a, l⟩], l', r', by rw [plug_append]; rfl⟩

theorem pathParent_append_cons (Q : List (Frame α)) (f : Frame α) (P : List (Frame α)) :
    pathParent (Q ++ f :: P) = (pathParent Q).or (some f.parent) := by
  cases Q <;> rfl

theorem mem_plug {P : List (Frame α)} {s : BinaryTree α} {x : α} :
    x ∈ (plug P s).inorder ↔ x ∈ s.inorder ∨ x ∈ pathNodes P := by
  rw [(inorder_plug_perm P s).mem_iff, List.mem_append]

theorem nodup_plug {P : List (Frame α)} {s : BinaryTree α} :
    (plug P s).inorder.Nodup ↔ s.inorder.Nodup ∧ (pathNodes P).Nodup ∧
      ∀ x ∈ s.inorder, x ∉ pathNodes P := by
  rw [(inorder_plug_perm P s).nodup_iff, List.nodup_append]
  simp only [ne_eq]
  constructor
  · rintro ⟨h1, h2, h3⟩
    exact ⟨h1, h2, fun x hx hp => h3 x hx x hp rfl⟩
  · rintro ⟨h1, h2, h3⟩
    exact ⟨h1, h2, fun x hx y hy hxy => h3 x hx (hxy ▸ hy)⟩

theorem inorder_plug_congr (P : List (Frame α)) {s s' : BinaryTree α}
    (h : s.inorder = s'.inorder) : (plug P s).inorder = (plug P s').inorder := by
  rw [inorder_plug, inorder_plug, h]

theorem numNodes_plug (P : List (Frame α)) (s : BinaryTree α) :
    (plug P s).numNodes = (pathLeft P).length + s.numNodes + (pathRight P).length := by
  rw [← length_inorder, inorder_plug, List.length_append, List.length_append, length_inorder]

theorem length_le_numNodes_plug (P : List (Frame α)) (s : BinaryTree α) :
    P.length + s.numNodes ≤ (plug P s).numNodes := by
  induction P generalizing s with
  | nil => simp
  | cons f fs ih =>
    have := ih (f.attach s)
    rw [Frame.attach, numNodes_make] at this
    simp only [plug_cons, List.length_cons, Frame.attach]
    omega

/-! The in-order list after unlinking a node: the node is erased from it. -/

theorem erase_of_nodup_split [DecidableEq α] {A B : List α} {x : α} (h : (A ++ x :: B).Nodup) :
    (A ++ x :: B).erase x = A ++ B := by
  rw [List.erase_append_right _ (Walk.not_mem_of_nodup_split h).1, List.erase_cons_head]

theorem inorder_plug_unlink [DecidableEq α] {P : List (Frame α)} {d : Dir} {x : α}
    {C : BinaryTree α} (h : (plug P (make d x nil C)).inorder.Nodup) :
    (plug P C).inorder = (plug P (make d x nil C)).inorder.erase x := by
  cases d
  · have e : (plug P (make .left x nil C)).inorder =
        pathLeft P ++ x :: (C.inorder ++ pathRight P) := by simp [inorder_plug]
    rw [e] at h ⊢
    rw [erase_of_nodup_split h, inorder_plug, List.append_assoc]
  · have e : (plug P (make .right x nil C)).inorder =
        (pathLeft P ++ C.inorder) ++ x :: pathRight P := by simp [inorder_plug]
    rw [e] at h ⊢
    rw [erase_of_nodup_split h, inorder_plug]

theorem inorder_plug_successor [DecidableEq α] {P Q : List (Frame α)} {e i : α}
    {L R : BinaryTree α} (hQ : ∀ f ∈ Q, f.dir = .left)
    (h : (plug P (node e L (plug Q (node i nil R)))).inorder.Nodup) :
    (plug P (node i L (plug Q R))).inorder =
      (plug P (node e L (plug Q (node i nil R)))).inorder.erase e := by
  have e1 : (plug P (node e L (plug Q (node i nil R)))).inorder =
      (pathLeft P ++ L.inorder) ++ e :: (i :: (R.inorder ++ pathRight Q) ++ pathRight P) := by
    simp [inorder_plug, pathLeft_of_left hQ]
  have e2 : (plug P (node i L (plug Q R))).inorder =
      (pathLeft P ++ L.inorder) ++ (i :: (R.inorder ++ pathRight Q) ++ pathRight P) := by
    simp [inorder_plug, pathLeft_of_left hQ]
  rw [e1] at h
  rw [e1, e2, erase_of_nodup_split h]

theorem inorder_plug_rename [DecidableEq α] {P : List (Frame α)} {e i : α} {L X : BinaryTree α}
    (h : (plug P (node e L X)).inorder.Nodup) :
    (plug P (node i L X)).inorder =
      (plug P (node e L X)).inorder.map (fun x => if x = e then i else x) := by
  have e1 : (plug P (node e L X)).inorder =
      (pathLeft P ++ L.inorder) ++ e :: (X.inorder ++ pathRight P) := by simp [inorder_plug]
  have e2 : (plug P (node i L X)).inorder =
      (pathLeft P ++ L.inorder) ++ i :: (X.inorder ++ pathRight P) := by simp [inorder_plug]
  rw [e1] at h
  obtain ⟨hA, hB⟩ := Walk.not_mem_of_nodup_split h
  have hid : ∀ l : List α, e ∉ l → l.map (fun x => if x = e then i else x) = l := fun l hl => by
    conv_rhs => rw [← List.map_id l]
    exact List.map_congr_left fun x hx => if_neg (ne_of_mem_of_not_mem hx hl)
  rw [e1, e2, List.map_append, List.map_cons, hid _ hA, hid _ hB, if_pos rfl]

end BinaryTree
