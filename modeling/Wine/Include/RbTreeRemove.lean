import Wine.Include.RbTreeUpdate
import Wine.Lib.RedBlackErase

/-!
# Removing from the red-black trees of include/wine/rbtree.h

`rb_remove` unlinks `iter`, the entry itself when it lacks a child and else the first entry of
its right subtree, and links `iter`'s child in its place; when `iter` is not the entry it then
takes the entry's place, fields and colour (`*iter = *entry`). When the unlinked entry was black,
the subtree of its child is one black entry short, and the fixup loop walks up from it, with the
rotations of `rb_put`, until the colours are red-black again; the root ends black.
`rb_remove_key` removes the entry `rb_get` finds.

The fixup loop reads the sibling of the short subtree and its children without a NULL test: on
a tree whose colours are not red-black those reads can be of NULL, and the model faults there.
-/

namespace Wine.RbTree

set_option autoImplicit false

open BinaryTree

/-- `if (child) child->flags &= ~RB_FLAG_RED;` -/
def blacken (t : Tree) : Option Nat → Tree
  | none => t
  | some c => setRed t c false

/-- The entry rb_remove unlinks: the entry itself when it lacks a child, else the first entry of
its right subtree. -/
def removeIter (heap : Heap) (fuel entry : Nat) (ee : Entry) : Option Nat :=
  match ee.right, ee.left with
  | some r, some _ => descend heap Entry.left fuel r
  | _, _ => pure entry

/-- `iter`, with no child on one side, unlinked: its child takes its place under its parent.
Returns the tree, the child and the parent. -/
def unlink (t : Tree) (iter : Nat) : Option (Tree × Option Nat × Option Nat) := do
  let ie ← t.heap iter
  let child := ie.left.or ie.right
  let t ← replaceChild t iter ie.parent child
  let heap ← setParent t.heap child ie.parent
  pure ({ t with heap }, child, ie.parent)

/-- `*iter = *entry` and the links around it: `iter` takes the place, the fields and the colour
of `entry`. -/
def takePlace (t : Tree) (entry iter : Nat) : Option Tree := do
  let ee ← t.heap entry
  let t : Tree :=
    ⟨Function.update t.heap iter (some ee), Function.update t.red iter (t.red entry), t.root⟩
  let t ← replaceChild t entry ee.parent (some iter)
  let ie ← t.heap iter
  let heap ← setParent t.heap ie.right (some iter)
  let heap ← setParent heap ie.left (some iter)
  pure { t with heap }

/-- The first case of a round of the fixup, with the child on side `d` of `p`: a red sibling `w`
turns black, the parent red, and the parent is rotated so that `w` comes up; the parent's new
child on the other side is the next sibling. -/
def siblingRed (d : Dir) (t : Tree) (p : Nat) (w : Option Nat) : Option (Tree × Option Nat) :=
  if rbIsRed t.red w then do
    let w ← w
    let t ← rotate d.other (setRed (setRed t w false) p true) p
    let pe ← t.heap p
    pure (t, pe.child d.other)
  else pure (t, w)

/-- The third case: when the far child of the black sibling `w` is black, its near child turns
black, `w` red, and `w` is rotated so that the near child comes up as the next sibling. -/
def siblingNear (d : Dir) (t : Tree) (p w : Nat) : Option (Tree × Nat) := do
  let we ← t.heap w
  if !rbIsRed t.red (we.child d.other) then
    let n ← we.child d
    let t ← rotate d (setRed (setRed t n false) w true) w
    let pe ← t.heap p
    let w ← pe.child d.other
    pure (t, w)
  else pure (t, w)

/-- The fourth case: the sibling `w` takes the parent's colour, the parent and `w`'s far child
turn black, and the parent is rotated so that `w` comes up. -/
def siblingFar (d : Dir) (t : Tree) (p w : Nat) : Option Tree := do
  let t := setRed (setRed t w (t.red p)) p false
  let we ← t.heap w
  rotate d.other (blacken t (we.child d.other)) p

/-- The rest of a round once the sibling `w` is black: with a red child it ends the loop with
the third and fourth cases; with two black children it turns red, and the loop goes on from the
parent. -/
def blackRound (d : Dir) (t : Tree) (p w : Nat) :
    Option (Tree × Option (Option Nat × Option Nat)) := do
  let we ← t.heap w
  if rbIsRed t.red (we.child d) || rbIsRed t.red (we.child d.other) then do
    let (t, w) ← siblingNear d t p w
    let t ← siblingFar d t p w
    pure (t, none)
  else do
    let t := setRed t w true
    let pe ← t.heap p
    pure (t, some (some p, pe.parent))

/-- A round of the fixup loop below the parent `p`: `none` next when it breaks, else the next
child and parent. `d` is the side of the child: the code's two mirrored branches are its two
values. -/
def removeRound (t : Tree) (child : Option Nat) (p : Nat) :
    Option (Tree × Option (Option Nat × Option Nat)) := do
  let pe ← t.heap p
  let d := if child = pe.left then Dir.left else Dir.right
  let (t, w) ← siblingRed d t p (pe.child d.other)
  let w ← w
  blackRound d t p w

/-- The fixup loop of rb_remove, one round a call, while there is a parent and the child is
black; then the child turns black. -/
def removeFixup : Nat → Tree → Option Nat → Option Nat → Option Tree
  | 0, _, _, _ => none
  | fuel + 1, t, child, parent =>
    match parent with
    | none => pure (blacken t child)
    | some p =>
      if rbIsRed t.red child then pure (blacken t child)
      else do
        let (t, next) ← removeRound t child p
        match next with
        | none => pure t
        | some (child, parent) => removeFixup fuel t child parent

/-- rb_remove: the entry unlinked, the colours fixed when a black entry left the tree, and the
root black. -/
def rbRemove (t : Tree) (entry fuel : Nat) : Option Tree := do
  let ee ← t.heap entry
  let iter ← removeIter t.heap fuel entry ee
  let (t, child, parent) ← unlink t iter
  let needFixup := !rbIsRed t.red (some iter)
  let (t, parent) ← if entry ≠ iter then do
      let t ← takePlace t entry iter
      pure (t, if parent = some entry then some iter else parent)
    else pure (t, parent)
  let t ← if needFixup then removeFixup fuel t child parent else pure t
  pure (blacken t t.root)

/-- rb_remove_key: the entry rb_get finds removed, the tree unchanged when there is none. -/
def rbRemoveKey (t : Tree) (compare : Nat → Int) (fuel : Nat) : Option Tree := do
  let entry ← rbGet t.heap compare fuel t.root
  match entry with
  | none => pure t
  | some e => rbRemove t e fuel

/-- rb_replace: `src` takes the links and the colour of `dst`; `dst`'s parent, or the root, and
its children then link to `src`. -/
def rbReplace (t : Tree) (dst src : Nat) : Option Tree := do
  let de ← t.heap dst
  let heap ← modify t.heap src fun e => { e with parent := de.parent }
  let t ← replaceChild { t with heap } dst de.parent (some src)
  let heap ← modify t.heap src fun e => { e with left := de.left }
  let heap ← setParent heap de.left (some src)
  let heap ← modify heap src fun e => { e with right := de.right }
  let heap ← setParent heap de.right (some src)
  pure ⟨heap, Function.update t.red src (t.red dst), t.root⟩

/-! ## The splice -/

section Splice

variable {t : Tree} {P : List (Frame Nat)}

@[simp] theorem heap_blacken (t : Tree) (c : Option Nat) : (blacken t c).heap = t.heap := by
  cases c <;> rfl

@[simp] theorem root_blacken (t : Tree) (c : Option Nat) : (blacken t c).root = t.root := by
  cases c <;> rfl

theorem red_blacken (t : Tree) (s : BinaryTree Nat) : (blacken t s.root).red = paintRoot t.red s := by
  cases hr : s.root with
  | none => simp [blacken, paintRoot, hr]
  | some c => simp [blacken, setRed, paintRoot_of_root hr]

theorem or_child {e : Entry} {d : Dir} {c : Option Nat} (hd : e.child d = none)
    (ho : e.child d.other = c) : e.left.or e.right = c := by
  cases d
  · simp only [Entry.child] at hd
    simp [hd, ← ho, Entry.child, Dir.other]
  · simp only [Entry.child] at hd
    simp [hd, ← ho, Entry.child, Dir.other]

theorem unlink_spec {d : Dir} {x : Nat} {C : BinaryTree Nat}
    (hL : Links t.heap Entry.left Entry.right (plug P (make d x nil C)) none)
    (hroot : (plug P (make d x nil C)).root = t.root)
    (hnd : (plug P (make d x nil C)).inorder.Nodup) :
    ∃ heap, unlink t x = some (⟨heap, t.red, (plug P C).root⟩, C.root, pathParent P) ∧
      Links heap Entry.left Entry.right (plug P C) none ∧
      ∀ y, y ∉ (plug P (make d x nil C)).inorder → heap y = t.heap y := by
  obtain ⟨hP, hLs⟩ := links_plug.mp hL
  obtain ⟨⟨xe, hxe, hxp, hxd, hxo⟩, -, hLC⟩ := links_make.mp hLs
  obtain ⟨hnds, hndP, hdisj⟩ := nodup_plug.mp hnd
  have hsub : ∀ y ∈ C.inorder, y ∈ (make d x nil C).inorder := fun y hy =>
    (inorder_make_perm ..).mem_iff.mpr (List.mem_cons_of_mem _ (by simpa using hy))
  have hxs : x ∈ (make d x nil C).inorder := root_mem_inorder (root_make ..)
  have hCnd : C.inorder.Nodup := by
    have := ((inorder_make_perm ..).nodup_iff.mp hnds).of_cons
    simpa using this
  rw [root_make] at hP
  obtain ⟨heap1, hrc, hP1, hag1⟩ :=
    replaceChild_plug C hP hroot hndP (hdisj x hxs)
  have hpar : ∀ y ∈ (make d x nil C).inorder, pathParent P ≠ some y :=
    fun y hy h => hdisj y hy (pathParent_mem h)
  obtain ⟨heap2, hsp, hLC2, hag2⟩ := setParent_links heap1 (pathParent P) hLC hCnd
    fun y hy => hag1 y (hpar y (hsub y hy))
  refine ⟨heap2, ?_, links_plug.mpr ⟨hP1.congr fun y hy => ?_, hLC2⟩, fun y hy => ?_⟩
  · rw [← hxp] at hrc hsp
    simp only [unlink, hxe, or_child hxd hxo, hrc, hsp, Option.bind_eq_bind, Option.bind_some,
      Option.pure_def]
    rw [hxp]
  · exact hag2 y fun hr => hdisj y (hsub y (root_mem_inorder hr)) hy
  · have hy' : ∀ z ∈ (make d x nil C).inorder, z ≠ y := fun z hz h => hy (mem_plug.mpr (.inl (h ▸ hz)))
    rw [hag2 y fun hr => hy' y (hsub y (root_mem_inorder hr)) rfl,
      hag1 y fun h => hy (mem_plug.mpr (.inr (pathParent_mem h)))]

/-- `iter` taking the place of the root `e` of a subtree it is not in: it is linked with `e`'s
parent and children and takes `e`'s colour; only `iter`, the parent and the children are
written. -/
theorem takePlace_spec {e i : Nat} {L X : BinaryTree Nat}
    (hL : Links t.heap Entry.left Entry.right (plug P (node e L X)) none)
    (hroot : (plug P (node e L X)).root = t.root)
    (hnd : (plug P (node e L X)).inorder.Nodup) (hi : i ∉ (plug P (node e L X)).inorder) :
    ∃ heap, takePlace t e i =
        some ⟨heap, Function.update t.red i (t.red e), (plug P (node i L X)).root⟩ ∧
      Links heap Entry.left Entry.right (plug P (node i L X)) none ∧
      ∀ y, y ≠ i → y ∉ (plug P (node e L X)).inorder → heap y = t.heap y := by
  obtain ⟨hP, ⟨ee, hee, hep, hel, her⟩, hLL, hLX⟩ := links_plug.mp hL
  obtain ⟨hnds, hndP, hdisj⟩ := nodup_plug.mp hnd
  have hmem : ∀ y, y ∈ L.inorder ∨ y ∈ X.inorder → y ∈ (node e L X).inorder := by
    rintro y (hy | hy) <;> simp [hy]
  rw [inorder_node, List.nodup_append, List.nodup_cons] at hnds
  obtain ⟨hLnd, ⟨-, hXnd⟩, hLX'⟩ := hnds
  have hne : ∀ y, y ∈ (node e L X).inorder ∨ y ∈ pathNodes P → y ≠ i := by
    rintro y (hy | hy) rfl
    · exact hi (mem_plug.mpr (.inl hy))
    · exact hi (mem_plug.mpr (.inr hy))
  have hpar : ∀ y ∈ (node e L X).inorder, pathParent P ≠ some y :=
    fun y hy h => hdisj y hy (pathParent_mem h)
  have hXL : ∀ y ∈ X.inorder, L.root ≠ some y := fun y hy hr =>
    hLX' y (root_mem_inorder hr) y (List.mem_cons_of_mem _ hy) rfl
  have hP1 : PathLinks (Function.update t.heap i (some ee)) P (some e) :=
    hP.congr fun y hy => Function.update_of_ne (hne y (.inr hy)) _ _
  obtain ⟨heap2, hrc, hP2, hag2⟩ :=
    replaceChild_plug (t := ⟨Function.update t.heap i (some ee),
      Function.update t.red i (t.red e), t.root⟩) (s := node e L X) (node i L X) hP1 hroot hndP
      (hdisj e (by simp))
  dsimp only at hrc hag2
  have hpi : pathParent P ≠ some i := fun h => hi (mem_plug.mpr (.inr (pathParent_mem h)))
  have hag2' : ∀ y ∈ (node e L X).inorder, heap2 y = t.heap y := fun y hy =>
    (hag2 y (hpar y hy)).trans (Function.update_of_ne (hne y (.inl hy)) _ _)
  obtain ⟨heap3, hsp3, hLX3, hag3⟩ := setParent_links heap2 (some i) hLX hXnd
    fun y hy => hag2' y (hmem y (.inr hy))
  obtain ⟨heap4, hsp4, hLL4, hag4⟩ := setParent_links heap3 (some i) hLL hLnd fun y hy =>
    (hag3 y fun hr => hLX' y hy y (List.mem_cons_of_mem _ (root_mem_inorder hr)) rfl).trans
      (hag2' y (hmem y (.inl hy)))
  have hiL : L.root ≠ some i := fun hr => hne i (.inl (hmem i (.inl (root_mem_inorder hr)))) rfl
  have hiX : X.root ≠ some i := fun hr => hne i (.inl (hmem i (.inr (root_mem_inorder hr)))) rfl
  have hie4 : heap4 i = some ee := by
    rw [hag4 i hiL, hag3 i hiX, hag2 i hpi, Function.update_self]
  refine ⟨heap4, ?_, links_plug.mpr ⟨hP2.congr fun y hy => ?_,
    ⟨ee, hie4, hep, hel, her⟩, hLL4, hLX3.congr_inorder fun y hy => hag4 y (hXL y hy)⟩, ?_⟩
  · rw [root_node, ← hep] at hrc
    have hie2 : heap2 i = some ee := (hag2 i hpi).trans (Function.update_self ..)
    rw [← her] at hsp3
    rw [← hel] at hsp4
    simp only [takePlace, hee, hrc, hie2, hsp3, hsp4, Option.bind_eq_bind, Option.bind_some,
      Option.pure_def]
  · have hyL : L.root ≠ some y := fun hr => hdisj y (hmem y (.inl (root_mem_inorder hr))) hy
    have hyX : X.root ≠ some y := fun hr => hdisj y (hmem y (.inr (root_mem_inorder hr))) hy
    rw [hag4 y hyL, hag3 y hyX]
  · intro y hyi hy
    have hy' : ∀ z ∈ (node e L X).inorder, z ≠ y := fun z hz h => hy (mem_plug.mpr (.inl (h ▸ hz)))
    rw [hag4 y fun hr => hy' y (hmem y (.inl (root_mem_inorder hr))) rfl,
      hag3 y fun hr => hy' y (hmem y (.inr (root_mem_inorder hr))) rfl,
      hag2 y fun h => hy (mem_plug.mpr (.inr (pathParent_mem h))), Function.update_of_ne hyi]

end Splice

/-! ## The fixup loop -/

section Fixup

/-- What holds at the head of the fixup loop: the heap links the tree `plug P s`, whose focus is
one black entry short. -/
structure RemoveInv (t : Tree) (P : List (Frame Nat)) (s : BinaryTree Nat) : Prop where
  links : Links t.heap Entry.left Entry.right (plug P s) none
  root_eq : (plug P s).root = t.root
  erase : EraseInv t.red P s

/-- Where the loop ends: the heap links a tree that is red-black but for its root's colour. -/
structure RemoveDone (t : Tree) (T : BinaryTree Nat) : Prop where
  links : Links t.heap Entry.left Entry.right T none
  root_eq : T.root = t.root
  redBlack : RedBlackBelow t.red T

variable {t : Tree} {d : Dir} {p w : Nat} {s N F : BinaryTree Nat} {fs : List (Frame Nat)}

theorem side_of_child {e : Entry} {c : Option Nat} (hc : e.child d = c)
    (hne : e.child d.other ≠ c) : (if c = e.left then Dir.left else Dir.right) = d := by
  cases d
  · exact if_pos hc.symm
  · exact if_neg fun h => hne h.symm

theorem rotate_parent
    (hL : Links t.heap Entry.left Entry.right (plug (⟨d, p, make d w N F⟩ :: fs) s) none)
    (hroot : (plug (⟨d, p, make d w N F⟩ :: fs) s).root = t.root)
    (hnd : (plug (⟨d, p, make d w N F⟩ :: fs) s).inorder.Nodup) :
    ∃ heap, rotate d.other t p = some ⟨heap, t.red, (plug (⟨d, p, N⟩ :: ⟨d, w, F⟩ :: fs) s).root⟩ ∧
      Links heap Entry.left Entry.right (plug (⟨d, p, N⟩ :: ⟨d, w, F⟩ :: fs) s) none ∧
      ∀ x, x ∉ (plug (⟨d, p, make d w N F⟩ :: fs) s).inorder → heap x = t.heap x := by
  have hT : plug (⟨d, p, make d w N F⟩ :: fs) s =
      plug fs (make d.other p (make d.other w F N) s) := by
    simp [Frame.attach, make_other]
  have hT' : plug (⟨d, p, N⟩ :: ⟨d, w, F⟩ :: fs) s =
      plug fs (make d.other.other w (make d.other p N s) F) := by
    simp [Frame.attach, make_other]
  rw [hT] at hL hroot hnd ⊢
  rw [hT']
  exact rotate_plug hL hroot hnd

theorem rotate_sibling {n : Nat} {N₁ N₂ : BinaryTree Nat}
    (hL : Links t.heap Entry.left Entry.right
      (plug (⟨d, p, make d w (make d n N₁ N₂) F⟩ :: fs) s) none)
    (hroot : (plug (⟨d, p, make d w (make d n N₁ N₂) F⟩ :: fs) s).root = t.root)
    (hnd : (plug (⟨d, p, make d w (make d n N₁ N₂) F⟩ :: fs) s).inorder.Nodup) :
    ∃ heap, rotate d t w =
        some ⟨heap, t.red, (plug (⟨d, p, make d n N₁ (make d w N₂ F)⟩ :: fs) s).root⟩ ∧
      Links heap Entry.left Entry.right (plug (⟨d, p, make d n N₁ (make d w N₂ F)⟩ :: fs) s) none ∧
      ∀ x, x ∉ (plug (⟨d, p, make d w (make d n N₁ N₂) F⟩ :: fs) s).inorder → heap x = t.heap x := by
  have hT : plug (⟨d, p, make d w (make d n N₁ N₂) F⟩ :: fs) s =
      plug (⟨d.other, p, s⟩ :: fs) (make d w (make d n N₁ N₂) F) := by
    simp [Frame.attach, make_other]
  have hT' : plug (⟨d, p, make d n N₁ (make d w N₂ F)⟩ :: fs) s =
      plug (⟨d.other, p, s⟩ :: fs) (make d.other n (make d w N₂ F) N₁) := by
    simp [Frame.attach, make_other]
  rw [hT] at hL hroot hnd ⊢
  rw [hT']
  exact rotate_plug hL hroot hnd

theorem RemoveInv.entries (h : RemoveInv t (⟨d, p, make d w N F⟩ :: fs) s) :
    ∃ pe we, t.heap p = some pe ∧ pe.parent = pathParent fs ∧ pe.child d = s.root ∧
      pe.child d.other = some w ∧ t.heap w = some we ∧ we.child d = N.root ∧
      we.child d.other = F.root := by
  obtain ⟨⟨⟨pe, hpe, hpp, hpd, hpo⟩, hLW, -⟩, -⟩ := links_plug.mp h.links
  obtain ⟨⟨we, hwe, -, hwd, hwo⟩, -, -⟩ := links_make.mp hLW
  exact ⟨pe, we, hpe, hpp, hpd, by rw [hpo, root_make], hwe, hwd, hwo⟩

theorem inorder_rotate_parent :
    (plug (⟨d, p, N⟩ :: ⟨d, w, F⟩ :: fs) s).inorder =
      (plug (⟨d, p, make d w N F⟩ :: fs) s).inorder :=
  inorder_plug_congr fs (inorder_make_make d w p s N F)

theorem siblingRed_spec (h : RemoveInv t (⟨d, p, make d w N F⟩ :: fs) s)
    (hs : redRoot t.red s = false) :
    t.red w = false ∧ siblingRed d t p (some w) = some (t, some w) ∨
      t.red w = true ∧ ∃ t', siblingRed d t p (some w) = some (t', N.root) ∧
        t'.red = Function.update (Function.update t.red w false) p true ∧
        RemoveInv t' (⟨d, p, N⟩ :: ⟨d, w, F⟩ :: fs) s ∧ redRoot t'.red s = false ∧
        ∀ x, x ∉ (plug (⟨d, p, make d w N F⟩ :: fs) s).inorder → t'.heap x = t.heap x := by
  cases hw : t.red w
  · exact .inl ⟨rfl, by simp [siblingRed, hw]⟩
  right
  obtain ⟨-, hout, -⟩ := nodup_frame h.erase.nodup
  obtain ⟨heap, hrot, hL', hfr⟩ :=
    rotate_parent (t := setRed (setRed t w false) p true) h.links h.root_eq h.erase.nodup
  obtain ⟨⟨⟨pe, hpe, -, -, hpo⟩, -, -⟩, -⟩ := links_plug.mp hL'
  refine ⟨rfl, ⟨heap, (setRed (setRed t w false) p true).red,
    (plug (⟨d, p, N⟩ :: ⟨d, w, F⟩ :: fs) s).root⟩, ?_, rfl,
    ⟨hL', rfl, h.erase.rotateRed hs hw⟩, ?_, hfr⟩
  · simp only [siblingRed, rbIsRed_some, hw, if_true, hrot, hpe, hpo, Option.bind_eq_bind,
      Option.bind_some, Option.pure_def]
  · rw [← hs]
    exact redRoot_congr fun y hy => by
      simp [setRed, (hout y (.inl hy)).1, (hout y (.inl hy)).2]

theorem siblingNear_spec (h : RemoveInv t (⟨d, p, make d w N F⟩ :: fs) s)
    (hs : redRoot t.red s = false) (hw : t.red w = false)
    (hred : redRoot t.red N = true ∨ redRoot t.red F = true) :
    ∃ t' w' N' F', siblingNear d t p w = some (t', w') ∧
      RemoveInv t' (⟨d, p, make d w' N' F'⟩ :: fs) s ∧ redRoot t'.red s = false ∧
      t'.red w' = false ∧ redRoot t'.red F' = true ∧
      (plug (⟨d, p, make d w' N' F'⟩ :: fs) s).inorder =
        (plug (⟨d, p, make d w N F⟩ :: fs) s).inorder ∧
      ∀ x, x ∉ (plug (⟨d, p, make d w N F⟩ :: fs) s).inorder → t'.heap x = t.heap x := by
  obtain ⟨-, we, -, -, -, -, hwe, hwd, hwo⟩ := h.entries
  by_cases hF : redRoot t.red F = true
  · refine ⟨t, w, N, F, ?_, h, hs, hw, hF, rfl, fun _ _ => rfl⟩
    simp [siblingNear, hwe, hwo, rbIsRed_root, hF]
  have hF' : redRoot t.red F = false := by simpa using hF
  have hN : redRoot t.red N = true := hred.resolve_right hF
  obtain ⟨n, hn⟩ : ∃ n, N.root = some n := by
    cases N with
    | nil => simp at hN
    | node n _ _ => exact ⟨n, rfl⟩
  obtain ⟨N₁, N₂, rfl⟩ := exists_make hn d
  have hnr : t.red n = true := by rwa [redRoot_of_root hn] at hN
  obtain ⟨-, hout, -⟩ := nodup_frame h.erase.nodup
  obtain ⟨hnp, hnw⟩ := hout n (.inr (.inl (root_mem_inorder hn)))
  obtain ⟨heap, hrot, hL', hfr⟩ :=
    rotate_sibling (t := setRed (setRed t n false) w true) h.links h.root_eq h.erase.nodup
  obtain ⟨⟨⟨pe, hpe, -, -, hpo⟩, -, -⟩, -⟩ := links_plug.mp hL'
  refine ⟨⟨heap, (setRed (setRed t n false) w true).red,
    (plug (⟨d, p, make d n N₁ (make d w N₂ F)⟩ :: fs) s).root⟩, n, N₁, make d w N₂ F, ?_,
    ⟨hL', rfl, h.erase.rotateNear hs hw hnr hF'⟩, ?_, by simp [setRed, hnw], by simp [setRed],
    inorder_plug_congr fs (by cases d <;> simp [Frame.attach]), hfr⟩
  · rw [root_make] at hwd
    simp only [siblingNear, hwe, hwo, rbIsRed_root, hF', hwd, Bool.not_false, if_true, hrot,
      hpe, hpo, root_make, Option.bind_eq_bind, Option.bind_some, Option.pure_def]
  · rw [← hs]
    refine redRoot_congr fun y hy => ?_
    have hyn : y ≠ n := fun e => (nodup_frame h.erase.nodup).2.2.1 n
      (root_mem_inorder hn) |>.1 (e ▸ hy)
    simp [setRed, (hout y (.inl hy)).2, hyn]

theorem siblingFar_spec (h : RemoveInv t (⟨d, p, make d w N F⟩ :: fs) s)
    (hs : redRoot t.red s = false) (hw : t.red w = false) (hF : redRoot t.red F = true) :
    ∃ t', siblingFar d t p w = some t' ∧ RemoveDone t' (plug fs (make d w (make d p s N) F)) ∧
      ∀ x, x ∉ (plug (⟨d, p, make d w N F⟩ :: fs) s).inorder → t'.heap x = t.heap x := by
  obtain ⟨-, we, -, -, -, -, hwe, -, hwo⟩ := h.entries
  obtain ⟨x, hx⟩ : ∃ x, F.root = some x := by
    cases F with
    | nil => simp at hF
    | node x _ _ => exact ⟨x, rfl⟩
  have hxr : t.red x = true := by rwa [redRoot_of_root hx] at hF
  obtain ⟨heap, hrot, hL', hfr⟩ :=
    rotate_parent (t := setRed (setRed (setRed t w (t.red p)) p false) x false) h.links
      h.root_eq h.erase.nodup
  refine ⟨⟨heap, (setRed (setRed (setRed t w (t.red p)) p false) x false).red,
    (plug (⟨d, p, N⟩ :: ⟨d, w, F⟩ :: fs) s).root⟩, ?_, ⟨hL', rfl, h.erase.rotateFar hs hw hx hxr⟩,
    hfr⟩
  simp only [siblingFar, heap_setRed, hwe, hwo, hx, blacken, hrot, Option.bind_eq_bind,
    Option.bind_some]

theorem blackRound_spec (h : RemoveInv t (⟨d, p, make d w N F⟩ :: fs) s)
    (hs : redRoot t.red s = false) (hw : t.red w = false) :
    (∃ t' T', blackRound d t p w = some (t', none) ∧ RemoveDone t' T' ∧
      T'.inorder = (plug (⟨d, p, make d w N F⟩ :: fs) s).inorder ∧
      ∀ x, x ∉ (plug (⟨d, p, make d w N F⟩ :: fs) s).inorder → t'.heap x = t.heap x) ∨
    blackRound d t p w = some (setRed t w true, some (some p, pathParent fs)) ∧
      RemoveInv (setRed t w true) fs (make d p s (make d w N F)) := by
  obtain ⟨pe, we, hpe, hpp, -, -, hwe, hwd, hwo⟩ := h.entries
  by_cases hred : redRoot t.red N = true ∨ redRoot t.red F = true
  · left
    obtain ⟨t1, w1, N1, F1, hnear, h1, hs1, hw1, hF1, hin1, hfr1⟩ := siblingNear_spec h hs hw hred
    obtain ⟨t2, hfar, hdone, hfr2⟩ := siblingFar_spec h1 hs1 hw1 hF1
    have htest : (rbIsRed t.red (we.child d) || rbIsRed t.red (we.child d.other)) = true := by
      rw [hwd, hwo, rbIsRed_root, rbIsRed_root]
      simpa using hred
    refine ⟨t2, _, ?_, hdone, (inorder_rotate_parent (s := s)).trans hin1,
      fun x hx => (hfr2 x (hin1 ▸ hx)).trans (hfr1 x hx)⟩
    simp only [blackRound, hwe, htest, if_true, hnear, hfar, Option.bind_eq_bind, Option.bind_some,
      Option.pure_def]
  · right
    simp only [not_or, Bool.not_eq_true] at hred
    have htest : (rbIsRed t.red (we.child d) || rbIsRed t.red (we.child d.other)) = false := by
      rw [hwd, hwo, rbIsRed_root, rbIsRed_root, hred.1, hred.2]
      rfl
    refine ⟨?_, ⟨h.links, h.root_eq, h.erase.climb hs hw hred.1 hred.2⟩⟩
    simp only [blackRound, hwe, htest, Bool.false_eq_true, if_false, heap_setRed, hpe, hpp,
      Option.bind_eq_bind, Option.bind_some, Option.pure_def]

/-- A round of the loop below the parent of a black focus: it ends the loop, or the loop goes on
one level up, or, after a red sibling's rotation, at the same depth from a red focus, where it
stops next. -/
theorem removeRound_spec {f : Frame Nat} (h : RemoveInv t (f :: fs) s)
    (hs : redRoot t.red s = false) :
    (∃ t' T', removeRound t s.root f.parent = some (t', none) ∧ RemoveDone t' T' ∧
      T'.inorder = (plug (f :: fs) s).inorder ∧
      ∀ x, x ∉ (plug (f :: fs) s).inorder → t'.heap x = t.heap x) ∨
    (∃ t' P' s', removeRound t s.root f.parent = some (t', some (s'.root, pathParent P')) ∧
      RemoveInv t' P' s' ∧
      2 * P'.length + (if redRoot t'.red s' then 0 else 1) < 2 * (fs.length + 1) + 1 ∧
      (plug P' s').inorder = (plug (f :: fs) s).inorder ∧
      ∀ x, x ∉ (plug (f :: fs) s).inorder → t'.heap x = t.heap x) := by
  obtain ⟨d, p, W⟩ := f
  obtain ⟨w, N, F, hW⟩ := h.erase.exists_sibling
  dsimp only at hW
  subst hW
  obtain ⟨pe, -, hpe, -, hpd, hpo, -, -, -⟩ := h.entries
  obtain ⟨hpw, hout, -⟩ := nodup_frame h.erase.nodup
  have hside : (if s.root = pe.left then Dir.left else Dir.right) = d := by
    refine side_of_child hpd ?_
    rw [hpo]
    exact fun hr => (hout w (.inl (root_mem_inorder hr.symm))).2 rfl
  rcases siblingRed_spec h hs with ⟨hw, hred⟩ | ⟨hw, t1, hred, hcol, h1, hs1, hfr1⟩
  · have hrun : removeRound t s.root p = blackRound d t p w := by
      simp only [removeRound, hpe, hside, hpo, hred, Option.bind_eq_bind, Option.bind_some]
    rcases blackRound_spec h hs hw with ⟨t', T', hb, hd, hin, hfr⟩ | ⟨hb, h'⟩
    · exact .inl ⟨t', T', hrun.trans hb, hd, hin, hfr⟩
    · refine .inr ⟨setRed t w true, fs, make d p s (make d w N F), ?_, h', ?_, rfl,
        fun _ _ => rfl⟩
      · rw [hrun, hb, root_make]
      · split <;> omega
  obtain ⟨w1, N1, F1, hN⟩ := h1.erase.exists_sibling
  dsimp only at hN
  subst hN
  have hp1 : t1.red p = true := by simp [hcol]
  have hw1 : t1.red w1 = false := by
    have := h1.erase.sibling_black hs1 hp1
    rwa [redRoot_make] at this
  have hrun : removeRound t s.root p = blackRound d t1 p w1 := by
    simp only [removeRound, hpe, hside, hpo, hred, root_make, Option.bind_eq_bind,
      Option.bind_some]
  have hin1 : (plug (⟨d, p, make d w1 N1 F1⟩ :: ⟨d, w, F⟩ :: fs) s).inorder =
      (plug (⟨d, p, make d w (make d w1 N1 F1) F⟩ :: fs) s).inorder := inorder_rotate_parent
  rcases blackRound_spec h1 hs1 hw1 with ⟨t', T', hb, hd, hin, hfr⟩ | ⟨hb, h'⟩
  · exact .inl ⟨t', T', hrun.trans hb, hd, hin.trans hin1,
      fun x hx => (hfr x (by rw [hin1]; exact hx)).trans (hfr1 x hx)⟩
  refine .inr ⟨setRed t1 w1 true, ⟨d, w, F⟩ :: fs, make d p s (make d w1 N1 F1), ?_, h', ?_,
    hin1, hfr1⟩
  · rw [hrun, hb, root_make]
  · have hpw1 : p ≠ w1 := (hout w1 (.inr (.inl (root_mem_inorder (root_make ..))))).1.symm
    have : redRoot (setRed t1 w1 true).red (make d p s (make d w1 N1 F1)) = true := by
      simp [setRed, hpw1, hp1]
    simp [this]

theorem removeFixup_spec : ∀ (fuel : Nat) {t : Tree} {P : List (Frame Nat)} {s : BinaryTree Nat},
    RemoveInv t P s → 2 * P.length + (if redRoot t.red s then 0 else 1) < fuel →
    ∃ t' T', removeFixup fuel t s.root (pathParent P) = some t' ∧ RemoveDone t' T' ∧
      T'.inorder = (plug P s).inorder ∧ ∀ x, x ∉ (plug P s).inorder → t'.heap x = t.heap x
  | 0, _, _, _, _, hf => absurd hf (Nat.not_lt_zero _)
  | fuel + 1, t, P, s, h, hf => by
    have hstop : P = [] ∨ redRoot t.red s = true →
        ∃ t' T', some (blacken t s.root) = some t' ∧ RemoveDone t' T' ∧
          T'.inorder = (plug P s).inorder ∧ ∀ x, x ∉ (plug P s).inorder → t'.heap x = t.heap x :=
      fun hP => ⟨blacken t s.root, plug P s, rfl, ⟨by rw [heap_blacken]; exact h.links,
        by rw [root_blacken]; exact h.root_eq, by rw [red_blacken]; exact h.erase.stop hP⟩, rfl,
        fun _ _ => by rw [heap_blacken]⟩
    cases P with
    | nil => exact hstop (.inl rfl)
    | cons f fs =>
      by_cases hs : redRoot t.red s = true
      · obtain ⟨t', T', hrun, hrest⟩ := hstop (.inr hs)
        refine ⟨t', T', ?_, hrest⟩
        rw [← hrun]
        simp [removeFixup, pathParent, rbIsRed_root, hs]
      have hs' : redRoot t.red s = false := by simpa using hs
      rcases removeRound_spec h hs' with ⟨t', T', hr, hd, hin, hfr⟩ |
        ⟨t', P', s', hr, h', hm, hin, hfr⟩
      · refine ⟨t', T', ?_, hd, hin, hfr⟩
        simp [removeFixup, pathParent, rbIsRed_root, hs', hr]
      · have hf' : 2 * P'.length + (if redRoot t'.red s' then 0 else 1) < fuel := by
          simp only [List.length_cons, hs', Bool.false_eq_true, if_false] at hf hm
          omega
        obtain ⟨t'', T', hrun, hd, hin', hfr'⟩ := removeFixup_spec fuel h' hf'
        refine ⟨t'', T', ?_, hd, hin'.trans hin, fun x hx => (hfr' x (hin ▸ hx)).trans (hfr x hx)⟩
        rw [show pathParent (f :: fs) = some f.parent from rfl]
        simp [removeFixup, rbIsRed_root, hs', hr, hrun]

end Fixup

/-! ## rb_remove -/

section Remove

variable {t : Tree} {P : List (Frame Nat)} {fuel : Nat}

theorem removeIter_of_child {heap : Heap} {entry : Nat} {ee : Entry} {d : Dir}
    (hd : ee.child d = none) : removeIter heap fuel entry ee = some entry := by
  unfold removeIter
  split
  · cases d <;> simp_all [Entry.child]
  · rfl

theorem removeIter_of_children {heap : Heap} {entry r l : Nat} {ee : Entry}
    (hr : ee.right = some r) (hl : ee.left = some l) :
    removeIter heap fuel entry ee = descend heap Entry.left fuel r := by
  simp [removeIter, hr, hl]

theorem pathParent_rename {Q : List (Frame Nat)} {d : Dir} {e i : Nat} {L : BinaryTree Nat}
    (hQ : pathParent Q ≠ some e) :
    (if pathParent (Q ++ ⟨d, e, L⟩ :: P) = some e then some i
      else pathParent (Q ++ ⟨d, e, L⟩ :: P)) = pathParent (Q ++ ⟨d, i, L⟩ :: P) := by
  cases Q with
  | nil => simp [pathParent]
  | cons g gs => simp_all [pathParent]

theorem RemoveDone.paint {T : BinaryTree Nat} (h : RemoveDone t T) :
    Links (blacken t t.root).heap Entry.left Entry.right T none ∧
      T.root = (blacken t t.root).root ∧ IsRedBlack (blacken t t.root).red T := by
  refine ⟨by rw [heap_blacken]; exact h.links, by rw [root_blacken]; exact h.root_eq, ?_⟩
  rw [← h.root_eq, red_blacken]
  exact h.redBlack.isRedBlack

theorem rbRemove_leaf {d : Dir} {x : Nat} {C : BinaryTree Nat}
    (hL : Links t.heap Entry.left Entry.right (plug P (make d x nil C)) none)
    (hroot : (plug P (make d x nil C)).root = t.root)
    (hrb : RedBlackBelow t.red (plug P (make d x nil C)))
    (hf : 2 * (plug P (make d x nil C)).numNodes ≤ fuel) :
    ∃ t₁ T₁, rbRemove t x fuel = some (blacken t₁ t₁.root) ∧ RemoveDone t₁ T₁ ∧
      T₁.inorder = (plug P C).inorder ∧
      ∀ y, y ∉ (plug P (make d x nil C)).inorder → t₁.heap y = t.heap y := by
  obtain ⟨-, hLs⟩ := links_plug.mp hL
  obtain ⟨⟨xe, hxe, -, hxd, -⟩, -, -⟩ := links_make.mp hLs
  obtain ⟨heap1, hun, hL1, hfr1⟩ := unlink_spec hL hroot hrb.nodup
  cases hx : t.red x with
  | false =>
    have hinv : RemoveInv ⟨heap1, t.red, (plug P C).root⟩ P C := ⟨hL1, rfl, hrb.splice hx⟩
    have hlen := length_le_numNodes_plug P (make d x nil C)
    rw [numNodes_make] at hlen
    obtain ⟨t₁, T₁, hrun, hd, hin, hfr⟩ := removeFixup_spec fuel hinv (by split <;> omega)
    have hsub : ∀ y ∈ (plug P C).inorder, y ∈ (plug P (make d x nil C)).inorder :=
      fun y hy => List.mem_of_mem_erase (inorder_plug_unlink hrb.nodup ▸ hy)
    refine ⟨t₁, T₁, ?_, hd, hin, fun y hy => (hfr y fun h => hy (hsub y h)).trans (hfr1 y hy)⟩
    simp [rbRemove, hxe, removeIter_of_child hxd, hun, hx, hrun]
  | true =>
    obtain ⟨rfl, hrb'⟩ := hrb.splice_red hx
    refine ⟨⟨heap1, t.red, (plug P nil).root⟩, plug P nil, ?_, ⟨hL1, rfl, hrb'⟩, rfl, hfr1⟩
    simp [rbRemove, hxe, removeIter_of_child hxd, hun, hx]

/-- rb_remove of an entry `e` with both children: the first entry `i` of its right subtree is
unlinked, its right subtree taking its place, and `i` takes the place and colour of `e`. -/
theorem rbRemove_successor {Q : List (Frame Nat)} {e i : Nat} {L R : BinaryTree Nat}
    (hQ : ∀ f ∈ Q, f.dir = .left) (hLn : L ≠ nil)
    (hL : Links t.heap Entry.left Entry.right (plug P (node e L (plug Q (node i nil R)))) none)
    (hroot : (plug P (node e L (plug Q (node i nil R)))).root = t.root)
    (hrb : RedBlackBelow t.red (plug P (node e L (plug Q (node i nil R)))))
    (hf : 2 * (plug P (node e L (plug Q (node i nil R)))).numNodes ≤ fuel) :
    ∃ t₁ T₁, rbRemove t e fuel = some (blacken t₁ t₁.root) ∧ RemoveDone t₁ T₁ ∧
      T₁.inorder = (plug P (node i L (plug Q R))).inorder ∧
      ∀ y, y ∉ (plug P (node e L (plug Q (node i nil R)))).inorder → t₁.heap y = t.heap y := by
  have hT : ∀ (x : Nat) (X : BinaryTree Nat),
      plug (Q ++ ⟨.right, x, L⟩ :: P) X = plug P (node x L (plug Q X)) := fun x X => by
    rw [plug_append]
    rfl
  obtain ⟨-, ⟨ee, hee, -, hel, her⟩, -, hLR⟩ := links_plug.mp hL
  obtain ⟨hnde, -, -⟩ := nodup_plug.mp hrb.nodup
  obtain ⟨-, heX⟩ := Walk.not_mem_of_nodup_split (by simpa using hnde)
  have hie : e ≠ i := by
    rintro rfl
    exact heX (mem_plug.mpr (.inl (by simp)))
  have hQe : pathParent Q ≠ some e := fun h => heX (mem_plug.mpr (.inr (pathParent_mem h)))
  have hiter : removeIter t.heap fuel e ee = some i := by
    obtain ⟨l, hl⟩ : ∃ l, L.root = some l := by
      cases L with
      | nil => exact absurd rfl hLn
      | node l _ _ => exact ⟨l, rfl⟩
    obtain ⟨r, hr⟩ : ∃ r, (plug Q (node i nil R)).root = some r := root_plug_of_root rfl
    have hlen := length_le_numNodes_plug P (node e L (plug Q (node i nil R)))
    rw [numNodes_node] at hlen
    rw [removeIter_of_children (her.trans hr) (hel.trans hl), descend_eq hLR hr (by omega)]
    simp [inorder_plug, pathLeft_of_left hQ]
  have hL' : Links t.heap Entry.left Entry.right
      (plug (Q ++ ⟨.right, e, L⟩ :: P) (make .left i nil R)) none := by
    rw [hT]
    exact hL
  have hrb' : RedBlackBelow t.red (plug (Q ++ ⟨.right, e, L⟩ :: P) (make .left i nil R)) := by
    rw [hT]
    exact hrb
  obtain ⟨heap1, hun, hL1, hfr1⟩ := unlink_spec hL' (by rw [hT]; exact hroot) hrb'.nodup
  rw [hT] at hun hL1
  have hin1 : (plug P (node e L (plug Q R))).inorder =
      (plug P (node e L (plug Q (node i nil R)))).inorder.erase i := by
    have := inorder_plug_unlink hrb'.nodup
    rwa [hT, hT] at this
  have hi1 : i ∉ (plug P (node e L (plug Q R))).inorder := hin1 ▸ hrb.nodup.not_mem_erase
  have hsub1 : ∀ y ∈ (plug P (node e L (plug Q R))).inorder,
      y ∈ (plug P (node e L (plug Q (node i nil R)))).inorder :=
    fun y hy => List.mem_of_mem_erase (hin1 ▸ hy)
  have hsub2 : ∀ y ∈ (plug P (node i L (plug Q R))).inorder,
      y ∈ (plug P (node e L (plug Q (node i nil R)))).inorder :=
    fun y hy => List.mem_of_mem_erase (inorder_plug_successor hQ hrb.nodup ▸ hy)
  have hiT : i ∈ (plug P (node e L (plug Q (node i nil R)))).inorder :=
    mem_plug.mpr (.inl (by simp [inorder_plug]))
  obtain ⟨heap2, htp, hL2, hfr2⟩ :=
    takePlace_spec (t := ⟨heap1, t.red, (plug P (node e L (plug Q R))).root⟩) hL1 rfl
      (hin1 ▸ hrb.nodup.erase i) hi1
  have hfr12 : ∀ y, y ∉ (plug P (node e L (plug Q (node i nil R)))).inorder →
      heap2 y = t.heap y := fun y hy =>
    (hfr2 y (fun h => hy (h ▸ hiT)) fun h => hy (hsub1 y h)).trans (hfr1 y (by rwa [hT]))
  cases hx : t.red i with
  | false =>
    have hinv : RemoveInv ⟨heap2, Function.update t.red i (t.red e),
        (plug P (node i L (plug Q R))).root⟩ (Q ++ ⟨.right, i, L⟩ :: P) R :=
      ⟨by rw [hT]; exact hL2, by rw [hT],
        (hrb'.splice hx).rename (by rw [hT]; exact hi1)⟩
    have hlen := length_le_numNodes_plug (Q ++ ⟨.right, e, L⟩ :: P) (node i nil R)
    rw [hT, numNodes_node] at hlen
    simp only [List.length_append, List.length_cons] at hlen
    obtain ⟨t₁, T₁, hrun, hd, hin, hfr⟩ := removeFixup_spec fuel hinv (by
      simp only [List.length_append, List.length_cons]
      split <;> omega)
    rw [hT] at hin hfr
    refine ⟨t₁, T₁, ?_, hd, hin, fun y hy => (hfr y fun h => hy (hsub2 y h)).trans (hfr12 y hy)⟩
    simp [rbRemove, hee, hiter, hun, hx, hie, htp, pathParent_rename hQe, hrun]
  | true =>
    obtain ⟨rfl, hrb1⟩ := hrb'.splice_red hx
    rw [hT] at hrb1
    have hrb2 : RedBlackBelow (Function.update t.red i (t.red e))
        (plug P (make .right i (plug Q nil) L)) :=
      RedBlackBelow.rename (P := P) (d := .right) (X := plug Q nil) hrb1 hi1
    refine ⟨⟨heap2, Function.update t.red i (t.red e), (plug P (node i L (plug Q nil))).root⟩,
      plug P (node i L (plug Q nil)), ?_, ⟨hL2, rfl, hrb2⟩, rfl, hfr12⟩
    simp [rbRemove, hee, hiter, hun, hx, hie, htp]

theorem rbRemove_run {T : BinaryTree Nat} {entry : Nat}
    (hL : Links t.heap Entry.left Entry.right T none) (hroot : T.root = t.root)
    (hrb : IsRedBlack t.red T) (hnd : T.inorder.Nodup) (he : entry ∈ T.inorder)
    (hf : 2 * T.numNodes ≤ fuel) :
    ∃ t' T', rbRemove t entry fuel = some t' ∧ Links t'.heap Entry.left Entry.right T' none ∧
      T'.root = t'.root ∧ IsRedBlack t'.red T' ∧ T'.inorder = T.inorder.erase entry ∧
      ∀ x, x ∉ T.inorder → t'.heap x = t.heap x := by
  have hrb' : RedBlackBelow t.red T := ⟨hrb.balanced, hrb.noRedRed, hnd⟩
  -- every case ends with the root painted black
  have hend : ∀ t₁ T₁, rbRemove t entry fuel = some (blacken t₁ t₁.root) → RemoveDone t₁ T₁ →
      T₁.inorder = T.inorder.erase entry → (∀ y, y ∉ T.inorder → t₁.heap y = t.heap y) →
      ∃ t' T', rbRemove t entry fuel = some t' ∧
        Links t'.heap Entry.left Entry.right T' none ∧ T'.root = t'.root ∧
        IsRedBlack t'.red T' ∧ T'.inorder = T.inorder.erase entry ∧
        ∀ x, x ∉ T.inorder → t'.heap x = t.heap x := fun t₁ T₁ hrun hd hin hfr => by
    obtain ⟨hL', hroot', hrb''⟩ := hd.paint
    exact ⟨_, T₁, hrun, hL', hroot', hrb'', hin, fun y hy => by rw [heap_blacken]; exact hfr y hy⟩
  obtain ⟨P, L, R, rfl⟩ := exists_plug_of_mem he
  by_cases hLn : L = nil
  · subst hLn
    obtain ⟨t₁, T₁, hrun, hd, hin, hfr⟩ :=
      rbRemove_leaf (P := P) (d := .left) (x := entry) (C := R) hL hroot hrb' hf
    exact hend t₁ T₁ hrun hd
      (hin.trans (inorder_plug_unlink (P := P) (d := .left) (x := entry) (C := R) hnd)) hfr
  by_cases hRn : R = nil
  · subst hRn
    obtain ⟨t₁, T₁, hrun, hd, hin, hfr⟩ :=
      rbRemove_leaf (P := P) (d := .right) (x := entry) (C := L) hL hroot hrb' hf
    exact hend t₁ T₁ hrun hd
      (hin.trans (inorder_plug_unlink (P := P) (d := .right) (x := entry) (C := L) hnd)) hfr
  obtain ⟨Q, i, R', rfl, hQ⟩ := exists_leftmost hRn
  obtain ⟨t₁, T₁, hrun, hd, hin, hfr⟩ := rbRemove_successor hQ hLn hL hroot hrb' hf
  exact hend t₁ T₁ hrun hd (hin.trans (inorder_plug_successor hQ hnd)) hfr

theorem WellFormed.of_erase {lt : Nat → Nat → Prop} [IsTrans Nat lt] {heap heap' : Heap}
    {root root' : Option Nat} {T T' : BinaryTree Nat} {e : Nat} (hwf : WellFormed heap lt root T)
    (hL : Links heap' Entry.left Entry.right T' none) (hroot : T'.root = root')
    (hin : T'.inorder = T.inorder.erase e) : WellFormed heap' lt root' T' :=
  ⟨hL, hroot, hin ▸ hwf.nodup.erase e,
    searchTree_of_pairwise (hin ▸ hwf.ordered.inorder_pairwise.sublist (List.erase_sublist ..))⟩

/-- rb_remove of an entry of a well-formed red-black tree, with fuel for two rounds a level: a
well-formed red-black tree again, whose in-order list is the old one without the entry; no
entry outside the old tree is written. -/
theorem rbRemove_redBlack {lt : Nat → Nat → Prop} [IsTrans Nat lt] {T : BinaryTree Nat}
    {entry : Nat} (hwf : WellFormed t.heap lt t.root T) (hrb : IsRedBlack t.red T)
    (he : entry ∈ T.inorder) (hf : 2 * T.numNodes ≤ fuel) :
    ∃ t' T', rbRemove t entry fuel = some t' ∧ WellFormed t'.heap lt t'.root T' ∧
      IsRedBlack t'.red T' ∧ T'.inorder = T.inorder.erase entry ∧
      ∀ x, x ∉ T.inorder → t'.heap x = t.heap x := by
  obtain ⟨t', T', hrun, hL, hroot, hrb', hin, hfr⟩ :=
    rbRemove_run hwf.links hwf.root_eq hrb hwf.nodup he hf
  exact ⟨t', T', hrun, hwf.of_erase hL hroot hin, hrb', hin, hfr⟩

/-- The root of the three entries removed: its successor 2, red, takes its place. -/
theorem rbRemove_redBlack_three : IsTrans Nat (· < ·) ∧
    WellFormed threeHeap (· < ·) (some 1) threeTree ∧ IsRedBlack threeRed threeTree ∧
    1 ∈ threeTree.inorder ∧ 2 * threeTree.numNodes ≤ 6 ∧
    ∃ t' T', rbRemove ⟨threeHeap, threeRed, some 1⟩ 1 6 = some t' ∧
      WellFormed t'.heap (· < ·) t'.root T' ∧ IsRedBlack t'.red T' ∧
      T'.inorder = threeTree.inorder.erase 1 ∧ ∀ x, x ∉ threeTree.inorder → t'.heap x = threeHeap x :=
  ⟨inferInstance, threeTree_wellFormed, threeTree_redBlack, by decide, by decide,
    rbRemove_redBlack threeTree_wellFormed threeTree_redBlack (by decide) (by decide)⟩

section Key

variable {K : Type} [LinearOrder K] {keyOf : Nat → K} {key : K} {compare : Nat → Int}

theorem erase_eq_filter_key {l : List Nat} (hl : l.Pairwise (KeyLt keyOf)) {e : Nat}
    (he : e ∈ l) : l.erase e = l.filter (fun x => keyOf x ≠ keyOf e) := by
  have hlt : (l.map keyOf).Pairwise (· < ·) := List.pairwise_map.mpr hl
  have hnd : (l.map keyOf).Nodup := hlt.nodup
  rw [(hnd.of_map keyOf).erase_eq_filter e]
  refine List.filter_congr fun x hx => ?_
  have hxe : x = e ↔ keyOf x = keyOf e :=
    ⟨congrArg keyOf, fun h => List.inj_on_of_nodup_map hnd hx he h⟩
  rw [Bool.eq_iff_iff]
  simp [hxe]

/-- rb_remove_key on a well-formed red-black tree, with fuel for two rounds a level: a
well-formed red-black tree again, whose in-order list is the old one without the entries of the
key; no entry outside the old tree is written. -/
theorem rbRemoveKey_filter (hcmp : Compares keyOf key compare) {T : BinaryTree Nat}
    (hwf : WellFormed t.heap (KeyLt keyOf) t.root T) (hrb : IsRedBlack t.red T)
    (hf : 2 * T.numNodes < fuel) :
    ∃ t' T', rbRemoveKey t compare fuel = some t' ∧
      WellFormed t'.heap (KeyLt keyOf) t'.root T' ∧ IsRedBlack t'.red T' ∧
      T'.inorder = T.inorder.filter (fun x => keyOf x ≠ key) ∧
      ∀ x, x ∉ T.inorder → t'.heap x = t.heap x := by
  have : IsTrans Nat (KeyLt keyOf) := ⟨fun _ _ _ => lt_trans⟩
  have hget :
      rbGet t.heap compare fuel t.root = some (T.inorder.find? (fun x => keyOf x = key)) := by
    rw [← hwf.root_eq]
    exact rbGet_links hcmp hwf.links hwf.ordered (by omega)
  cases hfind : T.inorder.find? (fun x => keyOf x = key) with
  | none =>
    have hno : ∀ x ∈ T.inorder, keyOf x ≠ key := by simpa using List.find?_eq_none.mp hfind
    refine ⟨t, T, by simp [rbRemoveKey, hget, hfind], hwf, hrb, ?_, fun _ _ => rfl⟩
    exact (List.filter_eq_self.mpr fun x hx => by simpa using hno x hx).symm
  | some e =>
    have he : e ∈ T.inorder := List.mem_of_find?_eq_some hfind
    have hek : keyOf e = key := by simpa using List.find?_some hfind
    have hf' : 2 * T.numNodes ≤ fuel := by omega
    obtain ⟨t', T', hrun, hL, hroot, hrb', hin, hfr⟩ :=
      rbRemove_run hwf.links hwf.root_eq hrb hwf.nodup he hf'
    refine ⟨t', T', by simp [rbRemoveKey, hget, hfind, hrun], hwf.of_erase hL hroot hin, hrb', ?_,
      hfr⟩
    rw [hin, erase_eq_filter_key hwf.ordered.inorder_pairwise he, hek]

/-- The key 0 removed from the three entries: its entry is a red leaf. -/
theorem rbRemoveKey_filter_three : Compares id 0 (keyCompare 0) ∧
    WellFormed threeHeap (KeyLt id) (some 1) threeTree ∧ IsRedBlack threeRed threeTree ∧
    2 * threeTree.numNodes < 7 ∧
    ∃ t' T', rbRemoveKey ⟨threeHeap, threeRed, some 1⟩ (keyCompare 0) 7 = some t' ∧
      WellFormed t'.heap (KeyLt id) t'.root T' ∧ IsRedBlack t'.red T' ∧
      T'.inorder = threeTree.inorder.filter (fun x => id x ≠ 0) ∧
      ∀ x, x ∉ threeTree.inorder → t'.heap x = threeHeap x :=
  ⟨compares_keyCompare 0, threeTree_keyLt, threeTree_redBlack, by decide,
    rbRemoveKey_filter (compares_keyCompare 0) threeTree_keyLt threeTree_redBlack (by decide)⟩

end Key

end Remove

/-! ## rb_replace -/

section Replace

variable {t : Tree} {P : List (Frame Nat)}

/-- rb_replace of the root `e` of a subtree by an allocated entry `i` outside the tree: `i` is
linked in `e`'s place and takes its colour; only `i`, the parent and the children are
written. -/
theorem rbReplace_spec {e i : Nat} {L X : BinaryTree Nat}
    (hL : Links t.heap Entry.left Entry.right (plug P (node e L X)) none)
    (hroot : (plug P (node e L X)).root = t.root)
    (hnd : (plug P (node e L X)).inorder.Nodup) (hi : i ∉ (plug P (node e L X)).inorder)
    (halloc : (t.heap i).isSome) :
    ∃ heap, rbReplace t e i =
        some ⟨heap, Function.update t.red i (t.red e), (plug P (node i L X)).root⟩ ∧
      Links heap Entry.left Entry.right (plug P (node i L X)) none ∧
      ∀ y, y ≠ i → y ∉ (plug P (node e L X)).inorder → heap y = t.heap y := by
  obtain ⟨ie, hie⟩ := Option.isSome_iff_exists.mp halloc
  obtain ⟨hP, ⟨ee, hee, hep, hel, her⟩, hLL, hLX⟩ := links_plug.mp hL
  obtain ⟨hnds, hndP, hdisj⟩ := nodup_plug.mp hnd
  have hmem : ∀ y, y ∈ L.inorder ∨ y ∈ X.inorder → y ∈ (node e L X).inorder := by
    rintro y (hy | hy) <;> simp [hy]
  rw [inorder_node, List.nodup_append, List.nodup_cons] at hnds
  obtain ⟨hLnd, ⟨-, hXnd⟩, hLX'⟩ := hnds
  have hne : ∀ y, y ∈ (node e L X).inorder ∨ y ∈ pathNodes P → y ≠ i := by
    rintro y (hy | hy) rfl
    · exact hi (mem_plug.mpr (.inl hy))
    · exact hi (mem_plug.mpr (.inr hy))
  have hpi : pathParent P ≠ some i := fun h => hi (mem_plug.mpr (.inr (pathParent_mem h)))
  have hiL : L.root ≠ some i := fun hr => hne i (.inl (hmem i (.inl (root_mem_inorder hr)))) rfl
  have hiX : X.root ≠ some i := fun hr => hne i (.inl (hmem i (.inr (root_mem_inorder hr)))) rfl
  have hXL : ∀ y ∈ X.inorder, L.root ≠ some y := fun y hy hr =>
    hLX' y (root_mem_inorder hr) y (List.mem_cons_of_mem _ hy) rfl
  obtain ⟨heap2, hrc, hP2, hag2⟩ :=
    replaceChild_plug (t := ⟨Function.update t.heap i (some { ie with parent := ee.parent }),
      t.red, t.root⟩) (s := node e L X) (node i L X)
      (hP.congr fun y hy => Function.update_of_ne (hne y (.inr hy)) _ _) hroot hndP
      (hdisj e (by simp))
  dsimp only at hrc hag2
  have hie2 : heap2 i = some { ie with parent := ee.parent } :=
    (hag2 i hpi).trans (Function.update_self ..)
  have hag2' : ∀ y ∈ (node e L X).inorder, heap2 y = t.heap y := fun y hy =>
    (hag2 y fun h => hdisj y hy (pathParent_mem h)).trans
      (Function.update_of_ne (hne y (.inl hy)) _ _)
  obtain ⟨heap4, hsp4, hLL4, hag4⟩ := setParent_links
    (Function.update heap2 i (some { ie with parent := ee.parent, left := ee.left })) (some i)
    hLL hLnd fun y hy =>
      (Function.update_of_ne (hne y (.inl (hmem y (.inl hy)))) _ _).trans
        (hag2' y (hmem y (.inl hy)))
  have hie4 : heap4 i = some { ie with parent := ee.parent, left := ee.left } :=
    (hag4 i hiL).trans (Function.update_self ..)
  obtain ⟨heap6, hsp6, hLX6, hag6⟩ := setParent_links
    (Function.update heap4 i (some ee)) (some i) hLX hXnd fun y hy => by
      rw [Function.update_of_ne (hne y (.inl (hmem y (.inr hy)))), hag4 y (hXL y hy),
        Function.update_of_ne (hne y (.inl (hmem y (.inr hy))))]
      exact hag2' y (hmem y (.inr hy))
  have hie6 : heap6 i = some ee := (hag6 i hiX).trans (Function.update_self ..)
  refine ⟨heap6, ?_, links_plug.mpr ⟨hP2.congr fun y hy => ?_,
    ⟨ee, hie6, hep, hel, her⟩, hLL4.congr_inorder fun y hy => ?_, hLX6⟩, ?_⟩
  · rw [root_node, ← hep] at hrc
    rw [← hel] at hsp4
    rw [← her] at hsp6
    simp only [rbReplace, hee, modify_eq hie, hrc, modify_eq hie2, hsp4, modify_eq hie4, hsp6,
      Option.bind_eq_bind, Option.bind_some, Option.pure_def]
  · have hyL : L.root ≠ some y := fun hr => hdisj y (hmem y (.inl (root_mem_inorder hr))) hy
    have hyX : X.root ≠ some y := fun hr => hdisj y (hmem y (.inr (root_mem_inorder hr))) hy
    rw [hag6 y hyX, Function.update_of_ne (hne y (.inr hy)), hag4 y hyL,
      Function.update_of_ne (hne y (.inr hy))]
  · rw [hag6 y fun hr => hLX' y hy y (List.mem_cons_of_mem _ (root_mem_inorder hr)) rfl,
      Function.update_of_ne (hne y (.inl (hmem y (.inl hy))))]
  · intro y hyi hy
    have hy' : ∀ z ∈ (node e L X).inorder, z ≠ y := fun z hz h => hy (mem_plug.mpr (.inl (h ▸ hz)))
    rw [hag6 y fun hr => hy' y (hmem y (.inr (root_mem_inorder hr))) rfl,
      Function.update_of_ne hyi, hag4 y fun hr => hy' y (hmem y (.inl (root_mem_inorder hr))) rfl,
      Function.update_of_ne hyi, hag2 y fun h => hy (mem_plug.mpr (.inr (pathParent_mem h))),
      Function.update_of_ne hyi]

theorem WellFormed.rename {K : Type} [LinearOrder K] {keyOf : Nat → K} {heap heap' : Heap}
    {root root' : Option Nat} {e i : Nat} {L X : BinaryTree Nat}
    (hwf : WellFormed heap (KeyLt keyOf) root (plug P (node e L X)))
    (hL : Links heap' Entry.left Entry.right (plug P (node i L X)) none)
    (hroot : (plug P (node i L X)).root = root') (hi : i ∉ (plug P (node e L X)).inorder)
    (hkey : keyOf i = keyOf e) : WellFormed heap' (KeyLt keyOf) root' (plug P (node i L X)) := by
  have : IsTrans Nat (KeyLt keyOf) := ⟨fun _ _ _ => lt_trans⟩
  have hord : (plug P (node i L X)).inorder.Pairwise (KeyLt keyOf) := by
    rw [inorder_plug_rename hwf.nodup, List.pairwise_map]
    refine hwf.ordered.inorder_pairwise.imp fun {a b} hab => ?_
    have hk : ∀ x, keyOf (if x = e then i else x) = keyOf x := fun x => by
      split_ifs with h
      · rw [hkey, h]
      · rfl
    simpa only [KeyLt, hk] using hab
  exact ⟨hL, hroot, nodup_rename (d := .left) hwf.nodup hi, searchTree_of_pairwise hord⟩

/-- rb_replace of an entry of a well-formed red-black tree by an allocated entry outside it with
the same key: a well-formed red-black tree again, with `src` in `dst`'s place in the in-order
list; no entry outside the old tree but `src` is written. -/
theorem rbReplace_redBlack {K : Type} [LinearOrder K] {keyOf : Nat → K} {T : BinaryTree Nat}
    {dst src : Nat} (hwf : WellFormed t.heap (KeyLt keyOf) t.root T) (hrb : IsRedBlack t.red T)
    (hdst : dst ∈ T.inorder) (hsrc : src ∉ T.inorder) (halloc : (t.heap src).isSome)
    (hkey : keyOf src = keyOf dst) :
    ∃ t' T', rbReplace t dst src = some t' ∧ WellFormed t'.heap (KeyLt keyOf) t'.root T' ∧
      IsRedBlack t'.red T' ∧ T'.inorder = T.inorder.map (fun x => if x = dst then src else x) ∧
      ∀ x, x ≠ src → x ∉ T.inorder → t'.heap x = t.heap x := by
  obtain ⟨P, L, X, rfl⟩ := exists_plug_of_mem hdst
  obtain ⟨heap, hrun, hL, hfr⟩ := rbReplace_spec hwf.links hwf.root_eq hwf.nodup hsrc halloc
  exact ⟨_, plug P (node src L X), hrun, hwf.rename hL rfl hsrc hkey,
    hrb.rename hwf.nodup hsrc, inorder_plug_rename hwf.nodup, hfr⟩

def spareHeap : Heap := Function.update threeHeap 3 (some ⟨none, none, none⟩)

def spareKey (x : Nat) : Nat := if x = 3 then 1 else x

theorem threeTree_spare : WellFormed spareHeap (KeyLt spareKey) (some 1) threeTree where
  links := threeTree_wellFormed.links.congr fun x hx =>
    Function.update_of_ne (by rintro rfl; simp [threeTree] at hx) _ _
  root_eq := rfl
  nodup := by decide
  ordered := by simp [threeTree, SearchTree, KeyLt, spareKey]

/-- The spare entry replaces the root of the three entries. -/
theorem rbReplace_redBlack_three :
    WellFormed spareHeap (KeyLt spareKey) (some 1) threeTree ∧ IsRedBlack threeRed threeTree ∧
    1 ∈ threeTree.inorder ∧ 3 ∉ threeTree.inorder ∧ (spareHeap 3).isSome ∧
    spareKey 3 = spareKey 1 ∧
    ∃ t' T', rbReplace ⟨spareHeap, threeRed, some 1⟩ 1 3 = some t' ∧
      WellFormed t'.heap (KeyLt spareKey) t'.root T' ∧ IsRedBlack t'.red T' ∧
      T'.inorder = threeTree.inorder.map (fun x => if x = 1 then 3 else x) ∧
      ∀ x, x ≠ 3 → x ∉ threeTree.inorder → t'.heap x = spareHeap x :=
  ⟨threeTree_spare, threeTree_redBlack, by decide, by decide, rfl, rfl,
    rbReplace_redBlack threeTree_spare threeTree_redBlack (by decide) (by decide) rfl rfl⟩

end Replace

end Wine.RbTree
