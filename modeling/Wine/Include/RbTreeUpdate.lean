import Wine.Include.RbTree
import Wine.Lib.RedBlack

/-!
# Looking up and inserting in the red-black trees of include/wine/rbtree.h

`rb_get` and `rb_put` call the tree's compare function with the caller's key and an entry; it
returns a negative number, zero or a positive number as the key goes before, at or after the
entry. `rb_put` links the caller's entry where the descent ends, coloured red, and its fixup loop
restores the colours with `rb_flip_color` and the two rotations.

A tree is the heap of entries, the RB_FLAG_RED bit of each and the root pointer. A write through
a NULL or unallocated pointer is a fault (`none`), as a read is; loops run on fuel.
-/

namespace Wine.RbTree

set_option autoImplicit false

open BinaryTree

def Entry.child : Dir → Entry → Option Nat
  | .left, e => e.left
  | .right, e => e.right

def Entry.setChild : Dir → Option Nat → Entry → Entry
  | .left, c, e => { e with left := c }
  | .right, c, e => { e with right := c }

/-- struct rb_tree with its entries and their RB_FLAG_RED bits. -/
structure Tree where
  heap : Heap
  red : Nat → Bool
  root : Option Nat

/-- rb_is_red: NULL counts as black. -/
def rbIsRed (red : Nat → Bool) : Option Nat → Bool
  | none => false
  | some i => red i

@[simp] theorem rbIsRed_some (red : Nat → Bool) (i : Nat) : rbIsRed red (some i) = red i := rfl

def modify (heap : Heap) (i : Nat) (f : Entry → Entry) : Option Heap := do
  let e ← heap i
  pure (Function.update heap i (some (f e)))

/-- The link write of both rotations and of rb_remove: `up` takes the place of `e` under
`parent`, as the tree's root when there is none, else as the parent's left child when `e` is
that, or as its right. -/
def replaceChild (t : Tree) (e : Nat) (parent : Option Nat) (up : Option Nat) : Option Tree :=
  match parent with
  | none => pure { t with root := up }
  | some p => do
    let pe ← t.heap p
    let heap ← modify t.heap p
      (Entry.setChild (if pe.left = some e then .left else .right) up)
    pure { t with heap }

/-- `if (child) child->parent = parent;` -/
def setParent (heap : Heap) (child parent : Option Nat) : Option Heap :=
  match child with
  | none => pure heap
  | some b => modify heap b fun x => { x with parent }

/-- rb_rotate_left (`d = right`) and rb_rotate_right (`d = left`): the child of `e` on side `d`
comes up in its place. -/
def rotate (d : Dir) (t : Tree) (e : Nat) : Option Tree := do
  let ee ← t.heap e
  let up ← ee.child d
  let t ← replaceChild t e ee.parent (some up)
  let ue ← t.heap up
  let heap ← modify t.heap e (Entry.setChild d (ue.child d.other))
  let heap ← setParent heap (ue.child d.other) (some e)
  let heap ← modify heap up fun x => { Entry.setChild d.other (some e) x with parent := ee.parent }
  let heap ← modify heap e fun x => { x with parent := some up }
  pure { t with heap }

def toggle (red : Nat → Bool) (i : Nat) : Nat → Bool := Function.update red i (!red i)

/-- rb_flip_color: RB_FLAG_RED toggled in the entry and both its children. -/
def flipColor (t : Tree) (g : Nat) : Option Tree := do
  let ge ← t.heap g
  let l ← ge.left
  let r ← ge.right
  pure { t with red := toggle (toggle (toggle t.red g) l) r }

def setRed (t : Tree) (i : Nat) (b : Bool) : Tree := { t with red := Function.update t.red i b }

/-- The last three statements of a round of rb_put's fixup that rotates: the parent of `entry`
turns black, its grandparent red, and the grandparent is rotated so that the parent comes up. -/
def recolorRotate (d : Dir) (t : Tree) (entry : Nat) : Option Tree := do
  let ee ← t.heap entry
  let p ← ee.parent
  let t := setRed t p false
  let pe ← t.heap p
  let g ← pe.parent
  let t := setRed t g true
  rotate d t g

/-- The fixup loop of rb_put, one round a call. `d` is the side of the parent under the
grandparent: the code's two mirrored branches are its two values. -/
def putFixup : Nat → Tree → Nat → Option Tree
  | 0, _, _ => none
  | fuel + 1, t, entry => do
    let ee ← t.heap entry
    if rbIsRed t.red ee.parent then
      let p ← ee.parent
      let pe ← t.heap p
      let g ← pe.parent
      let ge ← t.heap g
      let d := if ge.left = some p then Dir.left else Dir.right
      if rbIsRed t.red (ge.child d.other) then
        let t ← flipColor t g
        putFixup fuel t g
      else
        -- an entry on the inner side is first rotated to the outer side
        let (t, entry) ← if pe.child d.other = some entry then do
            let t ← rotate d.other t p
            pure (t, p)
          else pure (t, entry)
        let t ← recolorRotate d t entry
        putFixup fuel t entry
    else pure t

/-- Where the descent of rb_put ends: at an entry that compares equal, or at a NULL link, the
root or the child on side `d` of the last entry visited. -/
inductive Slot
  | found
  | root
  | child (parent : Nat) (d : Dir)

/-- The descent loop of rb_put from entry `i`. -/
def putDescend (heap : Heap) (compare : Nat → Int) : Nat → Nat → Option Slot
  | 0, _ => none
  | fuel + 1, i => do
    let e ← heap i
    if compare i = 0 then pure .found
    else
      let d := if compare i < 0 then Dir.left else Dir.right
      match e.child d with
      | none => pure (.child i d)
      | some j => putDescend heap compare fuel j

/-- The link at the end of a path to an empty subtree: the root for the empty path, else the side
of the last entry it passes. -/
def slotOf : List (Frame Nat) → Slot
  | [] => .root
  | f :: _ => .child f.parent f.dir

def putSlot (t : Tree) (compare : Nat → Int) (fuel : Nat) : Option Slot :=
  match t.root with
  | none => pure .root
  | some r => putDescend t.heap compare fuel r

/-- The new entry, red with no children, stored at the link the descent ended on. -/
def putLink (t : Tree) (entry : Nat) : Slot → Option Tree
  | .found => pure t
  | .root => pure ⟨Function.update t.heap entry (some ⟨none, none, none⟩),
      Function.update t.red entry true, some entry⟩
  | .child p d => do
    let heap ← modify (Function.update t.heap entry (some ⟨some p, none, none⟩)) p
      (Entry.setChild d (some entry))
    pure ⟨heap, Function.update t.red entry true, t.root⟩

/-- rb_put: -1 and the tree unchanged when an entry compares equal to the key; else 0, with the
entry linked in, the colours fixed and the root black. -/
def rbPut (t : Tree) (compare : Nat → Int) (entry : Nat) (fuel : Nat) : Option (Int × Tree) := do
  let slot ← putSlot t compare fuel
  match slot with
  | .found => pure (-1, t)
  | _ =>
    let t ← putLink t entry slot
    let t ← putFixup fuel t entry
    let r ← t.root
    pure (0, setRed t r false)

/-- rb_get: the entry that compares equal to the key, or NULL. -/
def rbGet (heap : Heap) (compare : Nat → Int) : Nat → Option Nat → Option (Option Nat)
  | _, none => some none
  | 0, some _ => none
  | fuel + 1, some i => do
    let e ← heap i
    if compare i = 0 then pure (some i)
    else rbGet heap compare fuel (if compare i < 0 then e.left else e.right)

/-! ## rb_get -/

section Get

variable {K : Type} [LinearOrder K] {keyOf : Nat → K} {key : K} {compare : Nat → Int} {heap : Heap}

/-- The compare function orders the key against the entries' keys. -/
def Compares (keyOf : Nat → K) (key : K) (compare : Nat → Int) : Prop :=
  ∀ x, (compare x < 0 ↔ key < keyOf x) ∧ (compare x = 0 ↔ keyOf x = key)

def KeyLt (keyOf : Nat → K) (x y : Nat) : Prop := keyOf x < keyOf y

theorem find?_eq_none_of_lt {l : List Nat} (h : ∀ x ∈ l, keyOf x < key ∨ key < keyOf x) :
    l.find? (fun x => keyOf x = key) = none := by
  rw [List.find?_eq_none]
  intro x hx
  rcases h x hx with h | h <;> simp [ne_of_lt h, (ne_of_lt h).symm]

theorem rbGet_links (hcmp : Compares keyOf key compare) :
    ∀ {s : BinaryTree Nat} {p : Option Nat} {fuel : Nat},
      Links heap Entry.left Entry.right s p → SearchTree (KeyLt keyOf) s → s.numNodes < fuel →
        rbGet heap compare fuel s.root = some (s.inorder.find? (fun x => keyOf x = key))
  | .nil, _, fuel, _, _, _ => by cases fuel <;> rfl
  | .node _ _ _, _, 0, _, _, hf => absurd hf (Nat.not_lt_zero _)
  | .node a l r, _, fuel + 1, ⟨⟨e, he, _, hl, hr⟩, hLl, hLr⟩, ⟨hsl, hsr, hl', hr'⟩, hf => by
    rw [numNodes_node] at hf
    obtain ⟨hlt, heq⟩ := hcmp a
    simp only [root_node, rbGet, he, Option.bind_eq_bind, Option.bind_some, inorder_node]
    rcases lt_trichotomy key (keyOf a) with hk | hk | hk
    · rw [if_neg (by intro h; exact absurd (heq.mp h) (ne_of_lt hk).symm), if_pos (hlt.mpr hk),
        hl, rbGet_links hcmp hLl hl' (by omega), List.find?_append]
      have hnone : (a :: r.inorder).find? (fun x => keyOf x = key) = none :=
        find?_eq_none_of_lt fun x hx => by
          rcases List.mem_cons.mp hx with rfl | hx
          · exact .inr hk
          · exact .inr (hk.trans (hsr x hx))
      rw [hnone, Option.or_none]
    · rw [if_pos (heq.mpr hk.symm), List.find?_append,
        find?_eq_none_of_lt fun x hx => .inl (hk ▸ hsl x hx)]
      simp [hk]
    · rw [if_neg (by intro h; exact absurd (heq.mp h) (ne_of_lt hk)), if_neg (by
        intro h; exact absurd (hlt.mp h) (not_lt.mpr hk.le)), hr, rbGet_links hcmp hLr hr' (by omega),
        List.find?_append, find?_eq_none_of_lt fun x hx => .inl ((hsl x hx).trans hk),
        Option.none_or, List.find?_cons_of_neg (by simpa using (ne_of_lt hk))]

/-- rb_get on a well-formed tree, with more fuel than entries: the first entry in order with the
key, or NULL. -/
theorem rbGet_find (hcmp : Compares keyOf key compare) {root : Option Nat} {T : BinaryTree Nat}
    {fuel : Nat} (hwf : WellFormed heap (KeyLt keyOf) root T) (hf : T.numNodes < fuel) :
    rbGet heap compare fuel root = some (T.inorder.find? (fun x => keyOf x = key)) := by
  rw [← hwf.root_eq]
  exact rbGet_links hcmp hwf.links hwf.ordered hf

end Get

/-- The compare function of entries keyed by their own address, for the key `k`. -/
def keyCompare (k x : Nat) : Int := if k < x then -1 else if x = k then 0 else 1

theorem compares_keyCompare (k : Nat) : Compares id k (keyCompare k) := by
  intro x
  unfold keyCompare
  constructor <;> split_ifs <;> simp <;> omega

theorem threeTree_keyLt : WellFormed threeHeap (KeyLt id) (some 1) threeTree :=
  threeTree_wellFormed

theorem rbGet_find_three : Compares id 2 (keyCompare 2) ∧
    WellFormed threeHeap (KeyLt id) (some 1) threeTree ∧ threeTree.numNodes < 4 ∧
    rbGet threeHeap (keyCompare 2) 4 (some 1) =
      some (threeTree.inorder.find? (fun x => id x = 2)) :=
  ⟨compares_keyCompare 2, threeTree_keyLt, by decide,
    rbGet_find (compares_keyCompare 2) threeTree_keyLt (by decide)⟩

/-! ## The links of a tree around a position -/

section Zipper

variable {heap heap' : Heap}

@[simp] theorem child_setChild (d : Dir) (c : Option Nat) (e : Entry) :
    (e.setChild d c).child d = c := by
  cases d <;> rfl

@[simp] theorem child_other_setChild (d : Dir) (c : Option Nat) (e : Entry) :
    (e.setChild d c).child d.other = e.child d.other := by
  cases d <;> rfl

@[simp] theorem child_setChild_other (d : Dir) (c : Option Nat) (e : Entry) :
    (e.setChild d.other c).child d = e.child d := by
  cases d <;> rfl

@[simp] theorem parent_setChild (d : Dir) (c : Option Nat) (e : Entry) :
    (e.setChild d c).parent = e.parent := by
  cases d <;> rfl

@[simp] theorem child_withParent (d : Dir) (e : Entry) (p : Option Nat) :
    ({ e with parent := p } : Entry).child d = e.child d := by
  cases d <;> rfl

theorem modify_eq {i : Nat} {e : Entry} (h : heap i = some e) (f : Entry → Entry) :
    modify heap i f = some (Function.update heap i (some (f e))) := by
  simp [modify, h]

theorem side_eq {e : Entry} {d : Dir} {x : Nat} (hx : e.child d = some x)
    (hne : e.child d.other ≠ some x) : (if e.left = some x then Dir.left else Dir.right) = d := by
  cases d
  · exact if_pos hx
  · exact if_neg hne

theorem links_make {d : Dir} {x : Nat} {c o : BinaryTree Nat} {p : Option Nat} :
    Links heap Entry.left Entry.right (make d x c o) p ↔
      (∃ e, heap x = some e ∧ e.parent = p ∧ e.child d = c.root ∧ e.child d.other = o.root) ∧
        Links heap Entry.left Entry.right c (some x) ∧
        Links heap Entry.left Entry.right o (some x) := by
  cases d
  · rfl
  · constructor
    · rintro ⟨⟨e, he, hp, hl, hr⟩, hLo, hLc⟩
      exact ⟨⟨e, he, hp, hr, hl⟩, hLc, hLo⟩
    · rintro ⟨⟨e, he, hp, hr, hl⟩, hLc, hLo⟩
      exact ⟨⟨e, he, hp, hl, hr⟩, hLo, hLc⟩

theorem Links.congr_inorder {t : BinaryTree Nat} {p : Option Nat}
    (hagree : ∀ x ∈ t.inorder, heap' x = heap x) (hL : Links heap Entry.left Entry.right t p) :
    Links heap' Entry.left Entry.right t p :=
  hL.congr fun x hx => hagree x ((postorder_perm_inorder t).mem_iff.mp hx)

/-- The links of the path above a subtree with root `r`: each frame's parent holds the subtree
below on its side, its sibling on the other and the next frame's parent as its own. -/
def PathLinks (heap : Heap) : List (Frame Nat) → Option Nat → Prop
  | [], _ => True
  | f :: fs, r =>
    (∃ e, heap f.parent = some e ∧ e.parent = pathParent fs ∧ e.child f.dir = r ∧
      e.child f.dir.other = f.sibling.root) ∧
    Links heap Entry.left Entry.right f.sibling (some f.parent) ∧ PathLinks heap fs (some f.parent)

theorem links_plug {P : List (Frame Nat)} {s : BinaryTree Nat} :
    Links heap Entry.left Entry.right (plug P s) none ↔
      PathLinks heap P s.root ∧ Links heap Entry.left Entry.right s (pathParent P) := by
  induction P generalizing s with
  | nil => simp [PathLinks, pathParent]
  | cons f fs ih =>
    rw [plug_cons, ih, root_attach, Frame.attach, links_make]
    simp only [PathLinks, pathParent]
    constructor
    · rintro ⟨hP, hf, hs, hsib⟩
      exact ⟨⟨hf, hsib, hP⟩, hs⟩
    · rintro ⟨⟨hf, hsib, hP⟩, hs⟩
      exact ⟨hP, hf, hs, hsib⟩

theorem PathLinks.congr {P : List (Frame Nat)} {r : Option Nat}
    (hagree : ∀ x ∈ pathNodes P, heap' x = heap x) (hP : PathLinks heap P r) :
    PathLinks heap' P r := by
  induction P generalizing r with
  | nil => trivial
  | cons f fs ih =>
    obtain ⟨⟨e, he, hp, hd, ho⟩, hsib, hfs⟩ := hP
    simp only [pathNodes, List.flatMap_cons, Frame.nodes, List.mem_append, List.mem_cons] at hagree
    refine ⟨⟨e, (hagree _ (.inl (.inl rfl))).trans he, hp, hd, ho⟩, ?_, ih ?_ hfs⟩
    · exact hsib.congr_inorder fun x hx => hagree x (.inl (.inr hx))
    · exact fun x hx => hagree x (.inr hx)

theorem replaceChild_plug {t : Tree} {P : List (Frame Nat)} {s : BinaryTree Nat}
    (s' : BinaryTree Nat) {e : Nat} (hP : PathLinks t.heap P (some e))
    (hroot : (plug P s).root = t.root) (hnd : (pathNodes P).Nodup) (he : e ∉ pathNodes P) :
    ∃ heap, replaceChild t e (pathParent P) s'.root = some ⟨heap, t.red, (plug P s').root⟩ ∧
      PathLinks heap P s'.root ∧ ∀ x, pathParent P ≠ some x → heap x = t.heap x := by
  cases P with
  | nil => exact ⟨t.heap, by simp [replaceChild, pathParent], trivial, fun _ _ => rfl⟩
  | cons f fs =>
    obtain ⟨⟨pe, hpe, hpp, hpd, hpo⟩, hsib, hfs⟩ := hP
    simp only [pathNodes, List.flatMap_cons, Frame.nodes, List.cons_append, List.nodup_cons,
      List.mem_append, List.mem_cons, not_or] at hnd he
    have hne : pe.child f.dir.other ≠ some e := by
      rw [hpo]
      exact fun h => he.2.1 (root_mem_inorder h)
    refine ⟨Function.update t.heap f.parent (some (pe.setChild f.dir s'.root)), ?_, ?_, ?_⟩
    · simp only [replaceChild, pathParent, hpe, side_eq hpd hne, modify_eq hpe, Option.bind_eq_bind,
        Option.bind_some, Option.pure_def]
      rw [root_plug_cons f fs s' s, hroot]
    · refine ⟨⟨_, Function.update_self .., by rw [parent_setChild, hpp], child_setChild ..,
        by rw [child_other_setChild, hpo]⟩, ?_, ?_⟩
      · refine hsib.congr_inorder fun x hx => Function.update_of_ne ?_ _ _
        rintro rfl
        exact hnd.1.1 hx
      · refine hfs.congr fun x hx => Function.update_of_ne ?_ _ _
        rintro rfl
        exact hnd.1.2 hx
    · intro x hx
      exact Function.update_of_ne (fun h => hx (by rw [h]; rfl)) _ _

theorem setParent_links (written : Heap) (parent : Option Nat) {Y : BinaryTree Nat}
    {q : Option Nat} (hY : Links heap Entry.left Entry.right Y q) (hnd : Y.inorder.Nodup)
    (hagree : ∀ x ∈ Y.inorder, written x = heap x) :
    ∃ heap'', setParent written Y.root parent = some heap'' ∧
      Links heap'' Entry.left Entry.right Y parent ∧
      ∀ x, Y.root ≠ some x → heap'' x = written x := by
  cases Y with
  | nil => exact ⟨written, rfl, trivial, fun _ _ => rfl⟩
  | node b l r =>
    obtain ⟨⟨be, hbe, -, hbl, hbr⟩, hLl, hLr⟩ := hY
    have hbe' : written b = some be := (hagree b (by simp)).trans hbe
    rw [inorder_node] at hnd
    obtain ⟨hbl', hbr'⟩ := Walk.not_mem_of_nodup_split hnd
    refine ⟨Function.update written b (some { be with parent := parent }),
      modify_eq hbe' _, ⟨⟨_, Function.update_self .., rfl, hbl, hbr⟩, ?_, ?_⟩, ?_⟩
    · refine hLl.congr_inorder fun x hx => ?_
      have hxb : x ≠ b := fun h => hbl' (h ▸ hx)
      rw [Function.update_of_ne hxb, hagree x (by simp [hx])]
    · refine hLr.congr_inorder fun x hx => ?_
      have hxb : x ≠ b := fun h => hbr' (h ▸ hx)
      rw [Function.update_of_ne hxb, hagree x (by simp [hx])]
    · intro x hx
      exact Function.update_of_ne (fun h => hx (by rw [h]; rfl)) _ _

theorem rotate_plug {t : Tree} {P : List (Frame Nat)} {d : Dir} {e u : Nat}
    {X Y Z : BinaryTree Nat}
    (hL : Links t.heap Entry.left Entry.right (plug P (make d e (make d u X Y) Z)) none)
    (hroot : (plug P (make d e (make d u X Y) Z)).root = t.root)
    (hnd : (plug P (make d e (make d u X Y) Z)).inorder.Nodup) :
    ∃ heap, rotate d t e = some ⟨heap, t.red, (plug P (make d.other u (make d e Y Z) X)).root⟩ ∧
      Links heap Entry.left Entry.right (plug P (make d.other u (make d e Y Z) X)) none ∧
      ∀ x, x ∉ (plug P (make d e (make d u X Y) Z)).inorder → heap x = t.heap x := by
  obtain ⟨hP, hLs⟩ := links_plug.mp hL
  obtain ⟨⟨ee, hee, heep, heed, heeo⟩, hLu, hLZ⟩ := links_make.mp hLs
  obtain ⟨⟨ue, hue, -, hued, hueo⟩, hLX, hLY⟩ := links_make.mp hLu
  obtain ⟨hnds, hndP, hdisj⟩ := nodup_plug.mp hnd
  have hperm : (make d e (make d u X Y) Z).inorder.Perm
      (e :: u :: (X.inorder ++ Y.inorder ++ Z.inorder)) :=
    (inorder_make_perm ..).trans ((((inorder_make_perm ..).append_right _).cons e).trans (by simp))
  have hnd' := hperm.nodup_iff.mp hnds
  simp only [List.nodup_cons, List.mem_cons, List.mem_append, not_or, List.nodup_append] at hnd'
  obtain ⟨⟨heu, ⟨heX, heY⟩, heZ⟩, ⟨⟨huX, huY⟩, huZ⟩, ⟨-, hYn, hXY⟩, -, hXYZ⟩ := hnd'
  have hmem : ∀ x, x = e ∨ x = u ∨ x ∈ X.inorder ∨ x ∈ Y.inorder ∨ x ∈ Z.inorder →
      x ∈ (make d e (make d u X Y) Z).inorder := by
    intro x hx
    rw [hperm.mem_iff]
    simpa only [List.mem_cons, List.mem_append, or_assoc] using hx
  have hpar : ∀ x, x = e ∨ x = u ∨ x ∈ X.inorder ∨ x ∈ Y.inorder ∨ x ∈ Z.inorder →
      pathParent P ≠ some x :=
    fun x hx h => hdisj x (hmem x hx) (pathParent_mem h)
  rw [root_make] at hP
  obtain ⟨heap1, hrc, hP1, hagree1⟩ := replaceChild_plug (s := make d e (make d u X Y) Z)
    (make d.other u (make d e Y Z) X) hP hroot hndP (hdisj e (hmem e (.inl rfl)))
  rw [root_make] at hrc hP1
  have hee1 : heap1 e = some ee := (hagree1 e (hpar e (.inl rfl))).trans hee
  have hue1 : heap1 u = some ue := (hagree1 u (hpar u (.inr (.inl rfl)))).trans hue
  obtain ⟨heap3, hsp, hLY3, hagree3⟩ := setParent_links
    (Function.update heap1 e (some (ee.setChild d Y.root))) (some e) hLY hYn
    (fun x hx => by
      rw [Function.update_of_ne (ne_of_mem_of_not_mem hx heY),
        hagree1 x (hpar x (.inr (.inr (.inr (.inl hx)))))])
  have hYu : Y.root ≠ some u := fun h => huY (root_mem_inorder h)
  have hYe : Y.root ≠ some e := fun h => heY (root_mem_inorder h)
  have hu3 : heap3 u = some ue := by
    rw [hagree3 u hYu, Function.update_of_ne (Ne.symm heu), hue1]
  have he4 : Function.update heap3 u (some { ue.setChild d.other (some e) with parent := ee.parent })
      e = some (ee.setChild d Y.root) := by
    rw [Function.update_of_ne heu, hagree3 e hYe, Function.update_self]
  have hfar : ∀ x, x ≠ e → x ≠ u → Y.root ≠ some x →
      Function.update (Function.update heap3 u
        (some { ue.setChild d.other (some e) with parent := ee.parent })) e
        (some { ee.setChild d Y.root with parent := some u }) x = heap1 x := by
    intro x hxe hxu hxY
    rw [Function.update_of_ne hxe, Function.update_of_ne hxu, hagree3 x hxY,
      Function.update_of_ne hxe]
  refine ⟨Function.update (Function.update heap3 u
    (some { ue.setChild d.other (some e) with parent := ee.parent })) e
    (some { ee.setChild d Y.root with parent := some u }), ?_, ?_, ?_⟩
  · rw [← heep] at hrc
    simp only [rotate, hee, heed, root_make, hrc, hue1, hueo, modify_eq hee1, hsp,
      modify_eq hu3, modify_eq he4, Option.bind_eq_bind, Option.bind_some, Option.pure_def]
  · refine links_plug.mpr ⟨?_, ?_⟩
    · rw [root_make]
      refine hP1.congr fun x hx => hfar x ?_ ?_ ?_
      · exact fun h => hdisj x (hmem x (.inl h)) hx
      · exact fun h => hdisj x (hmem x (.inr (.inl h))) hx
      · intro h
        exact hdisj x (hmem x (.inr (.inr (.inr (.inl (root_mem_inorder h)))))) hx
    · refine links_make.mpr ⟨⟨{ ue.setChild d.other (some e) with parent := ee.parent },
        by rw [Function.update_of_ne (Ne.symm heu), Function.update_self], heep, by simp,
        by simp [hued]⟩, links_make.mpr ⟨⟨{ ee.setChild d Y.root with parent := some u },
        Function.update_self .., rfl, by simp, by simp [heeo]⟩, ?_, ?_⟩, ?_⟩
      · refine hLY3.congr_inorder fun x hx => ?_
        rw [Function.update_of_ne (ne_of_mem_of_not_mem hx heY),
          Function.update_of_ne (ne_of_mem_of_not_mem hx huY)]
      · refine hLZ.congr_inorder fun x hx => ?_
        rw [hfar x (ne_of_mem_of_not_mem hx heZ) (ne_of_mem_of_not_mem hx huZ)
          (fun h => hXYZ x (.inr (root_mem_inorder h)) x hx rfl),
          hagree1 x (hpar x (.inr (.inr (.inr (.inr hx)))))]
      · refine hLX.congr_inorder fun x hx => ?_
        rw [hfar x (ne_of_mem_of_not_mem hx heX) (ne_of_mem_of_not_mem hx huX)
          (fun h => hXY x hx x (root_mem_inorder h) rfl),
          hagree1 x (hpar x (.inr (.inr (.inl hx))))]
  · intro x hx
    have hx' : ∀ y, y ∈ (make d e (make d u X Y) Z).inorder → y ≠ x :=
      fun y hy h => hx (mem_plug.mpr (.inl (h ▸ hy)))
    rw [hfar x (hx' e (hmem e (.inl rfl))).symm (hx' u (hmem u (.inr (.inl rfl)))).symm
      (fun h => hx' x (hmem x (.inr (.inr (.inr (.inl (root_mem_inorder h)))))) rfl),
      hagree1 x (fun h => hx (mem_plug.mpr (.inr (pathParent_mem h))))]

end Zipper

/-! ## The fixup loop of rb_put -/

section Fixup

@[simp] theorem heap_setRed (t : Tree) (i : Nat) (b : Bool) : (setRed t i b).heap = t.heap := rfl

@[simp] theorem root_setRed (t : Tree) (i : Nat) (b : Bool) : (setRed t i b).root = t.root := rfl

/-- What holds at the head of the fixup loop: the heap links the tree `plug P s` with no entry
twice, `entry` is the root of the focus `s`, and no red entry but `entry` is the root. -/
structure FixupInv (t : Tree) (P : List (Frame Nat)) (s : BinaryTree Nat) (entry : Nat) :
    Prop where
  links : Links t.heap Entry.left Entry.right (plug P s) none
  root_eq : (plug P s).root = t.root
  nodup : (plug P s).inorder.Nodup
  focus : s.root = some entry
  red_root : ∀ x, t.red x = true → x ≠ entry → (plug P s).root ≠ some x

variable {t : Tree} {f g : Frame Nat} {gs : List (Frame Nat)} {s : BinaryTree Nat} {entry : Nat}

theorem FixupInv.root_ne_entry {fs : List (Frame Nat)} (h : FixupInv t (f :: fs) s entry) :
    (plug (f :: fs) s).root ≠ some entry := fun hr =>
  (nodup_plug.mp h.nodup).2.2 entry (root_mem_inorder h.focus) (root_plug_cons_mem hr)

theorem FixupInv.parents (h : FixupInv t (f :: g :: gs) s entry) :
    ∃ ee pe ge, t.heap entry = some ee ∧ ee.parent = some f.parent ∧
      t.heap f.parent = some pe ∧ pe.parent = some g.parent ∧ pe.child f.dir = some entry ∧
      pe.child f.dir.other = f.sibling.root ∧
      t.heap g.parent = some ge ∧ ge.child g.dir = some f.parent ∧
      ge.child g.dir.other = g.sibling.root ∧
      f.sibling.root ≠ some entry ∧ (∀ u, g.sibling.root = some u → u ≠ f.parent ∧ u ≠ g.parent) ∧
      f.parent ≠ g.parent ∧ entry ≠ f.parent ∧ entry ≠ g.parent := by
  obtain ⟨hP, hLs⟩ := links_plug.mp h.links
  obtain ⟨ee, hee, heep⟩ := hLs.entry h.focus
  rw [h.focus] at hP
  obtain ⟨⟨pe, hpe, hpep, hpd, hpo⟩, -, ⟨ge, hge, -, hgd, hgo⟩, -, -⟩ := hP
  obtain ⟨-, hndP, hdisj⟩ := nodup_plug.mp h.nodup
  have hes := hdisj entry (root_mem_inorder h.focus)
  have hndP' : (f.parent :: (f.sibling.inorder ++
      g.parent :: (g.sibling.inorder ++ pathNodes gs))).Nodup := by
    simpa [pathNodes, Frame.nodes] using hndP
  obtain ⟨hp1, hrest⟩ := List.nodup_cons.mp hndP'
  obtain ⟨hg1, -⟩ := List.nodup_cons.mp hrest.of_append_right
  simp only [pathNodes, List.flatMap_cons, Frame.nodes, List.cons_append, List.mem_append,
    List.mem_cons, not_or] at hes
  refine ⟨ee, pe, ge, hee, heep, hpe, hpep, hpd, hpo, hge, hgd, hgo, ?_, ?_, ?_, hes.1, hes.2.2.1⟩
  · exact fun hr => hes.2.1 (root_mem_inorder hr)
  · intro u hu
    have hu' := root_mem_inorder hu
    exact ⟨fun e => hp1 (by simp [← e, hu']), fun e => hg1 (by simp [← e, hu'])⟩
  · exact fun e => hp1 (by simp [e])

/-- The rotating round once the entry is on the outer side, the side `d` of its parent that the
parent is of the grandparent: the parent turns black and takes the grandparent's place, the
grandparent turns red and goes down on the other side. -/
theorem recolorRotate_spec (h : FixupInv t (f :: g :: gs) s entry) (hd : f.dir = g.dir) :
    ∃ t', recolorRotate g.dir t entry = some t' ∧
      t'.red = Function.update (Function.update t.red f.parent false) g.parent true ∧
      FixupInv t' (⟨g.dir, f.parent, make g.dir g.parent f.sibling g.sibling⟩ :: gs) s entry ∧
      (plug (⟨g.dir, f.parent, make g.dir g.parent f.sibling g.sibling⟩ :: gs) s).inorder =
        (plug (f :: g :: gs) s).inorder ∧
      ∀ x, x ∉ (plug (f :: g :: gs) s).inorder → t'.heap x = t.heap x := by
  obtain ⟨ee, pe, -, hee, heep, hpe, hpep, -, -, -, -, -, -, -, hpg, -, -⟩ := h.parents
  obtain ⟨d, p, Zp⟩ := f
  obtain ⟨d', gp, U⟩ := g
  dsimp only at hd hpg heep hpe hpep ⊢
  subst hd
  have hT : plug (⟨d, p, Zp⟩ :: ⟨d, gp, U⟩ :: gs) s = plug gs (make d gp (make d p s Zp) U) := rfl
  have hT' : plug (⟨d, p, make d gp Zp U⟩ :: gs) s =
      plug gs (make d.other p (make d gp Zp U) s) := by
    simp [Frame.attach, make_other]
  have hL := h.links
  have hroot := h.root_eq
  have hnd := h.nodup
  rw [hT] at hL hroot hnd
  obtain ⟨heap, hrot, hL', hfr⟩ :=
    rotate_plug (t := setRed (setRed t p false) gp true) hL hroot hnd
  have hrec : recolorRotate d t entry = rotate d (setRed (setRed t p false) gp true) gp := by
    simp only [recolorRotate, hee, heep, heap_setRed, hpe, hpep, Option.bind_eq_bind,
      Option.bind_some]
  have hin : (plug (⟨d, p, make d gp Zp U⟩ :: gs) s).inorder = (plug gs (make d gp (make d p s Zp) U)).inorder := by
    rw [hT']
    exact inorder_plug_congr gs (inorder_make_rotate ..)
  refine ⟨_, hrec.trans hrot, rfl, ⟨by rw [hT']; exact hL', by rw [hT'], by rw [hin]; exact hnd,
    h.focus, ?_⟩, hin, fun x hx => hfr x (hT ▸ hx)⟩
  intro x hx hxe
  simp only [setRed, Function.update_apply] at hx
  rw [hT']
  by_cases hxg : x = gp
  · subst hxg
    cases gs with
    | nil => simpa using hpg
    | cons g2 gs2 =>
      exact fun hr => (nodup_plug.mp hnd).2.2 x ((inorder_make_perm ..).mem_iff.mpr
        List.mem_cons_self) (root_plug_cons_mem hr)
  · have hxp : x ≠ p := by
      rintro rfl
      simp [hxg] at hx
    have hxr : t.red x = true := by simpa [hxg, hxp] using hx
    have hold := h.red_root x hxr hxe
    cases gs with
    | nil => simpa using Ne.symm hxp
    | cons g2 gs2 => rwa [root_plug_cons g2 gs2 _ (make d gp (make d p s Zp) U)]

theorem rotateInner_spec (h : FixupInv t (f :: g :: gs) s entry) (hd : f.dir = g.dir.other) :
    ∃ t' X Y, s = make g.dir.other entry X Y ∧ rotate g.dir.other t f.parent = some t' ∧
      t'.red = t.red ∧ FixupInv t' (⟨g.dir, entry, X⟩ :: g :: gs) (make g.dir.other f.parent Y f.sibling)
        f.parent ∧
      (plug (⟨g.dir, entry, X⟩ :: g :: gs) (make g.dir.other f.parent Y f.sibling)).inorder =
        (plug (f :: g :: gs) s).inorder ∧
      ∀ x, x ∉ (plug (f :: g :: gs) s).inorder → t'.heap x = t.heap x := by
  obtain ⟨X, Y, rfl⟩ := exists_make h.focus g.dir.other
  obtain ⟨d, p, Zp⟩ := f
  dsimp only at hd ⊢
  subst hd
  have hT : plug (⟨g.dir.other, p, Zp⟩ :: g :: gs) (make g.dir.other entry X Y) =
      plug (g :: gs) (make g.dir.other p (make g.dir.other entry X Y) Zp) := rfl
  have hT' : plug (⟨g.dir, entry, X⟩ :: g :: gs) (make g.dir.other p Y Zp) =
      plug (g :: gs) (make g.dir.other.other entry (make g.dir.other p Y Zp) X) := by
    rw [Dir.other_other]
    rfl
  have hL := h.links
  have hroot := h.root_eq
  have hnd := h.nodup
  rw [hT] at hL hroot hnd
  obtain ⟨heap, hrot, hL', hfr⟩ := rotate_plug hL hroot hnd
  have hin : (plug (⟨g.dir, entry, X⟩ :: g :: gs) (make g.dir.other p Y Zp)).inorder =
      (plug (g :: gs) (make g.dir.other p (make g.dir.other entry X Y) Zp)).inorder := by
    rw [hT']
    exact inorder_plug_congr _ (inorder_make_rotate ..)
  refine ⟨_, X, Y, rfl, hrot, rfl, ⟨by rw [hT']; exact hL', by rw [hT'], by rw [hin]; exact hnd,
    root_make .., ?_⟩, hin, fun x hx => hfr x (hT ▸ hx)⟩
  intro x hx hxp
  rw [hT', root_plug_cons g gs _ (make g.dir.other p (make g.dir.other entry X Y) Zp)]
  by_cases hxe : x = entry
  · subst hxe
    exact h.root_ne_entry
  · exact h.red_root x hx hxe

theorem toggle_flipColours (red : Nat → Bool) {g p u l r : Nat} (hpg : p ≠ g) (hug : u ≠ g)
    (hpu : p ≠ u) (hlr : l = p ∧ r = u ∨ l = u ∧ r = p) :
    toggle (toggle (toggle red g) l) r = flipColours red g p u := by
  funext x
  rcases hlr with ⟨rfl, rfl⟩ | ⟨rfl, rfl⟩ <;>
  · simp only [toggle, flipColours, Function.update_apply]
    split_ifs <;> simp_all

theorem rbIsRed_root (red : Nat → Bool) (t : BinaryTree Nat) : rbIsRed red t.root = redRoot red t := by
  cases h : t.root <;> simp [rbIsRed, redRoot, h]

/-- The flipping round, when the uncle is red too: the grandparent, the parent and the uncle
change colour, and the grandparent is the next round's entry. -/
theorem flipColor_spec (h : FixupInv t (f :: g :: gs) s entry) (hp : t.red f.parent = true)
    (hu : rbIsRed t.red g.sibling.root = true) :
    ∃ t' u, flipColor t g.parent = some t' ∧ t'.heap = t.heap ∧ g.sibling.root = some u ∧
      t'.red = flipColours t.red g.parent f.parent u ∧
      FixupInv t' gs (g.attach (f.attach s)) g.parent := by
  obtain ⟨-, -, ge, -, -, -, -, -, -, hge, hgd, hgo, -, hU, hpg, -, -⟩ := h.parents
  obtain ⟨u, hur⟩ : ∃ u, g.sibling.root = some u := by
    cases hs : g.sibling.root with
    | none => simp [hs, rbIsRed] at hu
    | some u => exact ⟨u, rfl⟩
  have hred : t.red u = true := by simpa [hur, rbIsRed] using hu
  obtain ⟨hup, hug⟩ := hU u hur
  obtain ⟨l, r, hl, hr, hlr⟩ : ∃ l r, ge.left = some l ∧ ge.right = some r ∧
      (l = f.parent ∧ r = u ∨ l = u ∧ r = f.parent) := by
    cases hdir : g.dir
    · rw [hdir] at hgd hgo
      exact ⟨_, _, hgd, hur ▸ hgo, .inl ⟨rfl, rfl⟩⟩
    · rw [hdir] at hgd hgo
      exact ⟨_, _, hur ▸ hgo, hgd, .inr ⟨rfl, rfl⟩⟩
  have hcol := toggle_flipColours t.red hpg hug hup.symm hlr
  refine ⟨{ t with red := toggle (toggle (toggle t.red g.parent) l) r }, u,
    by simp [flipColor, hge, hl, hr], rfl, hur, hcol,
    ⟨h.links, h.root_eq, h.nodup, root_attach .., ?_⟩⟩
  intro x hx hxg
  dsimp only at hx
  rw [hcol] at hx
  have hxp : x ≠ f.parent := by
    rintro rfl
    rw [flipColours_flips (.inr (.inl rfl)), hp] at hx
    cases hx
  have hxu : x ≠ u := by
    rintro rfl
    rw [flipColours_flips (.inr (.inr rfl)), hred] at hx
    cases hx
  rw [flipColours_of_ne hxg hxp hxu] at hx
  by_cases hxe : x = entry
  · subst hxe
    exact h.root_ne_entry
  · exact h.red_root x hx hxe

/-- One round of the fixup loop: it stops at a black parent or at the root, or it makes one
move of the walk and the next round starts from a state that keeps the invariant, with the heap
unchanged outside the tree. -/
theorem putFixup_step {P : List (Frame Nat)} (h : FixupInv t P s entry) (fuel : Nat) :
    rbIsRed t.red (pathParent P) = false ∧ putFixup (fuel + 1) t entry = some t ∨
      ∃ t' P' s' entry', putFixup (fuel + 1) t entry = putFixup fuel t' entry' ∧
        FixupInv t' P' s' entry' ∧ FixupMove t.red P s entry t'.red P' s' entry' ∧
        ∀ x, x ∉ (plug P s).inorder → t'.heap x = t.heap x := by
  obtain ⟨ee, hee, heep⟩ := (links_plug.mp h.links).2.entry h.focus
  by_cases hr : rbIsRed t.red (pathParent P) = true
  swap
  · refine .inl ⟨by simpa using hr, ?_⟩
    simp [putFixup, hee, heep, hr]
  obtain ⟨f, g, gs, rfl⟩ : ∃ f g gs, P = f :: g :: gs := by
    rcases P with _ | ⟨f, _ | ⟨g, gs⟩⟩
    · simp [pathParent, rbIsRed] at hr
    · have hne : f.parent ≠ entry := fun e => (nodup_plug.mp h.nodup).2.2 entry
        (root_mem_inorder h.focus) (e ▸ pathParent_mem rfl)
      exact absurd (root_attach f s) (h.red_root f.parent hr hne)
    · exact ⟨f, g, gs, rfl⟩
  right
  have hred : t.red f.parent = true := hr
  obtain ⟨-, pe, ge, -, -, hpe, hpep, hpd, hpo, hge, hgd, hgo, hZe, hU, -, -, -⟩ := h.parents
  have hside : (if ge.left = some f.parent then Dir.left else Dir.right) = g.dir :=
    side_eq hgd (by rw [hgo]; exact fun hu => (hU _ hu).1 rfl)
  by_cases hu : rbIsRed t.red g.sibling.root = true
  · obtain ⟨t', u, hfl, hheap, hur, hcol, hinv⟩ := flipColor_spec h hred hu
    refine ⟨t', gs, g.attach (f.attach s), g.parent, ?_, hinv, ?_, fun x _ => by rw [hheap]⟩
    · simp only [putFixup, hee, heep, pathParent, rbIsRed_some, hred, hpe, hpep, hge, hside, hgo,
        hu, hfl, Option.bind_eq_bind, Option.bind_some, if_true]
    · rw [hcol]
      exact FixupMove.flip hred hur (by simpa [hur] using hu)
  have hU' : redRoot t.red g.sibling = false := by simpa [rbIsRed_root] using hu
  rcases Dir.eq_or_eq_other f.dir g.dir with hd | hd
  · obtain ⟨t', hrec, hcol, hinv, -, hfr⟩ := recolorRotate_spec h hd
    refine ⟨t', _, s, entry, ?_, hinv, by rw [hcol]; exact FixupMove.outer hred hU' hd, hfr⟩
    have hno : ¬pe.child g.dir.other = some entry := by rw [← hd, hpo]; exact hZe
    simp only [putFixup, hee, heep, pathParent, rbIsRed_some, hred, hpe, hpep, hge, hside, hgo,
      hu, hno, hrec, Option.bind_eq_bind, Option.bind_some, Bool.false_eq_true, if_true, if_false,
      Option.pure_def]
  · obtain ⟨t1, X, Y, rfl, hrot, hcol1, hinv1, hin1, hfr1⟩ := rotateInner_spec h hd
    obtain ⟨t2, hrec, hcol2, hinv2, -, hfr2⟩ := recolorRotate_spec hinv1 rfl
    refine ⟨t2, _, _, f.parent, ?_, hinv2, ?_, fun x hx =>
      (hfr2 x (hin1 ▸ hx)).trans (hfr1 x hx)⟩
    · have hyes : pe.child g.dir.other = some entry := by rw [← hd, hpd]
      simp only [putFixup, hee, heep, pathParent, rbIsRed_some, hred, hpe, hpep, hge, hside, hgo,
        hu, hyes, hrot, hrec, Option.bind_eq_bind, Option.bind_some, Bool.false_eq_true, if_true,
        if_false, Option.pure_def]
    · rw [hcol2, hcol1]
      exact FixupMove.inner hred hU' hd

theorem putFixup_spec (I : (Nat → Bool) → List (Frame Nat) → BinaryTree Nat → Nat → Prop)
    (hI : ∀ {red P s e red' P' s' e'}, FixupMove red P s e red' P' s' e' → I red P s e →
      I red' P' s' e') :
    ∀ (fuel : Nat) {t : Tree} {P : List (Frame Nat)} {s : BinaryTree Nat} {entry : Nat},
      FixupInv t P s entry → I t.red P s entry → P.length < fuel →
      ∃ t' P' s' entry', putFixup fuel t entry = some t' ∧ FixupInv t' P' s' entry' ∧
        I t'.red P' s' entry' ∧ rbIsRed t'.red (pathParent P') = false ∧
        (plug P' s').inorder = (plug P s).inorder ∧
        ∀ x, x ∉ (plug P s).inorder → t'.heap x = t.heap x
  | 0, _, _, _, _, _, _, hf => absurd hf (Nat.not_lt_zero _)
  | fuel + 1, t, P, s, entry, h, hi, hf => by
    rcases putFixup_step h fuel with ⟨hstop, hrun⟩ | ⟨t', P', s', e', hrun, h', hm, hfr⟩
    · exact ⟨t, P, s, entry, hrun, h, hi, hstop, rfl, fun _ _ => rfl⟩
    · have hlen := hm.length_lt
      have hin := hm.inorder_eq
      obtain ⟨t'', P'', s'', e'', hrun', h'', hi'', hstop, hin', hfr'⟩ :=
        putFixup_spec I hI fuel h' (hI hm hi) (by omega)
      exact ⟨t'', P'', s'', e'', hrun.trans hrun', h'', hi'', hstop, hin'.trans hin,
        fun x hx => (hfr' x (hin ▸ hx)).trans (hfr x hx)⟩

end Fixup

/-! ## The descent and the link of rb_put -/

section Put

variable {K : Type} [LinearOrder K] {keyOf : Nat → K} {key : K} {compare : Nat → Int}
  {heap : Heap}

theorem slotOf_append {Q : List (Frame Nat)} (hQ : Q ≠ []) (R : List (Frame Nat)) :
    slotOf (Q ++ R) = slotOf Q := by
  cases Q with
  | nil => exact absurd rfl hQ
  | cons f fs => rfl

/-- The descent from the root of a linked search tree: it stops at an entry with the key, or at
the empty subtree where the key belongs, every entry before it in order having a smaller key and
every entry after it a larger one. -/
theorem putDescend_spec (hcmp : Compares keyOf key compare) :
    ∀ {s : BinaryTree Nat} {q : Option Nat} {fuel i : Nat},
      Links heap Entry.left Entry.right s q → SearchTree (KeyLt keyOf) s → s.root = some i →
      s.numNodes ≤ fuel →
      (∃ x ∈ s.inorder, keyOf x = key) ∧ putDescend heap compare fuel i = some .found ∨
      (∀ x ∈ s.inorder, keyOf x ≠ key) ∧ ∃ Q, s = plug Q nil ∧ Q ≠ [] ∧
        putDescend heap compare fuel i = some (slotOf Q) ∧
        (∀ x ∈ pathLeft Q, keyOf x < key) ∧ (∀ x ∈ pathRight Q, key < keyOf x)
  | .nil, _, _, _, _, _, hi, _ => by cases hi
  | .node a l r, _, 0, _, _, _, _, hf => by simp at hf
  | .node a l r, _, fuel + 1, i, ⟨⟨e, he, _, hl, hr⟩, hLl, hLr⟩, ⟨hsl, hsr, hl', hr'⟩, hi, hf => by
    cases hi
    obtain ⟨hlt, heq⟩ := hcmp a
    rw [numNodes_node] at hf
    rcases lt_trichotomy key (keyOf a) with hk | hk | hk
    · have hc : compare a ≠ 0 := fun h => absurd (heq.mp h) (ne_of_lt hk).symm
      have hc' : compare a < 0 := hlt.mpr hk
      have hright : ∀ x ∈ a :: r.inorder, key < keyOf x := by
        intro x hx
        rcases List.mem_cons.mp hx with rfl | hx
        · exact hk
        · exact hk.trans (hsr x hx)
      cases l with
      | nil =>
        refine .inr ⟨fun x hx => (ne_of_lt (hright x (by simpa using hx))).symm,
          [⟨.left, a, r⟩], rfl, by simp, ?_, by simp [pathLeft], by simpa [pathRight] using hright⟩
        simp [putDescend, he, hc, hc', Entry.child, hl, slotOf]
      | node b ll lr =>
        rcases putDescend_spec hcmp hLl hl' rfl (show (node b ll lr).numNodes ≤ fuel by omega) with
          ⟨⟨x, hx, hkx⟩, hfound⟩ | ⟨hnot, Q, hQ, hQne, hslot, hQl, hQr⟩
        · exact .inl ⟨⟨x, List.mem_append_left _ hx, hkx⟩,
            by simp [putDescend, he, hc, hc', Entry.child, hl, hfound]⟩
        · refine .inr ⟨?_, Q ++ [⟨.left, a, r⟩], by rw [plug_append, ← hQ]; rfl, by simp, ?_, ?_, ?_⟩
          · intro x hx
            rw [inorder_node, List.mem_append] at hx
            rcases hx with hx | hx
            · exact hnot x hx
            · exact (ne_of_lt (hright x hx)).symm
          · simp [putDescend, he, hc, hc', Entry.child, hl, hslot, slotOf_append hQne]
          · simpa [pathLeft_append, pathLeft] using hQl
          · intro x hx
            rw [pathRight_append, List.mem_append] at hx
            rcases hx with hx | hx
            · exact hQr x hx
            · exact hright x (by simpa [pathRight] using hx)
    · exact .inl ⟨⟨a, by simp, hk.symm⟩, by simp [putDescend, he, heq.mpr hk.symm]⟩
    · have hc : compare a ≠ 0 := fun h => absurd (heq.mp h) (ne_of_lt hk)
      have hc' : ¬compare a < 0 := fun h => absurd (hlt.mp h) (not_lt.mpr hk.le)
      have hleft : ∀ x ∈ l.inorder ++ [a], keyOf x < key := by
        intro x hx
        rcases List.mem_append.mp hx with hx | hx
        · exact (hsl x hx).trans hk
        · exact (List.mem_singleton.mp hx) ▸ hk
      cases r with
      | nil =>
        refine .inr ⟨fun x hx => ne_of_lt (hleft x (by simpa using hx)),
          [⟨.right, a, l⟩], rfl, by simp, ?_, by simpa [pathLeft] using hleft, by simp [pathRight]⟩
        simp [putDescend, he, hc, hc', Entry.child, hr, slotOf]
      | node b rl rr =>
        rcases putDescend_spec hcmp hLr hr' rfl (show (node b rl rr).numNodes ≤ fuel by omega) with
          ⟨⟨x, hx, hkx⟩, hfound⟩ | ⟨hnot, Q, hQ, hQne, hslot, hQl, hQr⟩
        · exact .inl ⟨⟨x, List.mem_append_right _ (List.mem_cons_of_mem _ hx), hkx⟩,
            by simp [putDescend, he, hc, hc', Entry.child, hr, hfound]⟩
        · refine .inr ⟨?_, Q ++ [⟨.right, a, l⟩], by rw [plug_append, ← hQ]; rfl, by simp, ?_, ?_, ?_⟩
          · intro x hx
            rw [inorder_node, List.mem_append, List.mem_cons] at hx
            rcases hx with hx | rfl | hx
            · exact ne_of_lt (hleft x (List.mem_append_left _ hx))
            · exact ne_of_lt hk
            · exact hnot x hx
          · simp [putDescend, he, hc, hc', Entry.child, hr, hslot, slotOf_append hQne]
          · intro x hx
            rw [pathLeft_append, List.mem_append] at hx
            rcases hx with hx | hx
            · exact hleft x (by simpa [pathLeft] using hx)
            · exact hQl x hx
          · simpa [pathRight_append, pathRight] using hQr

theorem Links.allocated {T : BinaryTree Nat} {q : Option Nat} {x : Nat}
    (hL : Links heap Entry.left Entry.right T q) (hx : x ∈ T.inorder) : heap x ≠ none := by
  obtain ⟨l, r, hs⟩ := exists_isSubtree_of_mem hx
  obtain ⟨q', hL'⟩ := hL.isSubtree hs
  obtain ⟨e, he, -⟩ := hL'.entry rfl
  simp [he]

theorem putSlot_spec (hcmp : Compares keyOf key compare) {t : Tree} {T : BinaryTree Nat}
    {fuel : Nat} (hL : Links t.heap Entry.left Entry.right T none)
    (hT : SearchTree (KeyLt keyOf) T) (hroot : T.root = t.root) (hf : T.numNodes ≤ fuel) :
    (∃ x ∈ T.inorder, keyOf x = key) ∧ putSlot t compare fuel = some .found ∨
      (∀ x ∈ T.inorder, keyOf x ≠ key) ∧ ∃ Q, T = plug Q nil ∧
        putSlot t compare fuel = some (slotOf Q) ∧
        (∀ x ∈ pathLeft Q, keyOf x < key) ∧ (∀ x ∈ pathRight Q, key < keyOf x) := by
  cases T with
  | nil =>
    refine .inr ⟨by simp, [], rfl, ?_, by simp [pathLeft], by simp [pathRight]⟩
    simp [putSlot, ← hroot, slotOf]
  | node a l r =>
    have hs : putSlot t compare fuel = putDescend t.heap compare fuel a := by
      simp [putSlot, ← hroot]
    rcases putDescend_spec hcmp hL hT rfl hf with ⟨hx, hd⟩ | ⟨hx, Q, hQ, -, hd, hl, hr⟩
    · exact .inl ⟨hx, hs.trans hd⟩
    · exact .inr ⟨hx, Q, hQ, hs.trans hd, hl, hr⟩

/-- Linking a fresh entry, red, at the end of a path to an empty subtree starts the fixup loop:
the heap links the tree with the entry there, and when the tree's root was black no red entry but
the new one is the root. -/
theorem putLink_spec {t : Tree} {Q : List (Frame Nat)} {entry : Nat}
    (hL : Links t.heap Entry.left Entry.right (plug Q nil) none)
    (hroot : (plug Q nil).root = t.root) (hnd : (plug Q nil).inorder.Nodup)
    (hfresh : t.heap entry = none) (hblack : rbIsRed t.red t.root = false) :
    ∃ t', putLink t entry (slotOf Q) = some t' ∧ t'.red = Function.update t.red entry true ∧
      FixupInv t' Q (node entry nil nil) entry ∧
      ∀ x, x ≠ entry → x ∉ (plug Q nil).inorder → t'.heap x = t.heap x := by
  have hne : ∀ x ∈ (plug Q nil).inorder, x ≠ entry := fun x hx h => hL.allocated hx (h ▸ hfresh)
  have hnd' : (plug Q (node entry nil nil)).inorder.Nodup := by
    obtain ⟨-, hndP, -⟩ := nodup_plug.mp hnd
    refine nodup_plug.mpr ⟨by simp, hndP, fun x hx hxP => ?_⟩
    rw [inorder_node, inorder_nil, List.nil_append, List.mem_singleton] at hx
    exact hne x (mem_plug.mpr (.inr hxP)) hx
  have hred : ∀ x, Function.update t.red entry true x = true → x ≠ entry →
      (plug Q (node entry nil nil)).root ≠ some x := by
    intro x hx hxe hr
    rw [Function.update_of_ne hxe] at hx
    cases Q with
    | nil => exact hxe (Option.some.inj hr).symm
    | cons f fs =>
      rw [root_plug_cons f fs _ nil, hroot] at hr
      simp [hr, hx] at hblack
  cases Q with
  | nil =>
    refine ⟨⟨Function.update t.heap entry (some ⟨none, none, none⟩),
      Function.update t.red entry true, some entry⟩, rfl, rfl,
      ⟨⟨⟨_, Function.update_self .., rfl, rfl, rfl⟩, trivial, trivial⟩, rfl, hnd', rfl, hred⟩,
      fun x hx _ => Function.update_of_ne hx _ _⟩
  | cons f fs =>
    obtain ⟨⟨pe, hpe, hpep, -, hpo⟩, hsib, hfs⟩ := (links_plug.mp hL).1
    have hpn : f.parent ≠ entry := fun h => by rw [h, hfresh] at hpe; cases hpe
    have hpe0 : Function.update t.heap entry (some ⟨some f.parent, none, none⟩) f.parent =
        some pe := by rw [Function.update_of_ne hpn, hpe]
    obtain ⟨-, hndP, -⟩ := nodup_plug.mp hnd
    simp only [pathNodes, List.flatMap_cons, Frame.nodes, List.cons_append, List.nodup_cons,
      List.mem_append, not_or] at hndP
    have hin : ∀ x, x ∈ pathNodes (f :: fs) → x ∈ (plug (f :: fs) nil).inorder :=
      fun x hx => mem_plug.mpr (.inr hx)
    refine ⟨⟨Function.update (Function.update t.heap entry (some ⟨some f.parent, none, none⟩))
      f.parent (some (pe.setChild f.dir (some entry))), Function.update t.red entry true,
      t.root⟩, ?_, rfl, ⟨links_plug.mpr ⟨⟨⟨_, Function.update_self .., by rw [parent_setChild, hpep],
      child_setChild .., by rw [child_other_setChild, hpo]⟩, ?_, ?_⟩,
      ⟨⟨⟨some f.parent, none, none⟩, by dsimp only; rw [Function.update_of_ne hpn.symm,
        Function.update_self], rfl, rfl, rfl⟩,
      trivial, trivial⟩⟩, by rw [root_plug_cons f fs _ nil, hroot], hnd', rfl, hred⟩, ?_⟩
    · simp [putLink, slotOf, modify_eq hpe0]
    · refine hsib.congr_inorder fun x hx => ?_
      have hxe := hne x (hin x (by simp [pathNodes, Frame.nodes, hx]))
      dsimp only
      rw [Function.update_of_ne (ne_of_mem_of_not_mem hx hndP.1.1),
        Function.update_of_ne hxe]
    · refine hfs.congr fun x hx => ?_
      have hxe := hne x (hin x (by simp [pathNodes, Frame.nodes] at hx ⊢; simp [hx]))
      dsimp only
      rw [Function.update_of_ne (ne_of_mem_of_not_mem hx hndP.1.2),
        Function.update_of_ne hxe]
    · intro x hxe hx
      have hxp : x ≠ f.parent := fun h =>
        hx (hin x (by simp [pathNodes, Frame.nodes, h]))
      dsimp only
      rw [Function.update_of_ne hxp, Function.update_of_ne hxe]

theorem slotOf_ne_found (Q : List (Frame Nat)) : slotOf Q ≠ .found := by
  cases Q <;> simp [slotOf]

theorem rbPut_of_slot {t : Tree} {entry fuel : Nat} {slot : Slot}
    (hs : putSlot t compare fuel = some slot) (hnf : slot ≠ .found) :
    rbPut t compare entry fuel = (do
      let t ← putLink t entry slot
      let t ← putFixup fuel t entry
      let r ← t.root
      pure (0, setRed t r false)) := by
  cases slot with
  | found => exact absurd rfl hnf
  | root => simp [rbPut, hs]
  | child p d => simp [rbPut, hs]

/-- rb_put when an entry of the tree has the key: -1, and nothing is written. -/
theorem rbPut_found (hcmp : Compares keyOf key compare) {t : Tree} {T : BinaryTree Nat}
    {entry fuel : Nat} (hwf : WellFormed t.heap (KeyLt keyOf) t.root T)
    (hf : T.numNodes ≤ fuel) (hkey : ∃ x ∈ T.inorder, keyOf x = key) :
    rbPut t compare entry fuel = some (-1, t) := by
  rcases putSlot_spec hcmp hwf.links hwf.ordered hwf.root_eq hf with ⟨-, hs⟩ | ⟨hnot, -⟩
  · simp [rbPut, hs]
  · obtain ⟨x, hx, hkx⟩ := hkey
    exact absurd hkx (hnot x hx)

/-- The run of rb_put that links a fresh entry, for any invariant `I` of the walk that holds
once the entry is linked: it returns 0 and the tree the heap then links is well formed, with the
entry between the smaller keys and the larger ones, and where the walk stopped `I` holds. -/
theorem rbPut_run (I : (Nat → Bool) → List (Frame Nat) → BinaryTree Nat → Nat → Prop)
    (hI : ∀ {red P s e red' P' s' e'}, FixupMove red P s e red' P' s' e' → I red P s e →
      I red' P' s' e')
    (hcmp : Compares keyOf key compare) {t : Tree} {T : BinaryTree Nat} {entry fuel : Nat}
    (hwf : WellFormed t.heap (KeyLt keyOf) t.root T) (hblack : rbIsRed t.red t.root = false)
    (hfresh : t.heap entry = none) (hentry : keyOf entry = key)
    (hkey : ∀ x ∈ T.inorder, keyOf x ≠ key) (hf : T.numNodes < fuel)
    (hI0 : ∀ Q, T = plug Q nil → I (Function.update t.red entry true) Q (node entry nil nil) entry) :
    ∃ t' P' s' e' r, rbPut t compare entry fuel = some (0, setRed t' r false) ∧
      t'.root = some r ∧ WellFormed t'.heap (KeyLt keyOf) t'.root (plug P' s') ∧
      I t'.red P' s' e' ∧ rbIsRed t'.red (pathParent P') = false ∧
      (∃ l₁ l₂, T.inorder = l₁ ++ l₂ ∧ (plug P' s').inorder = l₁ ++ entry :: l₂) ∧
      ∀ x, x ≠ entry → x ∉ T.inorder → t'.heap x = t.heap x := by
  rcases putSlot_spec hcmp hwf.links hwf.ordered hwf.root_eq hf.le with
    ⟨⟨x, hx, hkx⟩, -⟩ | ⟨-, Q, rfl, hslot, hQl, hQr⟩
  · exact absurd hkx (hkey x hx)
  obtain ⟨t1, hlink, hred1, hinv1, hfr1⟩ :=
    putLink_spec hwf.links hwf.root_eq hwf.nodup hfresh hblack
  have hQf : Q.length < fuel := by
    have := length_le_numNodes_plug Q nil
    rw [numNodes_nil] at this
    omega
  obtain ⟨t2, P', s', e', hfix, hinv2, hi2, hstop, hin2, hfr2⟩ :=
    putFixup_spec I hI fuel hinv1 (hred1 ▸ hI0 Q rfl) hQf
  obtain ⟨r, hr⟩ := root_plug_of_root (P := P') hinv2.focus
  rw [hinv2.root_eq] at hr
  have hTin : (plug Q nil).inorder = pathLeft Q ++ pathRight Q := by simp [inorder_plug]
  have hTin' : (plug P' s').inorder = pathLeft Q ++ entry :: pathRight Q := by
    rw [hin2, inorder_plug]
    simp
  have : IsTrans Nat (KeyLt keyOf) := ⟨fun _ _ _ => lt_trans⟩
  have hsorted := hwf.ordered.inorder_pairwise
  rw [hTin, List.pairwise_append] at hsorted
  refine ⟨t2, P', s', e', r, ?_, hr, ⟨hinv2.links, hinv2.root_eq, hinv2.nodup,
    searchTree_of_pairwise ?_⟩, hi2, hstop, ⟨pathLeft Q, pathRight Q, hTin, hTin'⟩, ?_⟩
  · rw [rbPut_of_slot hslot (slotOf_ne_found Q)]
    simp [hlink, hfix, hr]
  · rw [hTin', List.pairwise_append, List.pairwise_cons]
    refine ⟨hsorted.1, ⟨fun y hy => ?_, hsorted.2.1⟩, fun x hx y hy => ?_⟩
    · show keyOf entry < keyOf y
      rw [hentry]
      exact hQr y hy
    · rcases List.mem_cons.mp hy with rfl | hy
      · show keyOf x < keyOf y
        rw [hentry]
        exact hQl x hx
      · exact hsorted.2.2 x hx y hy
  · intro x hxe hx
    have hx' : x ∉ (plug Q (node entry nil nil)).inorder := by
      intro h
      rcases mem_plug.mp h with h | h
      · exact hxe (by simpa using h)
      · exact hx (mem_plug.mpr (.inr h))
    exact (hfr2 x hx').trans (hfr1 x hxe hx)

/-- rb_put of a fresh entry whose key no entry of the tree has, into a tree with a black root:
0, and a well-formed tree again with a black root, whose in-order list is the old one with the
entry between the smaller keys and the larger ones; no entry outside the old tree but the new
one is written. -/
theorem rbPut_insert (hcmp : Compares keyOf key compare) {t : Tree} {T : BinaryTree Nat}
    {entry fuel : Nat} (hwf : WellFormed t.heap (KeyLt keyOf) t.root T)
    (hblack : rbIsRed t.red t.root = false) (hfresh : t.heap entry = none)
    (hentry : keyOf entry = key) (hkey : ∀ x ∈ T.inorder, keyOf x ≠ key)
    (hf : T.numNodes < fuel) :
    ∃ t' T' l₁ l₂, rbPut t compare entry fuel = some (0, t') ∧
      WellFormed t'.heap (KeyLt keyOf) t'.root T' ∧ T.inorder = l₁ ++ l₂ ∧
      T'.inorder = l₁ ++ entry :: l₂ ∧ rbIsRed t'.red t'.root = false ∧
      ∀ x, x ≠ entry → x ∉ T.inorder → t'.heap x = t.heap x := by
  obtain ⟨t2, P', s', -, r, hrun, hr, hwf', -, -, ⟨l₁, l₂, hT, hT'⟩, hfr⟩ :=
    rbPut_run (fun _ _ _ _ => True) (fun _ _ => trivial) hcmp hwf hblack hfresh hentry hkey hf
      fun _ _ => trivial
  exact ⟨setRed t2 r false, plug P' s', l₁, l₂, hrun, hwf', hT, hT', by simp [setRed, hr], hfr⟩

theorem rbPut_spec (hcmp : Compares keyOf key compare) {t : Tree} {T : BinaryTree Nat}
    {entry fuel : Nat} (hwf : WellFormed t.heap (KeyLt keyOf) t.root T)
    (hrb : IsRedBlack t.red T) (hfresh : t.heap entry = none) (hentry : keyOf entry = key)
    (hkey : ∀ x ∈ T.inorder, keyOf x ≠ key) (hf : T.numNodes < fuel) :
    ∃ t' T' l₁ l₂, rbPut t compare entry fuel = some (0, t') ∧
      WellFormed t'.heap (KeyLt keyOf) t'.root T' ∧ IsRedBlack t'.red T' ∧
      T.inorder = l₁ ++ l₂ ∧ T'.inorder = l₁ ++ entry :: l₂ ∧
      ∀ x, x ≠ entry → x ∉ T.inorder → t'.heap x = t.heap x := by
  have hblack : rbIsRed t.red t.root = false := by
    rw [← hwf.root_eq, rbIsRed_root]
    exact hrb.root_black
  obtain ⟨n, hn⟩ := hrb.balanced
  have hne : entry ∉ T.inorder := fun h => hwf.links.allocated h hfresh
  obtain ⟨t2, P', s', e', r, hrun, hr, hwf', hrb', hstop, ⟨l₁, l₂, hT, hT'⟩, hfr⟩ :=
    rbPut_run (fun red P s e => RBFixInv red P s e) (fun hm hi => hm.rbFixInv hi) hcmp hwf
      hblack hfresh hentry hkey hf fun Q hQ => by
        subst hQ
        exact RBFixInv.link hrb.noRedRed hn hwf.nodup hne
  have hstop' : ∀ f ∈ P'.head?, t2.red f.parent = false := by
    intro f hf'
    cases P' with
    | nil => cases hf'
    | cons f' fs =>
      cases hf'
      exact hstop
  exact ⟨setRed t2 r false, plug P' s', l₁, l₂, hrun, hwf',
    hrb'.isRedBlack hstop' (hwf'.root_eq.trans hr), hT, hT', hfr⟩

/-- rb_put of a fresh entry whose key no entry of the tree has, into a red-black tree: 0, and
the well-formed tree it links is red-black again: one black height, no red entry with a red
child, the root black. -/
theorem rbPut_redBlack (hcmp : Compares keyOf key compare) {t : Tree} {T : BinaryTree Nat}
    {entry fuel : Nat} (hwf : WellFormed t.heap (KeyLt keyOf) t.root T)
    (hrb : IsRedBlack t.red T) (hfresh : t.heap entry = none) (hentry : keyOf entry = key)
    (hkey : ∀ x ∈ T.inorder, keyOf x ≠ key) (hf : T.numNodes < fuel) :
    ∃ t' T', rbPut t compare entry fuel = some (0, t') ∧
      WellFormed t'.heap (KeyLt keyOf) t'.root T' ∧ IsRedBlack t'.red T' := by
  obtain ⟨t', T', -, -, hrun, hwf', hrb', -⟩ := rbPut_spec hcmp hwf hrb hfresh hentry hkey hf
  exact ⟨t', T', hrun, hwf', hrb'⟩

end Put

def threeRed (x : Nat) : Bool := x == 0 || x == 2

theorem threeTree_redBlack : IsRedBlack threeRed threeTree :=
  ⟨⟨1, 0, ⟨0, rfl, rfl, rfl⟩, ⟨0, rfl, rfl, rfl⟩, rfl⟩,
    by simp [threeTree, NoRedRed, threeRed], rfl⟩

theorem rbPut_found_three : Compares id 2 (keyCompare 2) ∧
    WellFormed threeHeap (KeyLt id) (some 1) threeTree ∧ threeTree.numNodes ≤ 4 ∧
    (∃ x ∈ threeTree.inorder, id x = 2) ∧
    rbPut ⟨threeHeap, threeRed, some 1⟩ (keyCompare 2) 3 4 =
      some (-1, ⟨threeHeap, threeRed, some 1⟩) :=
  ⟨compares_keyCompare 2, threeTree_keyLt, by decide, ⟨2, by decide, rfl⟩,
    rbPut_found (compares_keyCompare 2) threeTree_keyLt (by decide) ⟨2, by decide, rfl⟩⟩

/-- Entry 3 goes right of 2, both children of the root being red: one flip of the colours. -/
theorem rbPut_insert_three : Compares id 3 (keyCompare 3) ∧
    WellFormed threeHeap (KeyLt id) (some 1) threeTree ∧ rbIsRed threeRed (some 1) = false ∧
    threeHeap 3 = none ∧ id 3 = 3 ∧ (∀ x ∈ threeTree.inorder, id x ≠ 3) ∧
    threeTree.numNodes < 4 ∧
    ∃ t' T' l₁ l₂, rbPut ⟨threeHeap, threeRed, some 1⟩ (keyCompare 3) 3 4 = some (0, t') ∧
      WellFormed t'.heap (KeyLt id) t'.root T' ∧ threeTree.inorder = l₁ ++ l₂ ∧
      T'.inorder = l₁ ++ 3 :: l₂ ∧ rbIsRed t'.red t'.root = false ∧
      ∀ x, x ≠ 3 → x ∉ threeTree.inorder → t'.heap x = threeHeap x :=
  ⟨compares_keyCompare 3, threeTree_keyLt, rfl, rfl, rfl, by decide, by decide,
    rbPut_insert (compares_keyCompare 3) threeTree_keyLt rfl rfl rfl (by decide) (by decide)⟩

/-- The same insertion from the red-black colouring of the three entries. -/
theorem rbPut_redBlack_three : Compares id 3 (keyCompare 3) ∧
    WellFormed threeHeap (KeyLt id) (some 1) threeTree ∧ IsRedBlack threeRed threeTree ∧
    threeHeap 3 = none ∧ id 3 = 3 ∧ (∀ x ∈ threeTree.inorder, id x ≠ 3) ∧
    threeTree.numNodes < 4 ∧
    ∃ t' T', rbPut ⟨threeHeap, threeRed, some 1⟩ (keyCompare 3) 3 4 = some (0, t') ∧
      WellFormed t'.heap (KeyLt id) t'.root T' ∧ IsRedBlack t'.red T' :=
  ⟨compares_keyCompare 3, threeTree_keyLt, threeTree_redBlack, rfl, rfl, by decide, by decide,
    rbPut_redBlack (compares_keyCompare 3) threeTree_keyLt threeTree_redBlack rfl rfl (by decide)
      (by decide)⟩

example : (rbPut ⟨threeHeap, threeRed, some 1⟩ (keyCompare 3) 3 4).map
    (fun r => (r.1, r.2.root, r.2.red 0, r.2.red 1, r.2.red 2, r.2.red 3, r.2.heap 2)) =
      some (0, some 1, false, false, false, true, some ⟨some 1, none, some 3⟩) := rfl

end Wine.RbTree
