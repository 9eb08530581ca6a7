import Wine.Lib.RedBlack

/-!
# Removing a node from a red-black colouring

Bottom-up removal unlinks a node that has at most one child and puts that child's subtree in its
place; a node with two children first trades places with the first node of its right subtree.
When the unlinked node was black, every path through the subtree in its place passes one black
node too few: the subtree at the focus is short. The walk that repairs it looks at the focus's
sibling. A red sibling is rotated up over the parent, which leaves a black sibling under a red
parent. A black sibling with two black children turns red, and the parent's subtree is then the
short one. A black sibling with a red child on the far side is rotated up in the parent's place
and takes its colour, and the walk ends; one whose near child only is red first has that child
rotated up in its own place. The walk also ends at a red focus, whose root turns black, and at
the root.

`PathHeight red P m n` says that a subtree of black height `m` at the end of the path `P` makes a
tree of black height `n`. `EraseInv` is the invariant of the walk: the focus is one black node
short of what the path asks for, and no red node has a red child once the focus's root is painted
black. Where the walk ends the tree is red-black but for the colour of its root (`RedBlackBelow`).
-/

set_option autoImplicit false

namespace BinaryTree

variable {α : Type}

/-- A subtree of black height `m` at the end of the path makes a tree of black height `n`. -/
def PathHeight (red : α → Bool) : List (Frame α) → Nat → Nat → Prop
  | [], m, n => m = n
  | f :: fs, m, n => BlackHeight red f.sibling m ∧
      PathHeight red fs (m + if red f.parent then 0 else 1) n

section Heights

variable {red red' : α → Bool}

theorem pathHeight_append {Q R : List (Frame α)} {m n : Nat} :
    PathHeight red (Q ++ R) m n ↔ ∃ k, PathHeight red Q m k ∧ PathHeight red R k n := by
  induction Q generalizing m with
  | nil => simp [PathHeight]
  | cons f fs ih => simp only [List.cons_append, PathHeight, ih, and_assoc, exists_and_left]

theorem BlackHeight.plug_height {P : List (Frame α)} {s : BinaryTree α} {m n : Nat}
    (hs : BlackHeight red s m) (hP : PathHeight red P m n) : BlackHeight red (plug P s) n := by
  induction P generalizing s m with
  | nil => exact hP ▸ hs
  | cons f fs ih => exact ih (blackHeight_make.mpr ⟨m, hs, hP.1, rfl⟩) hP.2

theorem BlackHeight.pathHeight {P : List (Frame α)} {s : BinaryTree α} {m n : Nat}
    (h : BlackHeight red (plug P s) n) (hs : BlackHeight red s m) : PathHeight red P m n := by
  induction P generalizing s m with
  | nil => exact hs.unique h
  | cons f fs ih =>
    obtain ⟨k, hk⟩ := BlackHeight.plug_focus (P := fs) h
    obtain ⟨m', hs', hsib, hkm⟩ := blackHeight_make.mp hk
    obtain rfl := hs.unique hs'
    refine ⟨hsib, ?_⟩
    rw [← hkm]
    exact ih h hk

theorem PathHeight.congr {P : List (Frame α)} {m n : Nat}
    (hagree : ∀ x ∈ pathNodes P, red' x = red x) (h : PathHeight red P m n) :
    PathHeight red' P m n := by
  induction P generalizing m with
  | nil => exact h
  | cons f fs ih =>
    simp only [pathNodes, List.flatMap_cons, Frame.nodes, List.cons_append, List.mem_cons,
      List.mem_append] at hagree
    refine ⟨h.1.congr fun x hx => hagree x (.inr (.inl hx)), ?_⟩
    rw [hagree f.parent (.inl rfl)]
    exact ih (fun x hx => hagree x (.inr (.inr hx))) h.2

theorem BlackHeight.pos_ne_nil {t : BinaryTree α} {m : Nat} (h : BlackHeight red t (m + 1)) :
    t ≠ nil := by
  rintro rfl
  cases h

theorem BlackHeight.eq_nil {t : BinaryTree α} (h : BlackHeight red t 0)
    (hr : redRoot red t = false) : t = nil := by
  cases t with
  | nil => rfl
  | node x l r =>
    obtain ⟨m, -, -, hm⟩ := h
    rw [redRoot, root_node] at hr
    simp [hr] at hm

end Heights

/-! ## Colourings with no exception around a position -/

section Plug

variable {red red' : α → Bool}

theorem NoRedRed.congr : ∀ {t : BinaryTree α}, (∀ x ∈ t.inorder, red' x = red x) →
    NoRedRed red t → NoRedRed red' t
  | nil, _, _ => trivial
  | node x l r, hagree, ⟨hl, hr, hx⟩ => by
    have hl' : ∀ y ∈ l.inorder, red' y = red y := fun y hy => hagree y (by simp [hy])
    have hr' : ∀ y ∈ r.inorder, red' y = red y := fun y hy => hagree y (by simp [hy])
    refine ⟨hl.congr hl', hr.congr hr', fun h => ?_⟩
    rw [hagree x (by simp)] at h
    rw [redRoot_congr hl', redRoot_congr hr']
    exact hx h

theorem NoRedRed.plug_focus {P : List (Frame α)} {s : BinaryTree α}
    (h : NoRedRed red (plug P s)) : NoRedRed red s := by
  induction P generalizing s with
  | nil => exact h
  | cons f fs ih => exact (noRedRed_make.mp (ih h)).1

theorem NoRedRed.plug_head {f : Frame α} {fs : List (Frame α)} {s : BinaryTree α}
    (h : NoRedRed red (plug (f :: fs) s)) (hr : red f.parent = true) : redRoot red s = false :=
  ((noRedRed_make.mp (NoRedRed.plug_focus (P := fs) h)).2.2 hr).1

theorem NoRedRed.plug_congr : ∀ {P : List (Frame α)} {s s' : BinaryTree α},
    NoRedRed red (plug P s) → NoRedRed red' s' → (∀ x ∈ pathNodes P, red' x = red x) →
    (∀ f ∈ P.head?, red f.parent = true → redRoot red' s' = false) → NoRedRed red' (plug P s')
  | [], _, _, _, hs', _, _ => hs'
  | f :: fs, s, s', h, hs', hagree, hhead => by
    simp only [pathNodes, List.flatMap_cons, Frame.nodes, List.cons_append, List.mem_cons,
      List.mem_append] at hagree
    obtain ⟨-, hsib, hpar⟩ := noRedRed_make.mp (NoRedRed.plug_focus (P := fs) h)
    have hsib' : ∀ x ∈ f.sibling.inorder, red' x = red x := fun x hx => hagree x (.inr (.inl hx))
    have hp : red' f.parent = red f.parent := hagree f.parent (.inl rfl)
    refine NoRedRed.plug_congr (P := fs) (s := f.attach s) h
      (noRedRed_make.mpr ⟨hs', hsib.congr hsib', fun hr => ?_⟩)
      (fun x hx => hagree x (.inr (.inr hx))) ?_
    · rw [hp] at hr
      exact ⟨hhead f rfl hr, by rw [redRoot_congr hsib']; exact (hpar hr).2⟩
    · intro g hg hr
      cases fs with
      | nil => cases hg
      | cons g' gs =>
        cases hg
        have h' : NoRedRed red (plug (g :: gs) (f.attach s)) := h
        have hf := h'.plug_head hr
        rw [redRoot_of_root (root_attach f s)] at hf
        rw [redRoot_of_root (root_attach f s'), hp, hf]

theorem nodup_frame {d : Dir} {p w : α} {s N F : BinaryTree α} {fs : List (Frame α)}
    (h : (plug fs (make d p s (make d w N F))).inorder.Nodup) :
    p ≠ w ∧ (∀ y, y ∈ s.inorder ∨ y ∈ N.inorder ∨ y ∈ F.inorder ∨ y ∈ pathNodes fs →
      y ≠ p ∧ y ≠ w) ∧
    (∀ y ∈ N.inorder, y ∉ s.inorder ∧ y ∉ F.inorder ∧ y ∉ pathNodes fs) ∧
    (∀ y ∈ F.inorder, y ∉ s.inorder ∧ y ∉ pathNodes fs) ∧ N.inorder.Nodup ∧ F.inorder.Nodup := by
  obtain ⟨hT, -, hdisj⟩ := nodup_plug.mp h
  have hT' : (make d.other p (make d w N F) s).inorder.Nodup := by rwa [make_other]
  obtain ⟨hpw, hpN, hpF, hps, hwN, hwF, hws, hNFs, hFs, hNnd, hFnd, -⟩ := nodup_make_make hT'
  have hmem : ∀ x, x = p ∨ x = w ∨ x ∈ N.inorder ∨ x ∈ F.inorder →
      x ∈ (make d p s (make d w N F)).inorder := by
    intro x hx
    rw [(inorder_make_perm ..).mem_iff, List.mem_cons, List.mem_append,
      (inorder_make_perm ..).mem_iff, List.mem_cons, List.mem_append]
    rcases hx with hx | hx | hx | hx
    · exact .inl hx
    · exact .inr (.inr (.inl hx))
    · exact .inr (.inr (.inr (.inl hx)))
    · exact .inr (.inr (.inr (.inr hx)))
  refine ⟨hpw, fun y hy => ?_, fun y hy => ⟨(hNFs y hy).2, (hNFs y hy).1,
    hdisj y (hmem y (.inr (.inr (.inl hy))))⟩, fun y hy => ⟨hFs y hy,
    hdisj y (hmem y (.inr (.inr (.inr hy))))⟩, hNnd, hFnd⟩
  rcases hy with hy | hy | hy | hy
  · exact ⟨ne_of_mem_of_not_mem hy hps, ne_of_mem_of_not_mem hy hws⟩
  · exact ⟨ne_of_mem_of_not_mem hy hpN, ne_of_mem_of_not_mem hy hwN⟩
  · exact ⟨ne_of_mem_of_not_mem hy hpF, ne_of_mem_of_not_mem hy hwF⟩
  · exact ⟨fun e => hdisj p (hmem p (.inl rfl)) (e ▸ hy),
      fun e => hdisj w (hmem w (.inr (.inl rfl))) (e ▸ hy)⟩

theorem NoRedRed.head_black {P : List (Frame α)} {s : BinaryTree α}
    (h : NoRedRed red (plug P s)) : ∀ f ∈ P.head?, red f.parent = true → redRoot red s = false := by
  intro f hf hr
  cases P with
  | nil => cases hf
  | cons g gs =>
    cases hf
    exact h.plug_head hr

theorem inorder_make_make (d : Dir) (a b : α) (X Y Z : BinaryTree α) :
    (make d a (make d b X Y) Z).inorder = (make d b X (make d a Y Z)).inorder := by
  cases d <;> simp

end Plug

/-! ## Painting a root black -/

section Paint

variable [DecidableEq α] {red : α → Bool}

/-- The colouring with the root of `t` black. -/
def paintRoot (red : α → Bool) (t : BinaryTree α) : α → Bool :=
  match t.root with
  | none => red
  | some e => Function.update red e false

theorem paintRoot_of_root {t : BinaryTree α} {e : α} (h : t.root = some e) :
    paintRoot red t = Function.update red e false := by
  simp [paintRoot, h]

theorem paintRoot_of_black {t : BinaryTree α} (h : redRoot red t = false) :
    paintRoot red t = red := by
  cases hr : t.root with
  | none => simp [paintRoot, hr]
  | some e =>
    rw [redRoot_of_root hr] at h
    rw [paintRoot_of_root hr, ← h, Function.update_eq_self]

theorem paintRoot_of_ne {t : BinaryTree α} {x : α} (h : t.root ≠ some x) :
    paintRoot red t x = red x := by
  cases hr : t.root with
  | none => simp [paintRoot, hr]
  | some e =>
    rw [paintRoot_of_root hr]
    exact Function.update_of_ne (fun hx => h (by rw [hx]; exact hr)) _ _

@[simp] theorem redRoot_paintRoot (t : BinaryTree α) : redRoot (paintRoot red t) t = false := by
  cases hr : t.root with
  | none => simp [redRoot, hr]
  | some e => simp [redRoot_of_root hr, paintRoot_of_root hr]

theorem paintRoot_update {t : BinaryTree α} {i : α} (b : Bool) (hi : t.root ≠ some i) :
    paintRoot (Function.update red i b) t = Function.update (paintRoot red t) i b := by
  cases hr : t.root with
  | none => simp [paintRoot, hr]
  | some e =>
    rw [paintRoot_of_root hr, paintRoot_of_root hr]
    exact Function.update_comm (fun h => hi (by rw [h]; exact hr)) _ _ _

theorem NoRedRed.paintRoot {t : BinaryTree α} (h : NoRedRed red t) :
    NoRedRed (paintRoot red t) t := by
  cases hr : t.root with
  | none => simpa [BinaryTree.paintRoot, hr] using h
  | some e => rw [paintRoot_of_root hr]; exact h.blacken

theorem BlackHeight.paintRoot {t : BinaryTree α} {m : Nat} (h : BlackHeight red t m)
    (hred : redRoot red t = true) (hnd : t.inorder.Nodup) :
    BlackHeight (BinaryTree.paintRoot red t) t (m + 1) := by
  cases t with
  | nil => simp at hred
  | node e l r =>
    obtain ⟨k, hl, hr, rfl⟩ := h
    rw [redRoot, root_node] at hred
    rw [inorder_node] at hnd
    obtain ⟨hel, her⟩ := Walk.not_mem_of_nodup_split hnd
    rw [paintRoot_of_root (root_node e l r)]
    exact ⟨k, hl.congr fun z hz => Function.update_of_ne (ne_of_mem_of_not_mem hz hel) _ _,
      hr.congr fun z hz => Function.update_of_ne (ne_of_mem_of_not_mem hz her) _ _, by simp [hred]⟩

end Paint

/-! ## The invariant of the walk -/

section Walk

variable [DecidableEq α] {red : α → Bool}

/-- A red-black colouring but for the colour of the root, with no node twice. -/
structure RedBlackBelow (red : α → Bool) (t : BinaryTree α) : Prop where
  balanced : ∃ n, BlackHeight red t n
  noRedRed : NoRedRed red t
  nodup : t.inorder.Nodup

/-- The walk's invariant: the focus is one black node short of what the path above asks for, and
no red node has a red child once the focus's root is painted black. -/
structure EraseInv (red : α → Bool) (P : List (Frame α)) (s : BinaryTree α) : Prop where
  short : ∃ m n, BlackHeight red s m ∧ PathHeight red P (m + 1) n
  noRedRed : NoRedRed (paintRoot red s) (plug P s)
  nodup : (plug P s).inorder.Nodup

theorem RedBlackBelow.isRedBlack {t : BinaryTree α} (h : RedBlackBelow red t) :
    IsRedBlack (paintRoot red t) t := by
  obtain ⟨n, hn⟩ := h.balanced
  cases hr : t.root with
  | none =>
    rw [paintRoot, hr]
    exact ⟨⟨n, hn⟩, h.noRedRed, by simp [redRoot, hr]⟩
  | some r =>
    rw [paintRoot_of_root hr]
    exact ⟨hn.blacken_root hr h.nodup, h.noRedRed.blacken, by simp [redRoot_of_root hr]⟩

theorem EraseInv.stop {P : List (Frame α)} {s : BinaryTree α} (h : EraseInv red P s)
    (hstop : P = [] ∨ redRoot red s = true) : RedBlackBelow (paintRoot red s) (plug P s) := by
  obtain ⟨m, n, hs, hP⟩ := h.short
  obtain ⟨hnds, -, hdisj⟩ := nodup_plug.mp h.nodup
  refine ⟨?_, h.noRedRed, h.nodup⟩
  rcases hstop with rfl | hred
  · cases hr : s.root with
    | none => exact ⟨m, by rw [paintRoot, hr]; exact hs⟩
    | some r =>
      obtain ⟨k, hk⟩ := hs.blacken_root hr hnds
      exact ⟨k, by rw [paintRoot_of_root hr]; exact hk⟩
  · have hagree : ∀ x ∈ pathNodes P, paintRoot red s x = red x := fun x hx =>
      paintRoot_of_ne fun hr => hdisj x (root_mem_inorder hr) hx
    exact ⟨n, (hs.paintRoot hred hnds).plug_height (hP.congr hagree)⟩

theorem EraseInv.black_head {d : Dir} {p : α} {W s : BinaryTree α} {fs : List (Frame α)}
    (h : EraseInv red (⟨d, p, W⟩ :: fs) s) (hs : redRoot red s = false) :
    ∃ m n, BlackHeight red s m ∧ BlackHeight red W (m + 1) ∧
      PathHeight red fs (m + 1 + if red p then 0 else 1) n ∧
      NoRedRed red (plug fs (make d p s W)) := by
  obtain ⟨m, n, hsm, hW, hfs⟩ := h.short
  have hnr := h.noRedRed
  rw [paintRoot_of_black hs] at hnr
  exact ⟨m, n, hsm, hW, hfs, hnr⟩

theorem BlackHeight.congr_update {t : BinaryTree α} {m : Nat} {a : α} (b : Bool)
    (h : BlackHeight red t m) (ha : a ∉ t.inorder) :
    BlackHeight (Function.update red a b) t m :=
  h.congr fun _ hy => Function.update_of_ne (ne_of_mem_of_not_mem hy ha) _ _

end Walk


/-! ## The moves of the walk -/

section Moves

variable [DecidableEq α] {red : α → Bool} {d : Dir} {p w : α} {s N F : BinaryTree α}
  {fs : List (Frame α)}

/-- A red sibling: it turns black and comes up over the parent, which turns red; the focus keeps
its place below the parent, whose new sibling is the red sibling's near child. -/
theorem EraseInv.rotateRed (h : EraseInv red (⟨d, p, make d w N F⟩ :: fs) s)
    (hs : redRoot red s = false) (hw : red w = true) :
    EraseInv (Function.update (Function.update red w false) p true)
      (⟨d, p, N⟩ :: ⟨d, w, F⟩ :: fs) s := by
  obtain ⟨m, n, hsm, hW, hfs, hnr⟩ := h.black_head hs
  obtain ⟨hpw, hout, -⟩ := nodup_frame h.nodup
  obtain ⟨k, hN, hF, hk⟩ := blackHeight_make.mp hW
  simp only [hw, if_true, Nat.add_zero] at hk
  subst hk
  obtain ⟨hsnr, hWnr, hpc⟩ := noRedRed_make.mp hnr.plug_focus
  obtain ⟨hNnr, hFnr, hwc⟩ := noRedRed_make.mp hWnr
  have hp : red p = false := by
    cases hpr : red p
    · rfl
    · have := (hpc hpr).2
      rw [redRoot_make, hw] at this
      cases this
  have hagree : ∀ y, y ≠ p ∧ y ≠ w →
      Function.update (Function.update red w false) p true y = red y := fun y hy => by
    rw [Function.update_of_ne hy.1, Function.update_of_ne hy.2]
  have hs' : ∀ y ∈ s.inorder, _ := fun y hy => hagree y (hout y (.inl hy))
  have hN' : ∀ y ∈ N.inorder, _ := fun y hy => hagree y (hout y (.inr (.inl hy)))
  have hF' : ∀ y ∈ F.inorder, _ := fun y hy => hagree y (hout y (.inr (.inr (.inl hy))))
  have hP' : ∀ y ∈ pathNodes fs, _ := fun y hy => hagree y (hout y (.inr (.inr (.inr hy))))
  have hrp : Function.update (Function.update red w false) p true p = true := by simp
  have hrw : Function.update (Function.update red w false) p true w = false := by
    simp [Ne.symm hpw]
  have hsb : redRoot (Function.update (Function.update red w false) p true) s = false := by
    rw [redRoot_congr hs', hs]
  refine ⟨⟨m, n, hsm.congr hs', hN.congr hN', by simpa [hrp] using hF.congr hF',
    by simpa [hrp, hrw, hp] using hfs.congr hP'⟩, ?_, ?_⟩
  · rw [paintRoot_of_black hsb]
    refine NoRedRed.plug_congr (P := fs) hnr (noRedRed_make.mpr ⟨noRedRed_make.mpr
      ⟨hsnr.congr hs', hNnr.congr hN', fun _ => ⟨hsb, ?_⟩⟩, hFnr.congr hF', fun h => ?_⟩) hP'
      fun _ _ _ => by rw [redRoot_of_root (root_attach _ _)]; exact hrw
    · rw [redRoot_congr hN']
      exact (hwc hw).1
    · rw [hrw] at h
      cases h
  · have hin := inorder_plug_congr fs (inorder_make_make d w p s N F)
    exact hin ▸ h.nodup

/-- A black sibling with two black children: it turns red, and the parent's subtree, now of one
black height, is the short one. -/
theorem EraseInv.climb (h : EraseInv red (⟨d, p, make d w N F⟩ :: fs) s)
    (hs : redRoot red s = false) (hw : red w = false) (hN : redRoot red N = false)
    (hF : redRoot red F = false) :
    EraseInv (Function.update red w true) fs (make d p s (make d w N F)) := by
  obtain ⟨m, n, hsm, hW, hfs, hnr⟩ := h.black_head hs
  obtain ⟨hpw, hout, -⟩ := nodup_frame h.nodup
  obtain ⟨k, hNk, hFk, hk⟩ := blackHeight_make.mp hW
  simp only [hw, Bool.false_eq_true, if_false, Nat.add_right_cancel_iff] at hk
  subst hk
  obtain ⟨hsnr, hWnr, -⟩ := noRedRed_make.mp hnr.plug_focus
  obtain ⟨hNnr, hFnr, -⟩ := noRedRed_make.mp hWnr
  have hs' : ∀ y ∈ s.inorder, Function.update red w true y = red y := fun y hy =>
    Function.update_of_ne (hout y (.inl hy)).2 _ _
  have hN' : ∀ y ∈ N.inorder, Function.update red w true y = red y := fun y hy =>
    Function.update_of_ne (hout y (.inr (.inl hy))).2 _ _
  have hF' : ∀ y ∈ F.inorder, Function.update red w true y = red y := fun y hy =>
    Function.update_of_ne (hout y (.inr (.inr (.inl hy)))).2 _ _
  have hP' : ∀ y ∈ pathNodes fs, Function.update red w true y = red y := fun y hy =>
    Function.update_of_ne (hout y (.inr (.inr (.inr hy)))).2 _ _
  have hrp : Function.update red w true p = red p := Function.update_of_ne hpw _ _
  refine ⟨⟨m + if red p then 0 else 1, n, blackHeight_make.mpr ⟨m, hsm.congr hs',
    blackHeight_make.mpr ⟨m, hNk.congr hN', hFk.congr hF', by simp⟩, by rw [hrp]⟩, ?_⟩, ?_, h.nodup⟩
  · rw [Nat.add_right_comm]
    exact hfs.congr hP'
  rw [paintRoot_of_root (root_make ..)]
  have hag : ∀ y, y ≠ p → y ≠ w →
      Function.update (Function.update red w true) p false y = red y := fun y h1 h2 => by
    rw [Function.update_of_ne h1, Function.update_of_ne h2]
  have hblack : ∀ t : BinaryTree α, (∀ y ∈ t.inorder, y ≠ p ∧ y ≠ w) →
      redRoot red t = false → redRoot (Function.update (Function.update red w true) p false) t = false :=
    fun t ht hr => by rw [redRoot_congr fun y hy => hag y (ht y hy).1 (ht y hy).2, hr]
  refine NoRedRed.plug_congr (P := fs) hnr (noRedRed_make.mpr ⟨hsnr.congr fun y hy =>
    hag y (hout y (.inl hy)).1 (hout y (.inl hy)).2, noRedRed_make.mpr ⟨hNnr.congr fun y hy =>
    hag y (hout y (.inr (.inl hy))).1 (hout y (.inr (.inl hy))).2, hFnr.congr fun y hy =>
    hag y (hout y (.inr (.inr (.inl hy)))).1 (hout y (.inr (.inr (.inl hy)))).2,
    fun _ => ⟨hblack N (fun y hy => hout y (.inr (.inl hy))) hN,
      hblack F (fun y hy => hout y (.inr (.inr (.inl hy)))) hF⟩⟩, fun h => by simp at h⟩)
    (fun y hy => hag y (hout y (.inr (.inr (.inr hy)))).1 (hout y (.inr (.inr (.inr hy)))).2)
    fun _ _ _ => by simp

/-- A black sibling whose near child only is red: the near child turns black and comes up in the
sibling's place, and the sibling, now red, goes down on the far side. -/
theorem EraseInv.rotateNear {n : α} {N₁ N₂ : BinaryTree α}
    (h : EraseInv red (⟨d, p, make d w (make d n N₁ N₂) F⟩ :: fs) s)
    (hs : redRoot red s = false) (hw : red w = false) (hn : red n = true)
    (hF : redRoot red F = false) :
    EraseInv (Function.update (Function.update red n false) w true)
      (⟨d, p, make d n N₁ (make d w N₂ F)⟩ :: fs) s := by
  obtain ⟨m, k, hsm, hW, hfs, hnr⟩ := h.black_head hs
  obtain ⟨hpw, hout, hNout, -, hNnd, -⟩ := nodup_frame h.nodup
  have hnN : n ∈ (make d n N₁ N₂).inorder := root_mem_inorder (root_make ..)
  obtain ⟨hnp, hnw⟩ := hout n (.inr (.inl hnN))
  obtain ⟨hns, hnF, hnP⟩ := hNout n hnN
  rw [(inorder_make_perm ..).nodup_iff, List.nodup_cons, List.mem_append, not_or] at hNnd
  obtain ⟨⟨hn1, hn2⟩, -⟩ := hNnd
  obtain ⟨j, hNj, hFj, hj⟩ := blackHeight_make.mp hW
  simp only [hw, Bool.false_eq_true, if_false, Nat.add_right_cancel_iff] at hj
  subst hj
  obtain ⟨i, hN₁, hN₂, hi⟩ := blackHeight_make.mp hNj
  simp only [hn, if_true, Nat.add_zero] at hi
  subst hi
  obtain ⟨hsnr, hWnr, -⟩ := noRedRed_make.mp hnr.plug_focus
  obtain ⟨hNnr, hFnr, -⟩ := noRedRed_make.mp hWnr
  obtain ⟨hN₁nr, hN₂nr, hnc⟩ := noRedRed_make.mp hNnr
  have hag : ∀ y, y ≠ n → y ≠ w →
      Function.update (Function.update red n false) w true y = red y := fun y h1 h2 => by
    rw [Function.update_of_ne h2, Function.update_of_ne h1]
  have hsub : ∀ y, y ∈ N₁.inorder ∨ y ∈ N₂.inorder → y ∈ (make d n N₁ N₂).inorder := fun y hy =>
    (inorder_make_perm ..).mem_iff.mpr (List.mem_cons_of_mem _ (List.mem_append.mpr hy))
  have hs' : ∀ y ∈ s.inorder, _ := fun y hy =>
    hag y (fun e => hns (e ▸ hy)) (hout y (.inl hy)).2
  have hN₁' : ∀ y ∈ N₁.inorder, _ := fun y hy =>
    hag y (fun e => hn1 (e ▸ hy)) (hout y (.inr (.inl (hsub y (.inl hy))))).2
  have hN₂' : ∀ y ∈ N₂.inorder, _ := fun y hy =>
    hag y (fun e => hn2 (e ▸ hy)) (hout y (.inr (.inl (hsub y (.inr hy))))).2
  have hF' : ∀ y ∈ F.inorder, _ := fun y hy =>
    hag y (fun e => hnF (e ▸ hy)) (hout y (.inr (.inr (.inl hy)))).2
  have hP' : ∀ y ∈ pathNodes fs, _ := fun y hy =>
    hag y (fun e => hnP (e ▸ hy)) (hout y (.inr (.inr (.inr hy)))).2
  have hrn : Function.update (Function.update red n false) w true n = false := by simp [hnw]
  have hrp : Function.update (Function.update red n false) w true p = red p :=
    hag p hnp.symm hpw
  have hsb : redRoot (Function.update (Function.update red n false) w true) s = false := by
    rw [redRoot_congr hs', hs]
  have hW' : NoRedRed (Function.update (Function.update red n false) w true)
      (make d n N₁ (make d w N₂ F)) := by
    refine noRedRed_make.mpr ⟨hN₁nr.congr hN₁', noRedRed_make.mpr ⟨hN₂nr.congr hN₂',
      hFnr.congr hF', fun _ => ⟨?_, ?_⟩⟩, fun h => by rw [hrn] at h; cases h⟩
    · rw [redRoot_congr hN₂']
      exact (hnc hn).2
    · rw [redRoot_congr hF', hF]
  refine ⟨⟨m, k, hsm.congr hs', blackHeight_make.mpr ⟨m, hN₁.congr hN₁',
    blackHeight_make.mpr ⟨m, hN₂.congr hN₂', hFj.congr hF', by simp⟩, by simp [hrn]⟩,
    by rw [hrp]; exact hfs.congr hP'⟩, ?_, ?_⟩
  · rw [paintRoot_of_black hsb]
    refine NoRedRed.plug_congr (P := fs) hnr (noRedRed_make.mpr ⟨hsnr.congr hs', hW',
      fun hpr => ⟨hsb, by simp [hrn]⟩⟩) hP' fun g hg hr => ?_
    have := hnr.head_black g hg hr
    rw [redRoot_make] at this
    rw [redRoot_of_root (root_attach _ _)]
    exact hrp.trans this
  · have hin : (make d p s (make d n N₁ (make d w N₂ F))).inorder =
        (make d p s (make d w (make d n N₁ N₂) F)).inorder := by
      cases d <;> simp
    exact inorder_plug_congr fs hin ▸ h.nodup

/-- A black sibling with a red far child: the sibling comes up in the parent's place with the
parent's colour, and the parent and the far child turn black. The subtree is no longer short. -/
theorem EraseInv.rotateFar {x : α} (h : EraseInv red (⟨d, p, make d w N F⟩ :: fs) s)
    (hs : redRoot red s = false) (hw : red w = false) (hx : F.root = some x)
    (hxr : red x = true) :
    RedBlackBelow
      (Function.update (Function.update (Function.update red w (red p)) p false) x false)
      (plug fs (make d w (make d p s N) F)) := by
  obtain ⟨m, k, hsm, hW, hfs, hnr⟩ := h.black_head hs
  obtain ⟨hpw, hout, hNout, hFout, -, hFnd⟩ := nodup_frame h.nodup
  have hxF := root_mem_inorder hx
  obtain ⟨hxp, hxw⟩ := hout x (.inr (.inr (.inl hxF)))
  obtain ⟨hxs, hxP⟩ := hFout x hxF
  have hxN : x ∉ N.inorder := fun hxN => (hNout x hxN).2.1 hxF
  obtain ⟨j, hNj, hFj, hj⟩ := blackHeight_make.mp hW
  simp only [hw, Bool.false_eq_true, if_false, Nat.add_right_cancel_iff] at hj
  subst hj
  obtain ⟨hsnr, hWnr, -⟩ := noRedRed_make.mp hnr.plug_focus
  obtain ⟨hNnr, hFnr, -⟩ := noRedRed_make.mp hWnr
  have hag : ∀ y, y ≠ p → y ≠ w → y ≠ x →
      Function.update (Function.update (Function.update red w (red p)) p false) x false y =
        red y := fun y h1 h2 h3 => by
    rw [Function.update_of_ne h3, Function.update_of_ne h1, Function.update_of_ne h2]
  have hs' : ∀ y ∈ s.inorder, _ := fun y hy =>
    hag y (hout y (.inl hy)).1 (hout y (.inl hy)).2 (fun e => hxs (e ▸ hy))
  have hN' : ∀ y ∈ N.inorder, _ := fun y hy =>
    hag y (hout y (.inr (.inl hy))).1 (hout y (.inr (.inl hy))).2 (fun e => hxN (e ▸ hy))
  have hP' : ∀ y ∈ pathNodes fs, _ := fun y hy =>
    hag y (hout y (.inr (.inr (.inr hy)))).1 (hout y (.inr (.inr (.inr hy)))).2
      (fun e => hxP (e ▸ hy))
  have hF' : ∀ y ∈ F.inorder,
      Function.update (Function.update (Function.update red w (red p)) p false) x false y =
        paintRoot red F y := fun y hy => by
    rw [paintRoot_of_root hx]
    by_cases hyx : y = x
    · simp [hyx]
    · rw [Function.update_of_ne hyx, Function.update_of_ne hyx,
        Function.update_of_ne (hout y (.inr (.inr (.inl hy)))).1,
        Function.update_of_ne (hout y (.inr (.inr (.inl hy)))).2]
  have hrp : Function.update (Function.update (Function.update red w (red p)) p false) x false p =
      false := by
    rw [Function.update_of_ne (Ne.symm hxp), Function.update_self]
  have hrw : Function.update (Function.update (Function.update red w (red p)) p false) x false w =
      red p := by
    rw [Function.update_of_ne (Ne.symm hxw), Function.update_of_ne (Ne.symm hpw),
      Function.update_self]
  have hrx : Function.update (Function.update (Function.update red w (red p)) p false) x false x =
      false := Function.update_self ..
  have hsub : BlackHeight _ (make d p s N) (m + 1) :=
    blackHeight_make.mpr ⟨m, hsm.congr hs', hNj.congr hN', by simp [hrp]⟩
  have hFb := (hFj.paintRoot (by rw [redRoot_of_root hx, hxr]) hFnd).congr hF'
  refine ⟨⟨k, (blackHeight_make.mpr ⟨m + 1, hsub, hFb, by rw [hrw]⟩).plug_height
    (hfs.congr hP')⟩, ?_, ?_⟩
  · refine NoRedRed.plug_congr (P := fs) hnr (noRedRed_make.mpr ⟨noRedRed_make.mpr
      ⟨hsnr.congr hs', hNnr.congr hN', fun h => by rw [hrp] at h; cases h⟩,
      hFnr.paintRoot.congr hF', fun _ => ⟨by rw [redRoot_make, hrp],
      by rw [redRoot_of_root hx, hrx]⟩⟩) hP' fun g hg hr => ?_
    have := hnr.head_black g hg hr
    rw [redRoot_make] at this
    rw [redRoot_make, hrw, this]
  · exact inorder_plug_congr fs (inorder_make_make d w p s N F) ▸ h.nodup

theorem EraseInv.exists_sibling {f : Frame α} (h : EraseInv red (f :: fs) s) :
    ∃ w N F, f.sibling = make f.dir w N F := by
  obtain ⟨m, n, -, hW, -⟩ := h.short
  obtain ⟨w, hw⟩ : ∃ w, f.sibling.root = some w := by
    cases hsib : f.sibling with
    | nil => exact absurd hsib hW.pos_ne_nil
    | node w _ _ => exact ⟨w, rfl⟩
  obtain ⟨N, F, hNF⟩ := exists_make hw f.dir
  exact ⟨w, N, F, hNF⟩

theorem EraseInv.sibling_black {W : BinaryTree α} (h : EraseInv red (⟨d, p, W⟩ :: fs) s)
    (hs : redRoot red s = false) (hp : red p = true) : redRoot red W = false := by
  obtain ⟨-, -, -, -, -, hnr⟩ := h.black_head hs
  exact ((noRedRed_make.mp hnr.plug_focus).2.2 hp).2

end Moves

/-! ## Where the walk starts -/

section Splice

variable {red : α → Bool} {P : List (Frame α)} {d : Dir} {x : α} {C : BinaryTree α}

theorem RedBlackBelow.unlink (h : RedBlackBelow red (plug P (make d x nil C))) :
    ∃ n, BlackHeight red C 0 ∧ PathHeight red P (if red x then 0 else 1) n ∧ NoRedRed red C ∧
      (red x = true → redRoot red C = false) ∧ (plug P C).inorder.Nodup := by
  obtain ⟨n, hn⟩ := h.balanced
  obtain ⟨k, hk⟩ := BlackHeight.plug_focus hn
  obtain ⟨j, hj, hC, hkj⟩ := blackHeight_make.mp hk
  cases hj
  obtain ⟨-, hCn, hxc⟩ := noRedRed_make.mp h.noRedRed.plug_focus
  obtain ⟨hnd, hPn, hdisj⟩ := nodup_plug.mp h.nodup
  have hsub : ∀ y ∈ C.inorder, y ∈ (make d x nil C).inorder := fun y hy =>
    (inorder_make_perm ..).mem_iff.mpr (List.mem_cons_of_mem _ (by simpa using hy))
  refine ⟨n, hC, by simpa [hkj] using hn.pathHeight hk, hCn, fun hr => (hxc hr).2, ?_⟩
  refine nodup_plug.mpr ⟨?_, hPn, fun y hy => hdisj y (hsub y hy)⟩
  have := ((inorder_make_perm ..).nodup_iff.mp hnd).of_cons
  simpa using this

theorem RedBlackBelow.splice_red (h : RedBlackBelow red (plug P (make d x nil C)))
    (hx : red x = true) : C = nil ∧ RedBlackBelow red (plug P nil) := by
  obtain ⟨n, hC, hP, -, hxc, hnd⟩ := h.unlink
  obtain rfl := hC.eq_nil (hxc hx)
  rw [hx] at hP
  exact ⟨rfl, ⟨⟨n, BlackHeight.plug_height rfl hP⟩,
    NoRedRed.plug_congr h.noRedRed trivial (fun _ _ => rfl) fun _ _ _ => rfl, hnd⟩⟩

/-! A node that trades places with another takes its colour: relabelling a node of a tree with
one that is not in it, of the same colour, keeps what the colouring satisfies. -/

variable {ρ ρ' : α → Bool} {e i : α} {X L : BinaryTree α}

theorem NoRedRed.rename (h : NoRedRed ρ (plug P (make d e X L)))
    (hX : ∀ y ∈ X.inorder, ρ' y = ρ y) (hL : ∀ y ∈ L.inorder, ρ' y = ρ y)
    (hP : ∀ y ∈ pathNodes P, ρ' y = ρ y) (hi : ρ' i = ρ e) :
    NoRedRed ρ' (plug P (make d i X L)) := by
  obtain ⟨hXn, hLn, hc⟩ := noRedRed_make.mp h.plug_focus
  refine NoRedRed.plug_congr h (noRedRed_make.mpr ⟨hXn.congr hX, hLn.congr hL, fun hr => ?_⟩) hP
    fun g hg hr => ?_
  · rw [hi] at hr
    rw [redRoot_congr hX, redRoot_congr hL]
    exact hc hr
  · have := h.head_black g hg hr
    rw [redRoot_make] at this
    rw [redRoot_make, hi, this]

theorem BlackHeight.rename {n : Nat} (h : BlackHeight ρ (plug P (make d e X L)) n)
    (hX : ∀ y ∈ X.inorder, ρ' y = ρ y) (hL : ∀ y ∈ L.inorder, ρ' y = ρ y)
    (hP : ∀ y ∈ pathNodes P, ρ' y = ρ y) (hi : ρ' i = ρ e) :
    BlackHeight ρ' (plug P (make d i X L)) n := by
  obtain ⟨k, hk⟩ := BlackHeight.plug_focus h
  obtain ⟨j, hXj, hLj, hkj⟩ := blackHeight_make.mp hk
  exact h.plug_congr hk (blackHeight_make.mpr ⟨j, hXj.congr hX, hLj.congr hL, by rw [hi, hkj]⟩) hP

theorem nodup_rename (h : (plug P (make d e X L)).inorder.Nodup)
    (hi : i ∉ (plug P (make d e X L)).inorder) : (plug P (make d i X L)).inorder.Nodup := by
  obtain ⟨hT, hPn, hdisj⟩ := nodup_plug.mp h
  have hXL := ((inorder_make_perm ..).nodup_iff.mp hT).of_cons
  have hold : ∀ y ∈ X.inorder ++ L.inorder, y ∈ (make d e X L).inorder := fun y hy =>
    (inorder_make_perm ..).mem_iff.mpr (List.mem_cons_of_mem _ hy)
  refine nodup_plug.mpr ⟨(inorder_make_perm ..).nodup_iff.mpr (List.nodup_cons.mpr
    ⟨fun hy => hi (mem_plug.mpr (.inl (hold i hy))), hXL⟩), hPn, fun y hy => ?_⟩
  rcases List.mem_cons.mp ((inorder_make_perm ..).mem_iff.mp hy) with rfl | hy
  · exact fun hp => hi (mem_plug.mpr (.inr hp))
  · exact hdisj y (hold y hy)

variable [DecidableEq α]

theorem RedBlackBelow.splice (h : RedBlackBelow red (plug P (make d x nil C)))
    (hx : red x = false) : EraseInv red P C := by
  obtain ⟨n, hC, hP, hCn, -, hnd⟩ := h.unlink
  obtain ⟨-, -, hdisj⟩ := nodup_plug.mp hnd
  rw [hx] at hP
  refine ⟨⟨0, n, hC, hP⟩, ?_, hnd⟩
  refine NoRedRed.plug_congr h.noRedRed hCn.paintRoot (fun y hy => paintRoot_of_ne fun hr =>
    hdisj y (root_mem_inorder hr) hy) fun _ _ _ => redRoot_paintRoot C

theorem RedBlackBelow.rename {red : α → Bool} (h : RedBlackBelow red (plug P (make d e X L)))
    (hi : i ∉ (plug P (make d e X L)).inorder) :
    RedBlackBelow (Function.update red i (red e)) (plug P (make d i X L)) := by
  have hne : ∀ y ∈ (plug P (make d e X L)).inorder, Function.update red i (red e) y = red y :=
    fun y hy => Function.update_of_ne (ne_of_mem_of_not_mem hy hi) _ _
  have hX : ∀ y ∈ X.inorder, _ := fun y hy =>
    hne y (mem_plug.mpr (.inl ((inorder_make_perm ..).mem_iff.mpr (by simp [hy]))))
  have hL : ∀ y ∈ L.inorder, _ := fun y hy =>
    hne y (mem_plug.mpr (.inl ((inorder_make_perm ..).mem_iff.mpr (by simp [hy]))))
  have hP : ∀ y ∈ pathNodes P, _ := fun y hy => hne y (mem_plug.mpr (.inr hy))
  obtain ⟨n, hn⟩ := h.balanced
  exact ⟨⟨n, hn.rename hX hL hP (Function.update_self ..)⟩,
    h.noRedRed.rename hX hL hP (Function.update_self ..), nodup_rename h.nodup hi⟩

theorem IsRedBlack.rename {red : α → Bool} (h : IsRedBlack red (plug P (node e X L)))
    (hnd : (plug P (node e X L)).inorder.Nodup) (hi : i ∉ (plug P (node e X L)).inorder) :
    IsRedBlack (Function.update red i (red e)) (plug P (node i X L)) := by
  have hb : RedBlackBelow (Function.update red i (red e)) (plug P (make .left i X L)) :=
    RedBlackBelow.rename ⟨h.balanced, h.noRedRed, hnd⟩ hi
  refine ⟨hb.balanced, hb.noRedRed, ?_⟩
  have h0 := h.root_black
  cases P with
  | nil =>
    rw [plug_nil, redRoot_of_root (root_node e X L)] at h0
    rw [plug_nil, redRoot_of_root (root_node i X L), Function.update_self, h0]
  | cons f fs =>
    obtain ⟨r, hr⟩ := root_plug_of_root (P := f :: fs) (root_node e X L)
    have hri : r ≠ i := fun h' => hi (mem_plug.mpr (.inr (by rw [← h']; exact root_plug_cons_mem hr)))
    rw [redRoot_of_root hr] at h0
    rw [redRoot_of_root ((root_plug_cons f fs _ _).trans hr), Function.update_of_ne hri, h0]

theorem EraseInv.rename {red : α → Bool} {Q : List (Frame α)} {s : BinaryTree α}
    (h : EraseInv red (Q ++ ⟨d, e, L⟩ :: P) s)
    (hi : i ∉ (plug (Q ++ ⟨d, e, L⟩ :: P) s).inorder) :
    EraseInv (Function.update red i (red e)) (Q ++ ⟨d, i, L⟩ :: P) s := by
  have hT : ∀ j, plug (Q ++ ⟨d, j, L⟩ :: P) s = plug P (make d j (plug Q s) L) := fun j => by
    rw [plug_append]
    rfl
  rw [hT] at hi
  have hne : ∀ y ∈ (plug P (make d e (plug Q s) L)).inorder,
      Function.update red i (red e) y = red y :=
    fun y hy => Function.update_of_ne (ne_of_mem_of_not_mem hy hi) _ _
  have hmk : ∀ y ∈ (plug Q s).inorder ++ L.inorder, y ∈ (plug P (make d e (plug Q s) L)).inorder :=
    fun y hy => mem_plug.mpr (.inl ((inorder_make_perm ..).mem_iff.mpr (List.mem_cons_of_mem _ hy)))
  have hQs : ∀ y ∈ (plug Q s).inorder, _ := fun y hy => hne y (hmk y (List.mem_append_left _ hy))
  have hL : ∀ y ∈ L.inorder, _ := fun y hy => hne y (hmk y (List.mem_append_right _ hy))
  have hP : ∀ y ∈ pathNodes P, _ := fun y hy => hne y (mem_plug.mpr (.inr hy))
  obtain ⟨m, n, hs, hpath⟩ := h.short
  obtain ⟨k, hQ, hL', hP'⟩ := pathHeight_append.mp hpath
  have hnd := h.nodup
  rw [hT] at hnd
  refine ⟨⟨m, n, hs.congr fun y hy => hQs y (mem_plug.mpr (.inl hy)),
    pathHeight_append.mpr ⟨k, hQ.congr fun y hy => hQs y (mem_plug.mpr (.inr hy)),
      hL'.congr hL, by rw [Function.update_self]; exact hP'.congr hP⟩⟩, ?_, ?_⟩
  · have hsi : s.root ≠ some i := fun hr =>
      hi (mem_plug.mpr (.inl ((inorder_make_perm ..).mem_iff.mpr
        (List.mem_cons_of_mem _ (List.mem_append_left _ (mem_plug.mpr (.inl
          (root_mem_inorder hr))))))))
    have hag : ∀ y, y ≠ i → paintRoot (Function.update red i (red e)) s y = paintRoot red s y :=
      fun y hy => by rw [paintRoot_update _ hsi, Function.update_of_ne hy]
    have hnr := h.noRedRed
    rw [hT] at hnr ⊢
    refine hnr.rename (fun y hy => hag y ?_) (fun y hy => hag y ?_) (fun y hy => hag y ?_) ?_
    · exact ne_of_mem_of_not_mem (hmk y (List.mem_append_left _ hy)) hi
    · exact ne_of_mem_of_not_mem (hmk y (List.mem_append_right _ hy)) hi
    · exact ne_of_mem_of_not_mem (mem_plug.mpr (.inr hy)) hi
    · have heX : e ∉ (plug Q s).inorder := fun he =>
        (List.nodup_cons.mp ((inorder_make_perm ..).nodup_iff.mp (nodup_plug.mp hnd).1)).1
          (List.mem_append_left _ he)
      rw [paintRoot_update _ hsi, Function.update_self,
        paintRoot_of_ne fun hr => heX (mem_plug.mpr (.inl (root_mem_inorder hr)))]
  · rw [hT]
    exact nodup_rename hnd hi

end Splice

end BinaryTree
