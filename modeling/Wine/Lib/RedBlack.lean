import Wine.Lib.TreeZipper

/-!
# Red-black colourings, and the insertion fixup on a zipper

A colouring marks each node red or black. It is a red-black colouring when every path from a node
down to an empty subtree passes the same number of black nodes (`BlackHeight`) and no red node
has a red child (`NoRedRed`). Bottom-up insertion puts a red node in place of an empty subtree and
walks up from it: at each step the only red node that may have a red parent is the one the walk
is at (`RedOk`).

`FixupMove` is one step of that walk, at a position whose parent is red and has a parent: a red
uncle turns the parent and the uncle black and the grandparent red, and the walk goes on from the
grandparent; a black uncle ends with one rotation at the grandparent, or two when the node is on
the inner side of its parent. Each step keeps the in-order list, shortens the path, and keeps the
invariant `RBFixInv`; when the walk stops at a black parent or at the root, the tree is red-black
but for the colour of its root.
-/

set_option autoImplicit false

namespace BinaryTree

variable {α : Type}

/-- Whether the root is red; an empty tree counts as black. -/
def redRoot (red : α → Bool) (t : BinaryTree α) : Bool :=
  match t.root with
  | none => false
  | some x => red x

/-- Every path from the root down to an empty subtree passes `n` black nodes. -/
def BlackHeight (red : α → Bool) : BinaryTree α → Nat → Prop
  | nil, n => n = 0
  | node x l r, n =>
    ∃ m, BlackHeight red l m ∧ BlackHeight red r m ∧ n = m + (if red x then 0 else 1)

/-- No red node has a red child. -/
def NoRedRed (red : α → Bool) : BinaryTree α → Prop
  | nil => True
  | node x l r => NoRedRed red l ∧ NoRedRed red r ∧
      (red x = true → redRoot red l = false ∧ redRoot red r = false)

/-- No red node has a red child, but `e` may be a red child of a red node. -/
def RedOk (red : α → Bool) (e : α) : BinaryTree α → Prop
  | nil => True
  | node x l r => RedOk red e l ∧ RedOk red e r ∧
      (red x = true → (l.root ≠ some e → redRoot red l = false) ∧
        (r.root ≠ some e → redRoot red r = false))

@[simp] theorem redRoot_nil (red : α → Bool) : redRoot red (nil : BinaryTree α) = false := rfl

@[simp] theorem redRoot_make (red : α → Bool) (d : Dir) (x : α) (c o : BinaryTree α) :
    redRoot red (make d x c o) = red x := by
  simp [redRoot]

theorem redRoot_of_root {red : α → Bool} {t : BinaryTree α} {x : α} (h : t.root = some x) :
    redRoot red t = red x := by
  simp [redRoot, h]

section Colour

variable {red red' : α → Bool}

theorem blackHeight_make {d : Dir} {x : α} {c o : BinaryTree α} {n : Nat} :
    BlackHeight red (make d x c o) n ↔
      ∃ m, BlackHeight red c m ∧ BlackHeight red o m ∧ n = m + (if red x then 0 else 1) := by
  cases d
  · rfl
  · constructor
    · rintro ⟨m, ho, hc, hn⟩
      exact ⟨m, hc, ho, hn⟩
    · rintro ⟨m, hc, ho, hn⟩
      exact ⟨m, ho, hc, hn⟩

theorem redOk_make {e : α} {d : Dir} {x : α} {c o : BinaryTree α} :
    RedOk red e (make d x c o) ↔ RedOk red e c ∧ RedOk red e o ∧
      (red x = true → (c.root ≠ some e → redRoot red c = false) ∧
        (o.root ≠ some e → redRoot red o = false)) := by
  cases d
  · rfl
  · constructor
    · rintro ⟨ho, hc, hx⟩
      exact ⟨hc, ho, fun h => (hx h).symm⟩
    · rintro ⟨hc, ho, hx⟩
      exact ⟨ho, hc, fun h => (hx h).symm⟩

theorem noRedRed_make {d : Dir} {x : α} {c o : BinaryTree α} :
    NoRedRed red (make d x c o) ↔ NoRedRed red c ∧ NoRedRed red o ∧
      (red x = true → redRoot red c = false ∧ redRoot red o = false) := by
  cases d
  · rfl
  · constructor
    · rintro ⟨ho, hc, hx⟩
      exact ⟨hc, ho, fun h => (hx h).symm⟩
    · rintro ⟨hc, ho, hx⟩
      exact ⟨ho, hc, fun h => (hx h).symm⟩

theorem BlackHeight.unique : ∀ {t : BinaryTree α} {m n : Nat},
    BlackHeight red t m → BlackHeight red t n → m = n
  | nil, _, _, hm, hn => hm.trans hn.symm
  | node _ _ _, _, _, ⟨a, hla, _, rfl⟩, ⟨b, hlb, _, rfl⟩ => by
    rw [BlackHeight.unique hla hlb]

theorem BlackHeight.congr : ∀ {t : BinaryTree α} {n : Nat},
    (∀ x ∈ t.inorder, red' x = red x) → BlackHeight red t n → BlackHeight red' t n
  | nil, _, _, h => h
  | node x l r, _, hagree, ⟨m, hl, hr, hn⟩ => by
    refine ⟨m, hl.congr fun y hy => hagree y (by simp [hy]),
      hr.congr fun y hy => hagree y (by simp [hy]), ?_⟩
    rw [hagree x (by simp), hn]

theorem redRoot_congr {t : BinaryTree α} (hagree : ∀ x ∈ t.inorder, red' x = red x) :
    redRoot red' t = redRoot red t := by
  cases hr : t.root with
  | none => simp [redRoot, hr]
  | some y => rw [redRoot_of_root hr, redRoot_of_root hr, hagree y (root_mem_inorder hr)]

theorem RedOk.congr : ∀ {e : α} {t : BinaryTree α},
    (∀ x ∈ t.inorder, red' x = red x) → RedOk red e t → RedOk red' e t
  | _, nil, _, _ => trivial
  | _, node x l r, hagree, ⟨hl, hr, hx⟩ => by
    have hl' : ∀ y ∈ l.inorder, red' y = red y := fun y hy => hagree y (by simp [hy])
    have hr' : ∀ y ∈ r.inorder, red' y = red y := fun y hy => hagree y (by simp [hy])
    refine ⟨hl.congr hl', hr.congr hr', fun h => ?_⟩
    rw [hagree x (by simp)] at h
    rw [redRoot_congr hl', redRoot_congr hr']
    exact hx h

theorem RedOk.noRedRed : ∀ {e : α} {t : BinaryTree α}, RedOk red e t → e ∉ t.inorder →
    NoRedRed red t
  | _, nil, _, _ => trivial
  | _, node x l r, ⟨hl, hr, hx⟩, he => by
    simp only [inorder_node, List.mem_append, List.mem_cons, not_or] at he
    refine ⟨hl.noRedRed he.1, hr.noRedRed he.2.2, fun h => ⟨(hx h).1 fun hl' => ?_,
      (hx h).2 fun hr' => ?_⟩⟩
    · exact he.1 (root_mem_inorder hl')
    · exact he.2.2 (root_mem_inorder hr')

theorem RedOk.noRedRed_of_root {e : α} {t : BinaryTree α} (h : RedOk red e t)
    (ht : t.root = some e) (hnd : t.inorder.Nodup) : NoRedRed red t := by
  cases t with
  | nil => trivial
  | node x l r =>
    cases ht
    obtain ⟨hl, hr, hx⟩ := h
    rw [inorder_node] at hnd
    obtain ⟨hel, her⟩ := Walk.not_mem_of_nodup_split hnd
    exact ⟨hl.noRedRed hel, hr.noRedRed her, fun h => ⟨(hx h).1 fun h' => hel (root_mem_inorder h'),
      (hx h).2 fun h' => her (root_mem_inorder h')⟩⟩

theorem NoRedRed.redOk : ∀ {t : BinaryTree α} (e : α), NoRedRed red t → RedOk red e t
  | nil, _, _ => trivial
  | node _ _ _, e, ⟨hl, hr, hx⟩ =>
    ⟨hl.redOk e, hr.redOk e, fun h => ⟨fun _ => (hx h).1, fun _ => (hx h).2⟩⟩

theorem NoRedRed.blacken [DecidableEq α] {x : α} : ∀ {t : BinaryTree α}, NoRedRed red t →
    NoRedRed (Function.update red x false) t
  | nil, _ => trivial
  | node y l r, ⟨hl, hr, hy⟩ => by
    have hblack : ∀ c : BinaryTree α, redRoot red c = false →
        redRoot (Function.update red x false) c = false := by
      intro c hc
      cases hcr : c.root with
      | none => simp [redRoot, hcr]
      | some z =>
        rw [redRoot_of_root hcr] at hc ⊢
        by_cases hz : z = x
        · simp [hz]
        · rwa [Function.update_of_ne hz]
    refine ⟨hl.blacken, hr.blacken, fun h => ?_⟩
    have h' : red y = true := by
      by_cases hy' : y = x
      · simp [hy'] at h
      · rwa [Function.update_of_ne hy'] at h
    exact ⟨hblack l (hy h').1, hblack r (hy h').2⟩

theorem BlackHeight.blacken_root [DecidableEq α] {t : BinaryTree α} {x : α} {n : Nat}
    (ht : BlackHeight red t n) (hx : t.root = some x) (hnd : t.inorder.Nodup) :
    ∃ n', BlackHeight (Function.update red x false) t n' := by
  cases t with
  | nil => cases hx
  | node y l r =>
    cases hx
    obtain ⟨m, hl, hr, -⟩ := ht
    rw [inorder_node] at hnd
    obtain ⟨hxl, hxr⟩ := Walk.not_mem_of_nodup_split hnd
    refine ⟨m + 1, m,
      hl.congr fun z hz => Function.update_of_ne (ne_of_mem_of_not_mem hz hxl) _ _, hr.congr fun z hz => Function.update_of_ne (ne_of_mem_of_not_mem hz hxr) _ _, by simp⟩

end Colour

/-! ## Colourings around a position -/

section Plug

variable {red red' : α → Bool}

theorem BlackHeight.plug_focus {P : List (Frame α)} {s : BinaryTree α} {n : Nat}
    (h : BlackHeight red (plug P s) n) : ∃ m, BlackHeight red s m := by
  induction P generalizing s n with
  | nil => exact ⟨n, h⟩
  | cons f fs ih =>
    obtain ⟨k, hk⟩ := ih h
    obtain ⟨m, hs, -, -⟩ := blackHeight_make.mp hk
    exact ⟨m, hs⟩

theorem BlackHeight.plug_congr : ∀ {P : List (Frame α)} {s s' : BinaryTree α} {m n : Nat},
    BlackHeight red (plug P s) n → BlackHeight red s m → BlackHeight red' s' m →
    (∀ x ∈ pathNodes P, red' x = red x) → BlackHeight red' (plug P s') n
  | [], _, _, _, _, h, hs, hs', _ => hs.unique h ▸ hs'
  | f :: fs, s, s', m, _, h, hs, hs', hagree => by
    simp only [pathNodes, List.flatMap_cons, Frame.nodes, List.cons_append, List.mem_cons,
      List.mem_append] at hagree
    obtain ⟨k, hk⟩ := BlackHeight.plug_focus (P := fs) h
    obtain ⟨m', hs2, hsib, hkm⟩ := blackHeight_make.mp hk
    rw [← hs.unique hs2] at hsib
    refine BlackHeight.plug_congr (P := fs) (s := f.attach s) h hk
      (blackHeight_make.mpr ⟨m, hs', hsib.congr fun x hx => hagree x (.inr (.inl hx)), ?_⟩)
      fun x hx => hagree x (.inr (.inr hx))
    rw [hagree f.parent (.inl rfl), hkm, hs.unique hs2]

theorem RedOk.plug_focus {e : α} {P : List (Frame α)} {s : BinaryTree α}
    (h : RedOk red e (plug P s)) : RedOk red e s := by
  induction P generalizing s with
  | nil => exact h
  | cons f fs ih => exact (redOk_make.mp (ih h)).1

theorem RedOk.plug_head {e : α} {f : Frame α} {fs : List (Frame α)} {s : BinaryTree α}
    (h : RedOk red e (plug (f :: fs) s)) (hr : red f.parent = true) (hs : s.root ≠ some e) :
    redRoot red s = false :=
  ((redOk_make.mp (RedOk.plug_focus (P := fs) h)).2.2 hr).1 hs

theorem RedOk.plug_congr {e e' : α} : ∀ {P : List (Frame α)} {s s' : BinaryTree α},
    RedOk red e (plug P s) → RedOk red' e' s' → (∀ x ∈ pathNodes P, red' x = red x) →
    e ∉ pathNodes P → e' ∉ pathNodes P →
    (∀ f ∈ P.head?, red f.parent = true → s'.root ≠ some e' → redRoot red' s' = false) →
    RedOk red' e' (plug P s')
  | [], _, _, _, hs', _, _, _, _ => hs'
  | f :: fs, s, s', h, hs', hagree, he, he', hhead => by
    simp only [pathNodes, List.flatMap_cons, Frame.nodes, List.cons_append, List.mem_cons,
      List.mem_append, not_or] at hagree he he'
    obtain ⟨-, hsib, hpar⟩ := redOk_make.mp (RedOk.plug_focus (P := fs) h)
    have hsib' : ∀ x ∈ f.sibling.inorder, red' x = red x := fun x hx => hagree x (.inr (.inl hx))
    have hsibroot : f.sibling.root ≠ some e := fun hr => he.2.1 (root_mem_inorder hr)
    have hsibroot' : f.sibling.root ≠ some e' := fun hr => he'.2.1 (root_mem_inorder hr)
    refine RedOk.plug_congr (P := fs) (s := f.attach s) h ?_ (fun x hx => hagree x (.inr (.inr hx)))
      he.2.2 he'.2.2 ?_
    · refine redOk_make.mpr ⟨hs', (hsib.noRedRed he.2.1).redOk e' |>.congr hsib', fun hr => ?_⟩
      rw [hagree f.parent (.inl rfl)] at hr
      refine ⟨hhead f rfl hr, fun _ => ?_⟩
      cases hsr : f.sibling.root with
      | none => simp [redRoot, hsr]
      | some y =>
        have hy := (hpar hr).2 hsibroot
        rw [redRoot_of_root hsr] at hy ⊢
        rw [hsib' y (root_mem_inorder hsr), hy]
    · intro g hg hr _
      cases fs with
      | nil => cases hg
      | cons g' gs =>
        cases hg
        have h' : RedOk red e (plug (g :: gs) (f.attach s)) := h
        have hp := RedOk.plug_head h' hr
          (by rw [root_attach]; exact fun h => he.1 (Option.some.inj h).symm)
        rw [redRoot_of_root (root_attach f s)] at hp
        rw [redRoot_of_root (root_attach f s'), hagree f.parent (.inl rfl), hp]

theorem RedOk.noRedRed_plug {e : α} : ∀ {P : List (Frame α)} {s : BinaryTree α},
    RedOk red e (plug P s) → NoRedRed red s → e ∉ pathNodes P →
    (∀ f ∈ P.head?, red f.parent = true → redRoot red s = false) → NoRedRed red (plug P s)
  | [], _, _, hs, _, _ => hs
  | f :: fs, s, h, hs, he, hhead => by
    simp only [pathNodes, List.flatMap_cons, Frame.nodes, List.cons_append, List.mem_cons,
      List.mem_append, not_or] at he
    obtain ⟨-, hsib, hpar⟩ := redOk_make.mp (RedOk.plug_focus (P := fs) h)
    refine RedOk.noRedRed_plug (P := fs) (s := f.attach s) h
      (noRedRed_make.mpr ⟨hs, hsib.noRedRed he.2.1, fun hr => ⟨hhead f rfl hr,
        (hpar hr).2 fun hsr => he.2.1 (root_mem_inorder hsr)⟩⟩) he.2.2 ?_
    intro g hg hr
    cases fs with
    | nil => cases hg
    | cons g' gs =>
      cases hg
      have h' : RedOk red e (plug (g :: gs) (f.attach s)) := h
      exact RedOk.plug_head h' hr
        (by rw [root_attach]; exact fun h => he.1 (Option.some.inj h).symm)

end Plug

/-! ## The invariant of the walk -/

section Walk

variable {red : α → Bool} {P : List (Frame α)} {s : BinaryTree α} {e : α}

/-- What the walk keeps: one black height, no red node with a red child but `e`, `e` red at the
focus, and no node twice. -/
structure RBFixInv (red : α → Bool) (P : List (Frame α)) (s : BinaryTree α) (e : α) : Prop where
  balanced : ∃ n, BlackHeight red (plug P s) n
  redOk : RedOk red e (plug P s)
  focus : s.root = some e
  entry_red : red e = true
  nodup : (plug P s).inorder.Nodup

/-- A red-black colouring: one black height, no red node with a red child, the root black. -/
structure IsRedBlack (red : α → Bool) (t : BinaryTree α) : Prop where
  balanced : ∃ n, BlackHeight red t n
  noRedRed : NoRedRed red t
  root_black : redRoot red t = false

theorem RBFixInv.grand {f g : Frame α} {gs : List (Frame α)} (h : RBFixInv red (f :: g :: gs) s e)
    (hp : red f.parent = true) :
    red g.parent = false ∧
      (∃ m, BlackHeight red s m ∧ BlackHeight red f.sibling m ∧ BlackHeight red g.sibling m) ∧
      NoRedRed red s ∧ NoRedRed red f.sibling ∧ NoRedRed red g.sibling ∧
      redRoot red f.sibling = false := by
  obtain ⟨hndS, -, -⟩ := (nodup_plug (P := gs)
    (s := make g.dir g.parent (make f.dir f.parent s f.sibling) g.sibling)).mp h.nodup
  obtain ⟨-, -, -, -, hps, -, -, hsZU, -, hsn, -, -⟩ := nodup_make_make hndS
  have he := root_mem_inorder h.focus
  have hep : f.parent ≠ e := fun h => hps (h ▸ he)
  -- the grandparent is black: a red one would have the red parent as a child
  have hg : red g.parent = false := by
    cases hgr : red g.parent
    · rfl
    · have hok : RedOk red e (plug (g :: gs) (f.attach s)) := h.redOk
      have := RedOk.plug_head hok hgr
        (by rw [root_attach]; exact fun h => hep (Option.some.inj h))
      rw [redRoot_of_root (root_attach f s), hp] at this
      cases this
  obtain ⟨n, hn⟩ := h.balanced
  obtain ⟨k, hk⟩ := BlackHeight.plug_focus (P := gs)
    (s := make g.dir g.parent (make f.dir f.parent s f.sibling) g.sibling) hn
  obtain ⟨m1, hpsub, hU, -⟩ := blackHeight_make.mp hk
  obtain ⟨m, hs, hZ, hm1⟩ := blackHeight_make.mp hpsub
  simp only [hp, ↓reduceIte, Nat.add_zero] at hm1
  subst hm1
  obtain ⟨hpsubok, hUok, -⟩ := redOk_make.mp (RedOk.plug_focus (P := gs)
    (s := make g.dir g.parent (make f.dir f.parent s f.sibling) g.sibling) h.redOk)
  obtain ⟨hsok, hZok, hpcond⟩ := redOk_make.mp hpsubok
  exact ⟨hg, ⟨m1, hs, hZ, hU⟩, hsok.noRedRed_of_root h.focus hsn, hZok.noRedRed (hsZU e he).1,
    hUok.noRedRed (hsZU e he).2, (hpcond hp).2 fun hr => (hsZU e he).1 (root_mem_inorder hr)⟩

theorem RBFixInv.off_path {f g : Frame α} {gs : List (Frame α)}
    (h : RBFixInv red (f :: g :: gs) s e) {x : α}
    (hx : x = g.parent ∨ x = f.parent ∨ x ∈ s.inorder ∨ x ∈ f.sibling.inorder ∨
      x ∈ g.sibling.inorder) : x ∉ pathNodes gs := by
  refine (nodup_plug (P := gs)
    (s := make g.dir g.parent (make f.dir f.parent s f.sibling) g.sibling)).mp h.nodup |>.2.2 x ?_
  rw [(inorder_make_perm ..).mem_iff, List.mem_cons, List.mem_append,
    (inorder_make_perm ..).mem_iff, List.mem_cons, List.mem_append]
  tauto

theorem RBFixInv.noRedRed (h : RBFixInv red P s e)
    (hstop : ∀ f ∈ P.head?, red f.parent = false) : NoRedRed red (plug P s) := by
  obtain ⟨hns, -, hdisj⟩ := nodup_plug.mp h.nodup
  refine h.redOk.noRedRed_plug ((RedOk.plug_focus h.redOk).noRedRed_of_root h.focus hns)
    (hdisj e (root_mem_inorder h.focus)) fun f hf hr => ?_
  rw [hstop f hf] at hr
  cases hr

end Walk

/-! ## One step of the walk -/

section Fixup

variable [DecidableEq α]

/-- The colours after the grandparent `g`, the parent `p` and the uncle `u` change theirs. -/
def flipColours (red : α → Bool) (g p u : α) (x : α) : Bool :=
  if x = g ∨ x = p ∨ x = u then !red x else red x

/-- One step of the walk up from `e` at the root of `s`, under a red parent `f.parent` whose
parent is `g.parent`. -/
inductive FixupMove (red : α → Bool) :
    List (Frame α) → BinaryTree α → α → (α → Bool) → List (Frame α) → BinaryTree α → α → Prop
  /-- A red uncle: the three colours flip, and the walk goes on from the grandparent. -/
  | flip {f g : Frame α} {gs : List (Frame α)} {s : BinaryTree α} {e u : α} :
      red f.parent = true → g.sibling.root = some u → red u = true →
      FixupMove red (f :: g :: gs) s e (flipColours red g.parent f.parent u) gs
        (g.attach (f.attach s)) g.parent
  /-- A black uncle, `e` on the outer side: one rotation at the grandparent. -/
  | outer {f g : Frame α} {gs : List (Frame α)} {s : BinaryTree α} {e : α} :
      red f.parent = true → redRoot red g.sibling = false → f.dir = g.dir →
      FixupMove red (f :: g :: gs) s e
        (Function.update (Function.update red f.parent false) g.parent true)
        (⟨g.dir, f.parent, make g.dir g.parent f.sibling g.sibling⟩ :: gs) s e
  /-- A black uncle, `e` on the inner side: a rotation at the parent brings `e` up, then the one
  at the grandparent; the walk stays at the old parent. -/
  | inner {f g : Frame α} {gs : List (Frame α)} {e : α} {X Y : BinaryTree α} :
      red f.parent = true → redRoot red g.sibling = false → f.dir = g.dir.other →
      FixupMove red (f :: g :: gs) (make g.dir.other e X Y) e
        (Function.update (Function.update red e false) g.parent true)
        (⟨g.dir, e, make g.dir g.parent X g.sibling⟩ :: gs)
        (make g.dir.other f.parent Y f.sibling) f.parent

variable {red red' : α → Bool} {P P' : List (Frame α)} {s s' : BinaryTree α} {e e' : α}

theorem FixupMove.length_lt (h : FixupMove red P s e red' P' s' e') : P'.length < P.length := by
  cases h <;> simp

theorem FixupMove.inorder_eq (h : FixupMove red P s e red' P' s' e') :
    (plug P' s').inorder = (plug P s).inorder := by
  cases h with
  | flip => rfl
  | @outer f g gs s e _ _ hd =>
    obtain ⟨d, p, Zp⟩ := f
    dsimp only at hd
    subst hd
    show (plug gs (make g.dir p s (make g.dir g.parent Zp g.sibling))).inorder =
      (plug gs (make g.dir g.parent (make g.dir p s Zp) g.sibling)).inorder
    rw [← make_other]
    exact inorder_plug_congr gs (inorder_make_rotate ..)
  | @inner f g gs e X Y _ _ hd =>
    obtain ⟨d, p, Zp⟩ := f
    dsimp only at hd
    subst hd
    show (plug gs (make g.dir e (make g.dir.other p Y Zp)
        (make g.dir g.parent X g.sibling))).inorder =
      (plug gs (make g.dir g.parent (make g.dir.other p (make g.dir.other e X Y) Zp)
        g.sibling)).inorder
    refine inorder_plug_congr gs ?_
    have h1 : (make g.dir.other p (make g.dir.other e X Y) Zp).inorder =
        (make g.dir e (make g.dir.other p Y Zp) X).inorder := by
      rw [← inorder_make_rotate, Dir.other_other]
    rw [inorder_make_congr _ _ _ h1, ← make_other, inorder_make_rotate]

theorem flipColours_of_ne {g p u x : α} (hg : x ≠ g) (hp : x ≠ p) (hu : x ≠ u) :
    flipColours red g p u x = red x := by
  simp [flipColours, hg, hp, hu]

theorem flipColours_flips {g p u x : α} (h : x = g ∨ x = p ∨ x = u) :
    flipColours red g p u x = !red x := by
  simp [flipColours, h]

/-- A red uncle: after the flip the grandparent is red over two black children, and the walk
goes on from it. -/
theorem RBFixInv.flip {f g : Frame α} {gs : List (Frame α)} {u : α}
    (h : RBFixInv red (f :: g :: gs) s e) (hp : red f.parent = true)
    (hu : g.sibling.root = some u) (hur : red u = true) :
    RBFixInv (flipColours red g.parent f.parent u) gs (g.attach (f.attach s)) g.parent := by
  obtain ⟨hg, ⟨m, hs, hZ, hU⟩, hns, hnZ, hnU, -⟩ := h.grand hp
  obtain ⟨hndS, -, hdisj⟩ := (nodup_plug (P := gs)
    (s := make g.dir g.parent (make f.dir f.parent s f.sibling) g.sibling)).mp h.nodup
  obtain ⟨hgp, hgs, hgZ, hgU, hps, hpZ, hpU, hsZU, hZU, -, -, hUn⟩ := nodup_make_make hndS
  obtain ⟨Ul, Ur, hUeq⟩ := exists_make hu .left
  have huU : u ∈ g.sibling.inorder := root_mem_inorder hu
  rw [hUeq, make_left, inorder_node] at hUn
  obtain ⟨huL, huR⟩ := Walk.not_mem_of_nodup_split hUn
  have hUin : ∀ x, x ∈ Ul.inorder ∨ x ∈ Ur.inorder → x ∈ g.sibling.inorder := by
    intro x hx
    rw [hUeq, make_left, inorder_node]
    rcases hx with hx | hx <;> simp [hx]
  have hflip : ∀ x, x ≠ g.parent → x ≠ f.parent → x ≠ u →
      flipColours red g.parent f.parent u x = red x := fun x => flipColours_of_ne
  have hS : ∀ x ∈ s.inorder, flipColours red g.parent f.parent u x = red x := fun x hx =>
    hflip x (ne_of_mem_of_not_mem hx hgs) (ne_of_mem_of_not_mem hx hps)
      (fun h => (hsZU x hx).2 (h ▸ huU))
  have hZ' : ∀ x ∈ f.sibling.inorder, flipColours red g.parent f.parent u x = red x := fun x hx =>
    hflip x (ne_of_mem_of_not_mem hx hgZ) (ne_of_mem_of_not_mem hx hpZ)
      (fun h => hZU x hx (h ▸ huU))
  have hUL : ∀ x, x ∈ Ul.inorder ∨ x ∈ Ur.inorder →
      flipColours red g.parent f.parent u x = red x := fun x hx =>
    hflip x (ne_of_mem_of_not_mem (hUin x hx) hgU) (ne_of_mem_of_not_mem (hUin x hx) hpU)
      (by rcases hx with hx | hx; exacts [ne_of_mem_of_not_mem hx huL, ne_of_mem_of_not_mem hx huR])
  have hpath : ∀ x ∈ pathNodes gs, flipColours red g.parent f.parent u x = red x := by
    intro x hx
    have hS' : ∀ y, y = g.parent ∨ y = f.parent ∨ y = u →
        y ∈ (make g.dir g.parent (make f.dir f.parent s f.sibling) g.sibling).inorder := by
      intro y hy
      rw [(inorder_make_perm ..).mem_iff, List.mem_cons, List.mem_append,
        (inorder_make_perm ..).mem_iff, List.mem_cons]
      rcases hy with rfl | rfl | rfl
      · exact .inl rfl
      · exact .inr (.inl (.inl rfl))
      · exact .inr (.inr huU)
    exact hflip x (fun h => hdisj g.parent (hS' _ (.inl rfl)) (h ▸ hx))
      (fun h => hdisj f.parent (hS' _ (.inr (.inl rfl))) (h ▸ hx))
      (fun h => hdisj u (hS' _ (.inr (.inr rfl))) (h ▸ hx))
  have hgr : flipColours red g.parent f.parent u g.parent = true := by
    rw [flipColours_flips (.inl rfl), hg]; rfl
  have hpr : flipColours red g.parent f.parent u f.parent = false := by
    rw [flipColours_flips (.inr (.inl rfl)), hp]; rfl
  have hur' : flipColours red g.parent f.parent u u = false := by
    rw [flipColours_flips (.inr (.inr rfl)), hur]; rfl
  rw [hUeq] at hU hnU
  obtain ⟨m', hUl, hUr, hm'⟩ := blackHeight_make.mp hU
  simp only [hur, ↓reduceIte, Nat.add_zero] at hm'
  subst hm'
  obtain ⟨hnUl, hnUr, -⟩ := noRedRed_make.mp hnU
  obtain ⟨n, hn⟩ := h.balanced
  refine ⟨⟨n, BlackHeight.plug_congr (P := gs) (m := m + 1) hn ?_ ?_ hpath⟩, ?_, root_attach ..,
    hgr, h.nodup⟩
  · exact blackHeight_make.mpr ⟨m, blackHeight_make.mpr ⟨m, hs, hZ, by simp [hp]⟩,
      hUeq ▸ blackHeight_make.mpr ⟨m, hUl, hUr, by simp [hur]⟩, by simp [hg]⟩
  · exact blackHeight_make.mpr ⟨m + 1, blackHeight_make.mpr ⟨m, hs.congr hS, hZ.congr hZ',
      by simp [hpr]⟩, hUeq ▸ blackHeight_make.mpr ⟨m, hUl.congr fun x hx => hUL x (.inl hx),
      hUr.congr fun x hx => hUL x (.inr hx), by simp [hur']⟩, by simp [hgr]⟩
  · refine RedOk.plug_congr (P := gs) h.redOk ?_ hpath (hdisj e ?_)
      (hdisj g.parent (by simp [(inorder_make_perm ..).mem_iff]))
      (fun _ _ _ hr => absurd (root_attach ..) hr)
    · refine redOk_make.mpr ⟨redOk_make.mpr ⟨(hns.redOk _).congr hS, (hnZ.redOk _).congr hZ',
        fun h => absurd h (by simp [hpr])⟩, hUeq ▸ redOk_make.mpr ⟨(hnUl.redOk _).congr
        fun x hx => hUL x (.inl hx), (hnUr.redOk _).congr fun x hx => hUL x (.inr hx),
        fun h => absurd h (by simp [hur'])⟩, fun _ => ⟨fun _ => by
          rw [redRoot_of_root (root_attach f s), hpr], fun _ => ?_⟩⟩
      rw [hUeq, redRoot_make, hur']
    · rw [(inorder_make_perm ..).mem_iff, List.mem_cons, List.mem_append,
        (inorder_make_perm ..).mem_iff, List.mem_cons, List.mem_append]
      exact .inr (.inl (.inr (.inl (root_mem_inorder h.focus))))

theorem update_update_of_ne {a b x : α} {v w : Bool} (ha : x ≠ a) (hb : x ≠ b) :
    Function.update (Function.update red a v) b w x = red x := by
  rw [Function.update_of_ne hb, Function.update_of_ne ha]

/-- A black uncle, `e` on the outer side: after the rotation the old parent is black over `e`
and the old grandparent, now red over two black subtrees. -/
theorem RBFixInv.outer {f g : Frame α} {gs : List (Frame α)}
    (h : RBFixInv red (f :: g :: gs) s e) (hp : red f.parent = true)
    (hU : redRoot red g.sibling = false) (hd : f.dir = g.dir) :
    RBFixInv (Function.update (Function.update red f.parent false) g.parent true)
      (⟨g.dir, f.parent, make g.dir g.parent f.sibling g.sibling⟩ :: gs) s e := by
  obtain ⟨hg, ⟨m, hs, hZ, hUh⟩, hns, hnZ, hnU, hZb⟩ := h.grand hp
  obtain ⟨hndS, -, -⟩ := (nodup_plug (P := gs)
    (s := make g.dir g.parent (make f.dir f.parent s f.sibling) g.sibling)).mp h.nodup
  obtain ⟨hgp, hgs, hgZ, hgU, hps, hpZ, hpU, -, -, -, -, -⟩ := nodup_make_make hndS
  have he := root_mem_inorder h.focus
  have hag : ∀ {t : BinaryTree α}, g.parent ∉ t.inorder → f.parent ∉ t.inorder →
      ∀ x ∈ t.inorder, Function.update (Function.update red f.parent false) g.parent true x =
        red x :=
    fun hg' hp' x hx => update_update_of_ne (ne_of_mem_of_not_mem hx hp') (ne_of_mem_of_not_mem hx hg')
  have hpath : ∀ x ∈ pathNodes gs,
      Function.update (Function.update red f.parent false) g.parent true x = red x := by
    intro x hx
    exact update_update_of_ne (fun h' => h.off_path (.inr (.inl h')) hx)
      (fun h' => h.off_path (.inl h') hx)
  have hgr : Function.update (Function.update red f.parent false) g.parent true g.parent = true :=
    Function.update_self ..
  have hpr : Function.update (Function.update red f.parent false) g.parent true f.parent =
      false := by
    rw [Function.update_of_ne (Ne.symm hgp), Function.update_self]
  obtain ⟨n, hn⟩ := h.balanced
  refine ⟨⟨n, BlackHeight.plug_congr (P := gs) (m := m + 1) hn ?_ ?_ hpath⟩, ?_, h.focus, ?_,
    (FixupMove.outer (e := e) hp hU hd).inorder_eq ▸ h.nodup⟩
  · exact blackHeight_make.mpr ⟨m, blackHeight_make.mpr ⟨m, hs, hZ, by simp [hp]⟩, hUh,
      by simp [hg]⟩
  · exact blackHeight_make.mpr ⟨m, hs.congr (hag hgs hps), blackHeight_make.mpr ⟨m,
      hZ.congr (hag hgZ hpZ), hUh.congr (hag hgU hpU), by simp⟩, by simp [hpr]⟩
  · refine RedOk.plug_congr (P := gs) h.redOk ?_ hpath (h.off_path (.inr (.inr (.inl he))))
      (h.off_path (.inr (.inr (.inl he)))) fun _ _ _ _ => by
        rw [redRoot_of_root (root_attach _ s)]
        exact hpr
    refine redOk_make.mpr ⟨(hns.redOk e).congr (hag hgs hps), redOk_make.mpr ⟨(hnZ.redOk e).congr
      (hag hgZ hpZ), (hnU.redOk e).congr (hag hgU hpU), fun _ => ⟨fun _ => ?_, fun _ => ?_⟩⟩,
      fun h' => absurd h' (by simp [hpr])⟩
    · rw [redRoot_congr (hag hgZ hpZ), hZb]
    · rw [redRoot_congr (hag hgU hpU), hU]
  · rw [update_update_of_ne (ne_of_mem_of_not_mem he hps) (ne_of_mem_of_not_mem he hgs)]
    exact h.entry_red

/-- A black uncle, `e` on the inner side: after the two rotations `e` is black over the old
parent, red with two black children, and the old grandparent, red over two black subtrees. -/
theorem RBFixInv.inner {f g : Frame α} {gs : List (Frame α)} {X Y : BinaryTree α}
    (h : RBFixInv red (f :: g :: gs) (make g.dir.other e X Y) e) (hp : red f.parent = true)
    (hU : redRoot red g.sibling = false) (hd : f.dir = g.dir.other) :
    RBFixInv (Function.update (Function.update red e false) g.parent true)
      (⟨g.dir, e, make g.dir g.parent X g.sibling⟩ :: gs)
      (make g.dir.other f.parent Y f.sibling) f.parent := by
  obtain ⟨hg, ⟨m, hs, hZ, hUh⟩, hns, hnZ, hnU, hZb⟩ := h.grand hp
  obtain ⟨hndS, -, -⟩ := (nodup_plug (P := gs) (s := make g.dir g.parent
    (make f.dir f.parent (make g.dir.other e X Y) f.sibling) g.sibling)).mp h.nodup
  obtain ⟨hgp, hgs, hgZ, hgU, hps, hpZ, hpU, hsZU, -, hsn, -, -⟩ := nodup_make_make hndS
  have hXs : ∀ x ∈ X.inorder, x ∈ (make g.dir.other e X Y).inorder := fun x hx =>
    (inorder_make_perm ..).mem_iff.mpr (List.mem_cons_of_mem _ (List.mem_append_left _ hx))
  have hYs : ∀ x ∈ Y.inorder, x ∈ (make g.dir.other e X Y).inorder := fun x hx =>
    (inorder_make_perm ..).mem_iff.mpr (List.mem_cons_of_mem _ (List.mem_append_right _ hx))
  have hes : e ∈ (make g.dir.other e X Y).inorder := root_mem_inorder (root_make ..)
  have heX : e ∉ X.inorder := fun hx =>
    (List.nodup_cons.mp ((inorder_make_perm ..).nodup_iff.mp hsn)).1 (List.mem_append_left _ hx)
  have heY : e ∉ Y.inorder := fun hy =>
    (List.nodup_cons.mp ((inorder_make_perm ..).nodup_iff.mp hsn)).1 (List.mem_append_right _ hy)
  obtain ⟨m', hXh, hYh, hm'⟩ := blackHeight_make.mp hs
  simp only [h.entry_red, ↓reduceIte, Nat.add_zero] at hm'
  subst hm'
  obtain ⟨hnX, hnY, hXY⟩ := noRedRed_make.mp hns
  obtain ⟨hXb, hYb⟩ := hXY h.entry_red
  have hag : ∀ {t : BinaryTree α}, g.parent ∉ t.inorder → e ∉ t.inorder →
      ∀ x ∈ t.inorder, Function.update (Function.update red e false) g.parent true x = red x :=
    fun hg' he' x hx => update_update_of_ne (ne_of_mem_of_not_mem hx he') (ne_of_mem_of_not_mem hx hg')
  have hgX : g.parent ∉ X.inorder := fun hx => hgs (hXs _ hx)
  have hgY : g.parent ∉ Y.inorder := fun hy => hgs (hYs _ hy)
  have heZ : e ∉ f.sibling.inorder := (hsZU e hes).1
  have heU : e ∉ g.sibling.inorder := (hsZU e hes).2
  have hpath : ∀ x ∈ pathNodes gs,
      Function.update (Function.update red e false) g.parent true x = red x := by
    intro x hx
    exact update_update_of_ne (fun h' => h.off_path (.inr (.inr (.inl (h' ▸ hes)))) hx)
      (fun h' => h.off_path (.inl h') hx)
  have hpe : f.parent ≠ e := fun h' => hps (h' ▸ hes)
  have hpr : Function.update (Function.update red e false) g.parent true f.parent = true := by
    rw [update_update_of_ne hpe (Ne.symm hgp)]
    exact hp
  have her : Function.update (Function.update red e false) g.parent true e = false := by
    rw [Function.update_of_ne (ne_of_mem_of_not_mem hes hgs), Function.update_self]
  obtain ⟨n, hn⟩ := h.balanced
  refine ⟨⟨n, BlackHeight.plug_congr (P := gs) (m := m + 1) hn ?_ ?_ hpath⟩, ?_, root_make ..,
    hpr, (FixupMove.inner hp hU hd).inorder_eq ▸ h.nodup⟩
  · exact blackHeight_make.mpr ⟨m, blackHeight_make.mpr ⟨m, hs, hZ, by simp [hp]⟩, hUh,
      by simp [hg]⟩
  · exact blackHeight_make.mpr ⟨m, blackHeight_make.mpr ⟨m, hYh.congr (hag hgY heY),
      hZ.congr (hag hgZ heZ), by simp [hpr]⟩, blackHeight_make.mpr ⟨m, hXh.congr (hag hgX heX),
      hUh.congr (hag hgU heU), by simp⟩, by simp [her]⟩
  · refine RedOk.plug_congr (P := gs) h.redOk ?_ hpath (h.off_path (.inr (.inr (.inl hes))))
      (h.off_path (.inr (.inl rfl))) fun _ _ _ _ => by
        rw [redRoot_of_root (root_attach _ _)]
        exact her
    refine redOk_make.mpr ⟨redOk_make.mpr ⟨(hnY.redOk _).congr (hag hgY heY),
      (hnZ.redOk _).congr (hag hgZ heZ), fun _ => ⟨fun _ => ?_, fun _ => ?_⟩⟩,
      redOk_make.mpr ⟨(hnX.redOk _).congr (hag hgX heX), (hnU.redOk _).congr (hag hgU heU),
        fun _ => ⟨fun _ => ?_, fun _ => ?_⟩⟩, fun h' => absurd h' (by simp [her])⟩
    · rw [redRoot_congr (hag hgY heY), hYb]
    · rw [redRoot_congr (hag hgZ heZ), hZb]
    · rw [redRoot_congr (hag hgX heX), hXb]
    · rw [redRoot_congr (hag hgU heU), hU]

theorem FixupMove.rbFixInv (hm : FixupMove red P s e red' P' s' e') (h : RBFixInv red P s e) :
    RBFixInv red' P' s' e' := by
  cases hm with
  | flip hp hu hur => exact h.flip hp hu hur
  | outer hp hU hd => exact h.outer hp hU hd
  | inner hp hU hd => exact h.inner hp hU hd

theorem RBFixInv.link {Q : List (Frame α)} {n : Nat} (hnr : NoRedRed red (plug Q nil))
    (hbh : BlackHeight red (plug Q nil) n) (hnd : (plug Q nil).inorder.Nodup)
    (he : e ∉ (plug Q nil).inorder) :
    RBFixInv (Function.update red e true) Q (node e nil nil) e := by
  have heP : e ∉ pathNodes Q := fun h => he (mem_plug.mpr (.inr h))
  have hpath : ∀ x ∈ pathNodes Q, Function.update red e true x = red x := fun x hx =>
    Function.update_of_ne (ne_of_mem_of_not_mem hx heP) _ _
  obtain ⟨-, hndP, -⟩ := nodup_plug.mp hnd
  refine ⟨⟨n, BlackHeight.plug_congr (P := Q) hbh rfl ⟨0, rfl, rfl, by simp⟩ hpath⟩,
    RedOk.plug_congr (hnr.redOk e) ⟨trivial, trivial, fun _ => ⟨fun _ => rfl, fun _ => rfl⟩⟩
      hpath heP heP fun _ _ _ hr => absurd rfl hr,
    rfl, Function.update_self .., nodup_plug.mpr ⟨by simp, hndP, fun x hx => ?_⟩⟩
  rw [inorder_node, inorder_nil, List.nil_append, List.mem_singleton] at hx
  exact hx ▸ heP

end Fixup

theorem RBFixInv.isRedBlack [DecidableEq α] {red : α → Bool} {P : List (Frame α)}
    {s : BinaryTree α} {e r : α} (h : RBFixInv red P s e)
    (hstop : ∀ f ∈ P.head?, red f.parent = false) (hr : (plug P s).root = some r) :
    IsRedBlack (Function.update red r false) (plug P s) := by
  obtain ⟨n, hn⟩ := h.balanced
  exact ⟨hn.blacken_root hr h.nodup, (h.noRedRed hstop).blacken, by simp [redRoot_of_root hr]⟩

end BinaryTree
