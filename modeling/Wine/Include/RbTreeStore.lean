import Wine.Include.RbTreeRemove

/-!
# The tree as a map from keys to entries

Callers of include/wine/rbtree.h use a tree as a map from keys to entries: `rb_put` adds an
entry for a key that has none, `rb_remove` and `rb_remove_key` drop the entry of a key,
`rb_replace` puts another entry of the same key in its place, and `rb_get` reads the entry of a
key. On a tree ordered by the keys, the map is `keyMap` of the in-order list: the first entry of
each key, which is what `rb_get` returns.

Every run of these calls, each made as its contract asks, keeps a well-formed red-black tree,
and changes `keyMap` as the same calls change a map; after the run `rb_get` of any key returns
what the map holds for it.
-/

namespace Wine.RbTree

set_option autoImplicit false

open BinaryTree

variable {K : Type} [LinearOrder K] {keyOf : Nat → K}

/-- The entry of each key in an in-order list: the first one with that key. -/
def keyMap (keyOf : Nat → K) (l : List Nat) (k : K) : Option Nat :=
  l.find? (fun x => keyOf x = k)

section KeyMap

variable {l l' : List Nat} {k : K} {x : Nat}

theorem key_inj (hl : l.Pairwise (KeyLt keyOf)) {y : Nat} (hx : x ∈ l) (hy : y ∈ l)
    (h : keyOf x = keyOf y) : x = y := by
  have hlt : (l.map keyOf).Pairwise (· < ·) := List.pairwise_map.mpr hl
  exact List.inj_on_of_nodup_map hlt.nodup hx hy h

theorem keyMap_eq_none : keyMap keyOf l k = none ↔ ∀ x ∈ l, keyOf x ≠ k := by
  simp [keyMap, List.find?_eq_none]

theorem keyMap_of_mem (hl : l.Pairwise (KeyLt keyOf)) (hx : x ∈ l) :
    keyMap keyOf l (keyOf x) = some x := by
  obtain ⟨y, hy⟩ : ∃ y, keyMap keyOf l (keyOf x) = some y := by
    cases h : keyMap keyOf l (keyOf x) with
    | none => exact absurd rfl (keyMap_eq_none.mp h x hx)
    | some y => exact ⟨y, rfl⟩
  have hyk : keyOf y = keyOf x := by simpa using List.find?_some hy
  rw [hy, key_inj hl (List.mem_of_find?_eq_some hy) hx hyk]

theorem keyMap_eq_some (hl : l.Pairwise (KeyLt keyOf)) :
    keyMap keyOf l k = some x ↔ x ∈ l ∧ keyOf x = k := by
  constructor
  · intro h
    exact ⟨List.mem_of_find?_eq_some h, by simpa using List.find?_some h⟩
  · rintro ⟨hx, rfl⟩
    exact keyMap_of_mem hl hx

theorem keyMap_congr (hl : l.Pairwise (KeyLt keyOf)) (hl' : l'.Pairwise (KeyLt keyOf))
    (h : ∀ x, keyOf x = k → (x ∈ l' ↔ x ∈ l)) : keyMap keyOf l' k = keyMap keyOf l k := by
  cases hm : keyMap keyOf l k with
  | none =>
    exact keyMap_eq_none.mpr fun x hx hk => keyMap_eq_none.mp hm x ((h x hk).mp hx) hk
  | some y =>
    obtain ⟨hy, hyk⟩ := (keyMap_eq_some hl).mp hm
    exact (keyMap_eq_some hl').mpr ⟨(h y hyk).mpr hy, hyk⟩

theorem keyMap_insert {l₁ l₂ : List Nat} {e : Nat} (hl : (l₁ ++ l₂).Pairwise (KeyLt keyOf))
    (hl' : (l₁ ++ e :: l₂).Pairwise (KeyLt keyOf)) :
    keyMap keyOf (l₁ ++ e :: l₂) = Function.update (keyMap keyOf (l₁ ++ l₂)) (keyOf e) (some e) := by
  funext k
  by_cases hk : k = keyOf e
  · subst hk
    rw [Function.update_self, keyMap_of_mem hl' (by simp)]
  · rw [Function.update_of_ne hk]
    refine keyMap_congr hl hl' fun x hxk => ?_
    have hxe : x ≠ e := by
      rintro rfl
      exact hk hxk.symm
    simp [hxe]

theorem keyMap_erase {e : Nat} (hl : l.Pairwise (KeyLt keyOf)) (hnd : l.Nodup) (he : e ∈ l) :
    keyMap keyOf (l.erase e) = Function.update (keyMap keyOf l) (keyOf e) none := by
  have hl' : (l.erase e).Pairwise (KeyLt keyOf) := hl.sublist (List.erase_sublist ..)
  funext k
  by_cases hk : k = keyOf e
  · subst hk
    rw [Function.update_self]
    refine keyMap_eq_none.mpr fun x hx hxk => ?_
    rw [hnd.mem_erase_iff] at hx
    exact hx.1 (key_inj hl hx.2 he hxk)
  · rw [Function.update_of_ne hk]
    refine keyMap_congr hl hl' fun x hxk => ?_
    have hxe : x ≠ e := by
      rintro rfl
      exact hk hxk.symm
    rw [hnd.mem_erase_iff]
    exact and_iff_right hxe

theorem keyMap_filter {key : K} (hl : l.Pairwise (KeyLt keyOf)) :
    keyMap keyOf (l.filter (fun x => keyOf x ≠ key)) = Function.update (keyMap keyOf l) key none := by
  have hl' : (l.filter (fun x => keyOf x ≠ key)).Pairwise (KeyLt keyOf) :=
    hl.sublist (List.filter_sublist ..)
  funext k
  by_cases hk : k = key
  · subst hk
    rw [Function.update_self]
    exact keyMap_eq_none.mpr fun x hx hxk => by simp_all
  · rw [Function.update_of_ne hk]
    refine keyMap_congr hl hl' fun x hxk => ?_
    have : keyOf x ≠ key := hxk ▸ hk
    simp [this]

theorem keyMap_rename {dst src : Nat} (hl : l.Pairwise (KeyLt keyOf))
    (hl' : (l.map (fun x => if x = dst then src else x)).Pairwise (KeyLt keyOf))
    (hdst : dst ∈ l) (hkey : keyOf src = keyOf dst) :
    keyMap keyOf (l.map (fun x => if x = dst then src else x)) =
      Function.update (keyMap keyOf l) (keyOf dst) (some src) := by
  funext k
  by_cases hk : k = keyOf dst
  · subst hk
    rw [Function.update_self, ← hkey]
    exact keyMap_of_mem hl' (List.mem_map.mpr ⟨dst, hdst, if_pos rfl⟩)
  · rw [Function.update_of_ne hk]
    refine keyMap_congr hl hl' fun x hxk => ?_
    have hxd : x ≠ dst := fun h => hk (h ▸ hxk).symm
    have hxs : x ≠ src := fun h => hk (hkey ▸ h ▸ hxk).symm
    constructor
    · rintro hx
      obtain ⟨y, hy, hyx⟩ := List.mem_map.mp hx
      split_ifs at hyx with hyd
      · exact absurd hyx.symm hxs
      · exact hyx ▸ hy
    · intro hx
      exact List.mem_map.mpr ⟨x, hx, if_neg hxd⟩

end KeyMap

/-! ## Calls and their contracts -/

/-- The calls that change a tree, with what their contracts name: the key of `rb_remove_key`. -/
inductive Call (K : Type) where
  | put (entry : Nat) (compare : Nat → Int)
  | remove (entry : Nat)
  | removeKey (key : K) (compare : Nat → Int)
  | replace (dst src : Nat)

/-- The calls as the code makes them; the value rb_put returns is dropped. -/
def Call.apply (fuel : Nat) (t : Tree) : Call K → Option Tree
  | .put entry compare => Prod.snd <$> rbPut t compare entry fuel
  | .remove entry => rbRemove t entry fuel
  | .removeKey _ compare => rbRemoveKey t compare fuel
  | .replace dst src => rbReplace t dst src

/-- What each call does to a map from keys to entries. -/
def Call.mapOp (keyOf : Nat → K) (m : K → Option Nat) : Call K → K → Option Nat
  | .put entry _ =>
    if m (keyOf entry) = none then Function.update m (keyOf entry) (some entry) else m
  | .remove entry => Function.update m (keyOf entry) none
  | .removeKey key _ => Function.update m key none
  | .replace dst src => Function.update m (keyOf dst) (some src)

/-- What the caller guarantees, from the map and the heap before the call: a new entry for
rb_put, with a compare function for its key; an entry of the map for rb_remove; a compare
function for the key of rb_remove_key; for rb_replace an entry of the map and an allocated one
outside it with its key. -/
def Call.Ok (keyOf : Nat → K) (m : K → Option Nat) (heap : Heap) : Call K → Prop
  | .put entry compare => Compares keyOf (keyOf entry) compare ∧ heap entry = none
  | .remove entry => m (keyOf entry) = some entry
  | .removeKey key compare => Compares keyOf key compare
  | .replace dst src =>
    m (keyOf dst) = some dst ∧ keyOf src = keyOf dst ∧ (∀ k, m k ≠ some src) ∧
      (heap src).isSome

def runCalls (fuel : Nat) : Tree → List (Call K) → Option Tree
  | t, [] => some t
  | t, c :: cs => (c.apply fuel t).bind fun t => runCalls fuel t cs

/-- Every call of a run made as its contract asks, from the map and the tree the calls before it
left. -/
def RunOk (keyOf : Nat → K) (fuel : Nat) : (K → Option Nat) → Tree → List (Call K) → Prop
  | _, _, [] => True
  | m, t, c :: cs =>
    c.Ok keyOf m t.heap ∧ ∀ t', c.apply fuel t = some t' → RunOk keyOf fuel (c.mapOp keyOf m) t' cs

/-! ## One call, then a run -/

section Run

variable {t : Tree} {T : BinaryTree Nat} {fuel : Nat}

/-- What a call leaves: a well-formed red-black tree, its map changed as the call's operation
says, and at most one entry more. -/
def CallDone (keyOf : Nat → K) (T : BinaryTree Nat) (m : K → Option Nat) (t' : Tree) : Prop :=
  ∃ T', WellFormed t'.heap (KeyLt keyOf) t'.root T' ∧ IsRedBlack t'.red T' ∧
    keyMap keyOf T'.inorder = m ∧ T'.numNodes ≤ T.numNodes + 1

theorem ordered_inorder {heap : Heap} {root : Option Nat}
    (hwf : WellFormed heap (KeyLt keyOf) root T) :
    T.inorder.Pairwise (KeyLt keyOf) := by
  have : IsTrans Nat (KeyLt keyOf) := ⟨fun _ _ _ => lt_trans⟩
  exact hwf.ordered.inorder_pairwise

theorem remove_step {e : Nat} (hwf : WellFormed t.heap (KeyLt keyOf) t.root T)
    (hrb : IsRedBlack t.red T) (he : e ∈ T.inorder) (hf : 2 * T.numNodes ≤ fuel) :
    ∃ t', rbRemove t e fuel = some t' ∧
      CallDone keyOf T (Function.update (keyMap keyOf T.inorder) (keyOf e) none) t' := by
  have : IsTrans Nat (KeyLt keyOf) := ⟨fun _ _ _ => lt_trans⟩
  obtain ⟨t', T', hrun, hL, hroot, hrb', hin, -⟩ :=
    rbRemove_run hwf.links hwf.root_eq hrb hwf.nodup he hf
  have hlen : T'.numNodes ≤ T.numNodes := by
    rw [← length_inorder, ← length_inorder, hin]
    exact (List.erase_sublist ..).length_le
  refine ⟨t', hrun, T', hwf.of_erase hL hroot hin, hrb', ?_, by omega⟩
  rw [hin, keyMap_erase (ordered_inorder hwf) hwf.nodup he]

theorem put_step {entry : Nat} {compare : Nat → Int}
    (hwf : WellFormed t.heap (KeyLt keyOf) t.root T) (hrb : IsRedBlack t.red T)
    (hcmp : Compares keyOf (keyOf entry) compare) (hfresh : t.heap entry = none)
    (hf : T.numNodes < fuel) :
    ∃ t', (Prod.snd <$> rbPut t compare entry fuel) = some t' ∧
      CallDone keyOf T ((Call.put entry compare).mapOp keyOf (keyMap keyOf T.inorder)) t' := by
  rcases putSlot_spec hcmp hwf.links hwf.ordered hwf.root_eq hf.le with
    ⟨⟨x, hx, hkx⟩, hs⟩ | ⟨hnot, -⟩
  · have hm : keyMap keyOf T.inorder (keyOf entry) ≠ none := by
      rw [← hkx, keyMap_of_mem (ordered_inorder hwf) hx]
      simp
    refine ⟨t, by simp [rbPut, hs], T, hwf, hrb, ?_, by omega⟩
    simp [Call.mapOp, hm]
  · obtain ⟨t', T', l₁, l₂, hrun, hwf', hrb', hT, hT', -⟩ :=
      rbPut_spec hcmp hwf hrb hfresh rfl hnot hf
    have hm : keyMap keyOf T.inorder (keyOf entry) = none := keyMap_eq_none.mpr hnot
    have hlen : T'.numNodes = T.numNodes + 1 := by
      rw [← length_inorder, ← length_inorder, hT, hT']
      simp only [List.length_append, List.length_cons]
      omega
    refine ⟨t', by simp [hrun], T', hwf', hrb', ?_, by omega⟩
    have hl := ordered_inorder hwf
    rw [hT] at hl
    rw [hT', keyMap_insert hl (hT' ▸ ordered_inorder hwf'), ← hT]
    simp [Call.mapOp, hm]

theorem removeKey_step {key : K} {compare : Nat → Int}
    (hwf : WellFormed t.heap (KeyLt keyOf) t.root T) (hrb : IsRedBlack t.red T)
    (hcmp : Compares keyOf key compare) (hf : 2 * T.numNodes < fuel) :
    ∃ t', rbRemoveKey t compare fuel = some t' ∧
      CallDone keyOf T (Function.update (keyMap keyOf T.inorder) key none) t' := by
  have hget : rbGet t.heap compare fuel t.root = some (keyMap keyOf T.inorder key) := by
    rw [← hwf.root_eq]
    exact rbGet_links hcmp hwf.links hwf.ordered (by omega)
  cases hm : keyMap keyOf T.inorder key with
  | none =>
    refine ⟨t, by simp [rbRemoveKey, hget, hm], T, hwf, hrb, ?_, by omega⟩
    rw [← hm, Function.update_eq_self]
  | some e =>
    obtain ⟨he, hek⟩ := (keyMap_eq_some (ordered_inorder hwf)).mp hm
    have hf' : 2 * T.numNodes ≤ fuel := by omega
    obtain ⟨t', hrun, hdone⟩ := remove_step hwf hrb he hf'
    rw [hek] at hdone
    exact ⟨t', by simp [rbRemoveKey, hget, hm, hrun], hdone⟩

theorem replace_step {dst src : Nat} (hwf : WellFormed t.heap (KeyLt keyOf) t.root T)
    (hrb : IsRedBlack t.red T) (hdst : dst ∈ T.inorder) (hsrc : src ∉ T.inorder)
    (halloc : (t.heap src).isSome) (hkey : keyOf src = keyOf dst) :
    ∃ t', rbReplace t dst src = some t' ∧
      CallDone keyOf T (Function.update (keyMap keyOf T.inorder) (keyOf dst) (some src)) t' := by
  obtain ⟨P, L, X, rfl⟩ := exists_plug_of_mem hdst
  obtain ⟨heap, hrun, hL, -⟩ := rbReplace_spec hwf.links hwf.root_eq hwf.nodup hsrc halloc
  have hwf' := hwf.rename hL rfl hsrc hkey
  have hin := inorder_plug_rename (i := src) hwf.nodup
  refine ⟨⟨heap, Function.update t.red src (t.red dst), (plug P (node src L X)).root⟩, hrun,
    plug P (node src L X), hwf', hrb.rename hwf.nodup hsrc, ?_, ?_⟩
  · rw [hin]
    exact keyMap_rename (ordered_inorder hwf) (hin ▸ ordered_inorder hwf') hdst hkey
  · rw [← length_inorder, ← length_inorder, hin, List.length_map]
    omega

theorem Call.apply_spec (c : Call K) (hwf : WellFormed t.heap (KeyLt keyOf) t.root T)
    (hrb : IsRedBlack t.red T) (hok : c.Ok keyOf (keyMap keyOf T.inorder) t.heap)
    (hf : 2 * T.numNodes < fuel) :
    ∃ t', c.apply fuel t = some t' ∧ CallDone keyOf T (c.mapOp keyOf (keyMap keyOf T.inorder)) t' := by
  cases c with
  | put entry compare => exact put_step hwf hrb hok.1 hok.2 (by omega)
  | remove entry =>
    exact remove_step hwf hrb ((keyMap_eq_some (ordered_inorder hwf)).mp hok).1 (by omega)
  | removeKey key compare => exact removeKey_step hwf hrb hok hf
  | replace dst src =>
    obtain ⟨hd, hkey, hs, halloc⟩ := hok
    have hsrc : src ∉ T.inorder := fun h =>
      hs (keyOf src) (keyMap_of_mem (ordered_inorder hwf) h)
    exact replace_step hwf hrb ((keyMap_eq_some (ordered_inorder hwf)).mp hd).1 hsrc halloc
      hkey

/-- Every run of calls made as their contracts ask, from a well-formed red-black tree and with
fuel for two rounds a level of the largest tree of the run: each call returns, the tree stays
well formed and red-black, its map follows the calls' operations, and rb_get of any key then
returns what the map holds for it. -/
theorem runCalls_refines : ∀ (calls : List (Call K)) {t : Tree} {T : BinaryTree Nat},
    WellFormed t.heap (KeyLt keyOf) t.root T → IsRedBlack t.red T →
    RunOk keyOf fuel (keyMap keyOf T.inorder) t calls →
    2 * (T.numNodes + calls.length) < fuel →
    ∃ t' T', runCalls fuel t calls = some t' ∧ WellFormed t'.heap (KeyLt keyOf) t'.root T' ∧
      IsRedBlack t'.red T' ∧
      keyMap keyOf T'.inorder = calls.foldl (Call.mapOp keyOf) (keyMap keyOf T.inorder) ∧
      ∀ (key : K) (compare : Nat → Int), Compares keyOf key compare →
        rbGet t'.heap compare fuel t'.root =
          some (calls.foldl (Call.mapOp keyOf) (keyMap keyOf T.inorder) key)
  | [], t, T, hwf, hrb, _, hf => by
    refine ⟨t, T, rfl, hwf, hrb, rfl, fun key compare hcmp => ?_⟩
    rw [← hwf.root_eq]
    exact rbGet_links hcmp hwf.links hwf.ordered (by simp at hf; omega)
  | c :: cs, t, T, hwf, hrb, ⟨hok, hrest⟩, hf => by
    -- the first call, then the rest of the run from the tree it left, one entry larger at most
    have hf₁ : 2 * T.numNodes < fuel := by
      simp only [List.length_cons] at hf
      omega
    obtain ⟨t₁, hrun, T₁, hwf₁, hrb₁, hm₁, hlen⟩ := c.apply_spec hwf hrb hok hf₁
    have hrest' := hrest t₁ hrun
    rw [← hm₁] at hrest'
    obtain ⟨t', T', hrun', hwf', hrb', hm', hget⟩ :=
      runCalls_refines cs hwf₁ hrb₁ hrest' (by simp at hf; omega)
    rw [hm₁] at hm' hget
    exact ⟨t', T', by simp [runCalls, hrun, hrun'], hwf', hrb', hm', hget⟩

def threeCalls : List (Call Nat) := [.put 3 (keyCompare 3), .remove 1]

theorem runCalls_refines_three :
    WellFormed threeHeap (KeyLt id) (some 1) threeTree ∧ IsRedBlack threeRed threeTree ∧
    RunOk id 11 (keyMap id threeTree.inorder) ⟨threeHeap, threeRed, some 1⟩ threeCalls ∧
    2 * (threeTree.numNodes + threeCalls.length) < 11 ∧
    ∃ t' T', runCalls 11 ⟨threeHeap, threeRed, some 1⟩ threeCalls = some t' ∧
      WellFormed t'.heap (KeyLt id) t'.root T' ∧ IsRedBlack t'.red T' ∧
      keyMap id T'.inorder = threeCalls.foldl (Call.mapOp id) (keyMap id threeTree.inorder) ∧
      ∀ (key : Nat) (compare : Nat → Int), Compares id key compare →
        rbGet t'.heap compare 11 t'.root =
          some (threeCalls.foldl (Call.mapOp id) (keyMap id threeTree.inorder) key) := by
  have hok : RunOk id 11 (keyMap id threeTree.inorder) ⟨threeHeap, threeRed, some 1⟩
      threeCalls := by
    unfold threeCalls
    exact ⟨⟨compares_keyCompare 3, rfl⟩, fun _ _ => ⟨by simp only [Call.Ok]; decide, fun _ _ => trivial⟩⟩
  exact ⟨threeTree_keyLt, threeTree_redBlack, hok, by decide,
    runCalls_refines _ threeTree_keyLt threeTree_redBlack hok (by decide)⟩

end Run

end Wine.RbTree
