import Mathlib

/-! Ordered grant and deny lists over a Boolean algebra of rights.

An entry of the list grants a set of rights, denies one, or does not apply. `walk` is the
ordered reading: a deny entry denies what is not yet granted, a grant entry grants what is not
yet denied. `walkUntil r` is the same walk cut at the first deny entry that meets the request
`r`; `granted` and `denied` forget the order. The main facts: once denied and not granted, a
right stays out of the grant (`disjoint_walk_fst`); a request is covered at the end of the
ordered walk iff it is covered before a deny entry meets its missing part
(`grantedBeforeDeny_iff`); the cut walk grants no more than the ordered one
(`walkUntil_fst_le_walk`) and decides the same unless it stops at a deny entry that meets the
request only in rights already granted (`le_walkUntil_iff`); and the orderless reading grants
at most what the ordered one does (`orderless_le_walk`). -/

set_option autoImplicit false

namespace GrantDeny

inductive Entry (α : Type*) where
  | grant (m : α)
  | deny (m : α)
  | skip
  deriving DecidableEq, Repr

variable {α : Type*} [BooleanAlgebra α]

def walk : List (Entry α) → α → α → α × α
  | [], g, d => (g, d)
  | .grant m :: l, g, d => walk l (g ⊔ m ⊓ dᶜ) d
  | .deny m :: l, g, d => walk l g (d ⊔ m ⊓ gᶜ)
  | .skip :: l, g, d => walk l g d

def granted : List (Entry α) → α
  | [] => ⊥
  | .grant m :: l => m ⊔ granted l
  | .deny _ :: l => granted l
  | .skip :: l => granted l

def denied : List (Entry α) → α
  | [] => ⊥
  | .grant _ :: l => denied l
  | .deny m :: l => m ⊔ denied l
  | .skip :: l => denied l

section Decidable

variable [DecidableEq α] [DecidableLE α]

def walkUntil (r : α) : List (Entry α) → α → α → α × α
  | [], g, d => (g, d)
  | .grant m :: l, g, d => walkUntil r l (g ⊔ m ⊓ dᶜ) d
  | .deny m :: l, g, d =>
    if m ⊓ r = ⊥ then walkUntil r l g (d ⊔ m ⊓ gᶜ) else (g, d ⊔ m ⊓ gᶜ)
  | .skip :: l, g, d => walkUntil r l g d

/-- `r` is covered by the grant before a deny entry meets the part of `r` not yet granted. -/
def grantedBeforeDeny (r : α) : List (Entry α) → α → α → Bool
  | [], g, _ => decide (r ≤ g)
  | .grant m :: l, g, d => decide (r ≤ g) || grantedBeforeDeny r l (g ⊔ m ⊓ dᶜ) d
  | .deny m :: l, g, d =>
    decide (r ≤ g) || (decide (m ⊓ (r ⊓ gᶜ) = ⊥) && grantedBeforeDeny r l g (d ⊔ m ⊓ gᶜ))
  | .skip :: l, g, d => grantedBeforeDeny r l g d

/-- The first deny entry that meets `r` comes while `r` is not yet granted and meets `r` only
in rights already granted: there the cut walk and the ordered one part. -/
def deniesGranted (r : α) : List (Entry α) → α → α → Bool
  | [], _, _ => false
  | .grant m :: l, g, d => deniesGranted r l (g ⊔ m ⊓ dᶜ) d
  | .deny m :: l, g, d =>
    if m ⊓ r = ⊥ then deniesGranted r l g (d ⊔ m ⊓ gᶜ)
    else decide (¬ r ≤ g) && decide (m ⊓ (r ⊓ gᶜ) = ⊥)
  | .skip :: l, g, d => deniesGranted r l g d

end Decidable

theorem le_walk_fst : ∀ (l : List (Entry α)) (g d : α), g ≤ (walk l g d).1
  | [], _, _ => le_rfl
  | .grant _ :: l, _, d => le_sup_left.trans (le_walk_fst l _ d)
  | .deny _ :: l, g, _ => le_walk_fst l g _
  | .skip :: l, g, d => le_walk_fst l g d

theorem disjoint_walk_fst {x : α} :
    ∀ (l : List (Entry α)) (g d : α), Disjoint x g → x ≤ d → Disjoint x (walk l g d).1
  | [], _, _, hg, _ => hg
  | .grant m :: l, g, d, hg, hd => by
    have hm : Disjoint x (m ⊓ dᶜ) :=
      Disjoint.mono_right inf_le_right (disjoint_compl_right.mono_left hd)
    exact disjoint_walk_fst l _ d (disjoint_sup_right.mpr ⟨hg, hm⟩) hd
  | .deny _ :: l, g, _, hg, hd => disjoint_walk_fst l g _ hg (le_sup_of_le_left hd)
  | .skip :: l, g, d, hg, hd => disjoint_walk_fst l g d hg hd

theorem not_le_walk_of_deny {r m g d : α} (l : List (Entry α)) (h : m ⊓ (r ⊓ gᶜ) ≠ ⊥) :
    ¬ r ≤ (walk l g (d ⊔ m ⊓ gᶜ)).1 := by
  intro hr
  have hx : m ⊓ (r ⊓ gᶜ) ≤ d ⊔ m ⊓ gᶜ :=
    le_sup_of_le_right (inf_le_inf_left m inf_le_right)
  have hg : Disjoint (m ⊓ (r ⊓ gᶜ)) g :=
    Disjoint.mono_left (inf_le_right.trans inf_le_right) disjoint_compl_left
  have hdis := disjoint_walk_fst l g _ hg hx
  exact h (hdis.eq_bot_of_le ((inf_le_right.trans inf_le_left).trans hr))

section Decidable

variable [DecidableEq α] [DecidableLE α]

theorem grantedBeforeDeny_of_le {r : α} :
    ∀ (l : List (Entry α)) (g d : α), r ≤ g → grantedBeforeDeny r l g d = true
  | [], _, _, h => by simp [grantedBeforeDeny, h]
  | .grant _ :: _, _, _, h => by simp [grantedBeforeDeny, h]
  | .deny _ :: _, _, _, h => by simp [grantedBeforeDeny, h]
  | .skip :: l, g, d, h => grantedBeforeDeny_of_le l g d h

theorem le_walk_of_grantedBeforeDeny {r : α} :
    ∀ (l : List (Entry α)) (g d : α), grantedBeforeDeny r l g d = true → r ≤ (walk l g d).1
  | [], _, _, h => by simpa [grantedBeforeDeny, walk] using h
  | .grant m :: l, g, d, h => by
    simp only [grantedBeforeDeny, Bool.or_eq_true, decide_eq_true_eq] at h
    rcases h with h | h
    · exact h.trans (le_walk_fst _ g d)
    · exact le_walk_of_grantedBeforeDeny l _ d h
  | .deny m :: l, g, d, h => by
    simp only [grantedBeforeDeny, Bool.or_eq_true, Bool.and_eq_true, decide_eq_true_eq] at h
    rcases h with h | ⟨_, h⟩
    · exact h.trans (le_walk_fst _ g d)
    · exact le_walk_of_grantedBeforeDeny l g _ h
  | .skip :: l, g, d, h => le_walk_of_grantedBeforeDeny l g d h

omit [DecidableLE α] in
theorem le_walkUntil_fst {r : α} :
    ∀ (l : List (Entry α)) (g d : α), g ≤ (walkUntil r l g d).1
  | [], _, _ => le_rfl
  | .grant _ :: l, _, d => le_sup_left.trans (le_walkUntil_fst l _ d)
  | .deny m :: l, g, d => by
    simp only [walkUntil]
    split
    · exact le_walkUntil_fst l g _
    · exact le_rfl
  | .skip :: l, g, d => le_walkUntil_fst l g d

omit [DecidableLE α] in
theorem walkUntil_fst_le_walk {r : α} :
    ∀ (l : List (Entry α)) (g d : α), (walkUntil r l g d).1 ≤ (walk l g d).1
  | [], _, _ => le_rfl
  | .grant _ :: l, _, d => walkUntil_fst_le_walk l _ d
  | .deny m :: l, g, d => by
    simp only [walkUntil, walk]
    split
    · exact walkUntil_fst_le_walk l g _
    · exact le_walk_fst l g _
  | .skip :: l, g, d => walkUntil_fst_le_walk l g d

theorem grantedBeforeDeny_iff {r : α} :
    ∀ (l : List (Entry α)) (g d : α), grantedBeforeDeny r l g d = true ↔ r ≤ (walk l g d).1
  | [], _, _ => by simp [grantedBeforeDeny, walk]
  | .grant m :: l, g, d => by
    refine ⟨le_walk_of_grantedBeforeDeny _ g d, fun h => ?_⟩
    simp only [grantedBeforeDeny, Bool.or_eq_true]
    exact .inr ((grantedBeforeDeny_iff l _ d).mpr h)
  | .deny m :: l, g, d => by
    refine ⟨le_walk_of_grantedBeforeDeny _ g d, fun h => ?_⟩
    simp only [grantedBeforeDeny, Bool.or_eq_true, Bool.and_eq_true, decide_eq_true_eq]
    by_cases hm : m ⊓ (r ⊓ gᶜ) = ⊥
    · exact .inr ⟨hm, (grantedBeforeDeny_iff l g _).mpr h⟩
    · exact absurd h (not_le_walk_of_deny l hm)
  | .skip :: l, g, d => grantedBeforeDeny_iff l g d

theorem le_walkUntil_iff {r : α} :
    ∀ (l : List (Entry α)) (g d : α), deniesGranted r l g d = false →
      (r ≤ (walkUntil r l g d).1 ↔ grantedBeforeDeny r l g d = true)
  | [], _, _, _ => by simp [walkUntil, grantedBeforeDeny]
  | .grant m :: l, g, d, h => by
    rw [walkUntil, le_walkUntil_iff l _ d h]
    simp only [grantedBeforeDeny, Bool.or_eq_true, decide_eq_true_eq]
    exact ⟨Or.inr, fun h' => h'.elim (fun hg => grantedBeforeDeny_of_le l _ d
      (hg.trans le_sup_left)) id⟩
  | .deny m :: l, g, d, h => by
    simp only [deniesGranted] at h
    simp only [walkUntil, grantedBeforeDeny, Bool.or_eq_true, Bool.and_eq_true,
      decide_eq_true_eq]
    split at h
    case isTrue hmr =>
      have hmiss : m ⊓ (r ⊓ gᶜ) = ⊥ := le_bot_iff.mp (hmr ▸ inf_le_inf_left m inf_le_left)
      rw [if_pos hmr, le_walkUntil_iff l g _ h]
      exact ⟨Or.inr ∘ And.intro hmiss, fun h' => h'.elim
        (fun hg => grantedBeforeDeny_of_le l g _ hg) And.right⟩
    case isFalse hmr =>
      -- the cut walk stops here; the ordered one goes on only past a missed `r ⊓ gᶜ`
      rw [if_neg hmr]
      simp only [Bool.and_eq_false_iff, decide_eq_false_iff_not, not_not] at h
      constructor
      · exact .inl
      · rintro (hg | ⟨hm, _⟩)
        · exact hg
        · exact h.resolve_right (not_not.mpr hm)
  | .skip :: l, g, d, h => le_walkUntil_iff l g d h

theorem not_le_walkUntil_of_deniesGranted {r : α} :
    ∀ (l : List (Entry α)) (g d : α), deniesGranted r l g d = true → ¬ r ≤ (walkUntil r l g d).1
  | [], _, _, h => by simp [deniesGranted] at h
  | .grant m :: l, g, d, h => not_le_walkUntil_of_deniesGranted l _ d h
  | .deny m :: l, g, d, h => by
    simp only [deniesGranted] at h
    simp only [walkUntil]
    split at h
    · rename_i hmr
      rw [if_pos hmr]
      exact not_le_walkUntil_of_deniesGranted l g _ h
    · rename_i hmr
      rw [if_neg hmr]
      simp only [Bool.and_eq_true, decide_eq_true_eq] at h
      exact h.1
  | .skip :: l, g, d, h => not_le_walkUntil_of_deniesGranted l g d h

end Decidable

theorem orderless_le_walk :
    ∀ (l : List (Entry α)) (g d : α), (g ⊔ granted l) ⊓ (d ⊔ denied l)ᶜ ≤ (walk l g d).1
  | [], g, _ => by simp [granted, walk]
  | .grant m :: l, g, d => by
    refine le_trans ?_ (orderless_le_walk l _ d)
    simp only [granted, denied, compl_sup]
    refine le_inf ?_ inf_le_right
    calc (g ⊔ (m ⊔ granted l)) ⊓ (dᶜ ⊓ (denied l)ᶜ)
        ≤ (g ⊔ (m ⊔ granted l)) ⊓ dᶜ := inf_le_inf_left _ inf_le_left
      _ = g ⊓ dᶜ ⊔ (m ⊓ dᶜ ⊔ granted l ⊓ dᶜ) := by rw [inf_sup_right, inf_sup_right]
      _ ≤ g ⊔ m ⊓ dᶜ ⊔ granted l :=
        sup_le (le_sup_of_le_left (le_sup_of_le_left inf_le_left))
          (sup_le (le_sup_of_le_left le_sup_right) (le_sup_of_le_right inf_le_left))
  | .deny m :: l, g, d => by
    refine le_trans ?_ (orderless_le_walk l g _)
    simp only [granted, denied]
    refine inf_le_inf_left _ (compl_le_compl ?_)
    exact sup_le (sup_le le_sup_left (le_sup_of_le_right (le_sup_of_le_left inf_le_left)))
      (le_sup_of_le_right le_sup_right)
  | .skip :: l, g, d => orderless_le_walk l g d

end GrantDeny
