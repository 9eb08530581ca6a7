import Wine.Server.Token
import Wine.Lib.Mask
import Wine.Lib.GrantDeny

/-!
# What `token_access_check` decides

The DACL walk of step 4 read as a grant/deny list (`GrantDeny`) over the bit positions of the
masks: each ACE that is not inherit-only and applies to the token grants or denies its mapped
mask. Without `MAXIMUM_ALLOWED` the code's loop is the walk cut at the first applicable deny
ACE that meets the request; with it, the loop collects every grant and every deny and the
order does not matter.
-/

namespace Wine.Server

open GrantDeny Mask

set_option autoImplicit false

def aceEntry (token : Token) (mapping : GenericMap) (ace : Ace) : Entry (Finset (Fin 32)) :=
  if ace.flags &&& inheritOnlyAce ≠ 0 then .skip
  else if ace.type = accessDeniedAceType then
    if tokenSidPresent token ace.sid true then .deny (bits (mapAccess ace.mask mapping)) else .skip
  else if ace.type = accessAllowedAceType then
    if tokenSidPresent token ace.sid false then .grant (bits (mapAccess ace.mask mapping))
    else .skip
  else .skip

def daclEntries (token : Token) (mapping : GenericMap) (aces : List Ace) :
    List (Entry (Finset (Fin 32))) :=
  aces.map (aceEntry token mapping)

@[simp] theorem daclEntries_cons (token : Token) (mapping : GenericMap) (ace : Ace)
    (aces : List Ace) :
    daclEntries token mapping (ace :: aces) = aceEntry token mapping ace :: daclEntries token mapping aces :=
  rfl

/-- The rights step 3 grants before the walk. -/
def ownerRights (token : Token) (owner : Sid) : UInt32 :=
  if tokenSidPresent token owner false then standardRightsRequired ||| synchronize else 0

section Walk

variable (token : Token) (mapping : GenericMap) {desired grantedAccess : UInt32}

theorem daclWalk_eq_walkUntil (hmax : desired &&& maximumAllowed = 0)
    (hne : desired ≠ grantedAccess) :
    ∀ (aces : List Ace) (current denied : UInt32),
      Prod.map bits bits (daclWalk token mapping desired grantedAccess aces current denied) =
        walkUntil (bits desired) (daclEntries token mapping aces) (bits current) (bits denied)
  | [], _, _ => rfl
  | ace :: aces, current, denied => by
    have ih := daclWalk_eq_walkUntil hmax hne aces
    by_cases hinh : ace.flags &&& inheritOnlyAce ≠ 0
    · simp only [daclWalk, daclEntries_cons, aceEntry, if_pos hinh, walkUntil]
      exact ih current denied
    simp only [daclWalk, daclEntries_cons, aceEntry, if_neg hinh, aceStep, hmax,
      ne_eq, not_true_eq_false, if_false]
    split_ifs with hdeny hsid hmeet hallow hsid'
    · have hbot : bits (mapAccess ace.mask mapping) ⊓ bits desired = ⊥ :=
        bits_inf_eq_bot.mpr (by rwa [UInt32.and_comm])
      simp only [ih, walkUntil, if_pos hbot, bits_or, bits_and, bits_not]
    · have hbot : ¬ bits (mapAccess ace.mask mapping) ⊓ bits desired = ⊥ := by
        rwa [bits_inf_eq_bot, UInt32.and_comm]
      simp only [walkUntil, if_neg hbot, Prod.map, bits_or, bits_and, bits_not]
    · simp only [ih, walkUntil]
    · simp only [ih, walkUntil, bits_or, bits_and, bits_not]
    · simp only [ih, walkUntil]
    · simp only [ih, walkUntil]

theorem daclWalk_eq_orderless (hmax : desired &&& maximumAllowed ≠ 0)
    (hne : desired ≠ grantedAccess) :
    ∀ (aces : List Ace) (current denied : UInt32),
      Prod.map bits bits (daclWalk token mapping desired grantedAccess aces current denied) =
        (bits current ⊔ GrantDeny.granted (daclEntries token mapping aces),
          bits denied ⊔ GrantDeny.denied (daclEntries token mapping aces))
  | [], _, _ => by simp [daclWalk, daclEntries, GrantDeny.granted, GrantDeny.denied]
  | ace :: aces, current, denied => by
    have ih := daclWalk_eq_orderless hmax hne aces
    by_cases hinh : ace.flags &&& inheritOnlyAce ≠ 0
    · simp only [daclWalk, daclEntries_cons, aceEntry, if_pos hinh, GrantDeny.granted,
        GrantDeny.denied]
      exact ih current denied
    simp only [daclWalk, daclEntries_cons, aceEntry, if_neg hinh, aceStep, hmax, ne_eq,
      not_false_eq_true, if_true]
    split_ifs with hdeny hsid hallow hsid'
    · simp only [ih, GrantDeny.granted, GrantDeny.denied, bits_or, sup_assoc]
    · simp only [ih, GrantDeny.granted, GrantDeny.denied]
    · simp only [ih, GrantDeny.granted, GrantDeny.denied, bits_or, sup_assoc]
    · simp only [ih, GrantDeny.granted, GrantDeny.denied]
    · simp only [ih, GrantDeny.granted, GrantDeny.denied]

end Walk

section Check

variable (token : Token) (owner : Sid) (aces : List Ace) (mapping : GenericMap) {desired : UInt32}

theorem ownerRights_eq :
    (if tokenSidPresent token owner false = true then 0 ||| (standardRightsRequired ||| synchronize)
      else 0) = ownerRights token owner := by
  unfold ownerRights
  split <;> simp

theorem ownerRights_and_maximumAllowed : ownerRights token owner &&& maximumAllowed = 0 := by
  unfold ownerRights
  split <;> decide

theorem daclAccessCheck_of_not_max (hmax : desired &&& maximumAllowed = 0) :
    daclAccessCheck token owner aces desired mapping 0 =
      if desired ≠ 0 ∧ bits desired ≤ (walkUntil (bits desired) (daclEntries token mapping aces)
          (bits (ownerRights token owner)) ⊥).1
      then (desired, .success) else (0, .accessDenied) := by
  simp only [daclAccessCheck, ownerRights_eq]
  by_cases hzero : desired = 0
  · subst hzero
    have hearly : ¬ (tokenSidPresent token owner false = true ∧ 0 = ownerRights token owner) := by
      rintro ⟨howner, h⟩
      simp only [ownerRights, howner, if_true] at h
      exact absurd h (by decide)
    simp [hearly, accessDone]
  by_cases hearly : tokenSidPresent token owner false = true ∧ desired = ownerRights token owner
  · have hcover : bits desired ≤ (walkUntil (bits desired) (daclEntries token mapping aces)
        (bits (ownerRights token owner)) ⊥).1 :=
      (le_of_eq (congrArg bits hearly.2)).trans (le_walkUntil_fst _ _ _)
    rw [if_pos hearly, if_pos ⟨hzero, hcover⟩, ← hearly.2]
  have hwalk := daclWalk_eq_walkUntil token mapping hmax hzero aces (ownerRights token owner) 0
  rw [bits_zero] at hwalk
  have hcover : (daclWalk token mapping desired 0 aces (ownerRights token owner) 0).1 &&& desired =
      desired ↔ bits desired ≤ (walkUntil (bits desired) (daclEntries token mapping aces)
        (bits (ownerRights token owner)) ⊥).1 := by
    rw [← bits_le_iff, ← hwalk]
    rfl
  simp only [if_neg hearly, accessDone, hmax, ne_eq, not_true_eq_false, if_false]
  by_cases hle : bits desired ≤ (walkUntil (bits desired) (daclEntries token mapping aces)
      (bits (ownerRights token owner)) ⊥).1
  · rw [if_pos (hcover.mpr hle), hcover.mpr hle, if_pos hzero, if_pos ⟨hzero, hle⟩]
  · rw [if_neg (mt hcover.mp hle), if_neg (fun h => h rfl), if_neg (fun h => hle h.2)]

theorem daclAccessCheck_of_max (hmax : desired &&& maximumAllowed ≠ 0) :
    bits (daclAccessCheck token owner aces desired mapping 0).1 =
        (bits (ownerRights token owner) ⊔ GrantDeny.granted (daclEntries token mapping aces)) ⊓
          (GrantDeny.denied (daclEntries token mapping aces))ᶜ ∧
      (daclAccessCheck token owner aces desired mapping 0).2 =
        if (daclAccessCheck token owner aces desired mapping 0).1 = 0 then .accessDenied
        else .success := by
  have hzero : desired ≠ 0 := by
    rintro rfl
    exact hmax (by decide)
  have hearly : ¬ (tokenSidPresent token owner false = true ∧ desired = ownerRights token owner) := by
    rintro ⟨_, h⟩
    exact hmax (h ▸ ownerRights_and_maximumAllowed token owner)
  have hwalk := daclWalk_eq_orderless token mapping hmax hzero aces (ownerRights token owner) 0
  simp only [Prod.map, Prod.mk.injEq, bits_zero, bot_sup_eq] at hwalk
  simp only [daclAccessCheck, ownerRights_eq, if_neg hearly, accessDone, if_pos hmax]
  refine ⟨?_, ?_⟩
  · rw [bits_and, bits_not, hwalk.1, hwalk.2]
  · by_cases hg : (daclWalk token mapping desired 0 aces (ownerRights token owner) 0).1 &&&
        ~~~(daclWalk token mapping desired 0 aces (ownerRights token owner) 0).2 = 0
    · simp [hg]
    · simp [hg]

variable {token owner aces mapping}

theorem tokenAccessCheck_of_protected {sd : SecurityDescriptor} {privCount : Option Nat}
    (hgeneric : desired &&& (genericRead ||| genericWrite ||| genericExecute ||| genericAll) = 0)
    (howner : sd.owner = some owner) (hgroup : sd.group.isSome) (hpresent : sd.daclPresent = true)
    (hdacl : sd.dacl = some aces) :
    tokenAccessCheck token sd desired privCount mapping =
      protectedAccessCheck token owner aces desired privCount mapping := by
  obtain ⟨group, hg⟩ := Option.isSome_iff_exists.mp hgroup
  simp only [tokenAccessCheck, hgeneric, ne_eq, not_true_eq_false, if_false, howner, hg,
    hpresent, if_true, hdacl]

theorem protectedAccessCheck_of_no_security {privCount : Option Nat}
    (hsecurity : desired &&& accessSystemSecurity = 0) :
    protectedAccessCheck token owner aces desired privCount mapping =
      ⟨.success, (daclAccessCheck token owner aces desired mapping 0).1,
        some (daclAccessCheck token owner aces desired mapping 0).2, privCount.map fun _ => 0,
        none⟩ := by
  simp only [protectedAccessCheck, hsecurity, ne_eq, not_true_eq_false, if_false]

def exampleUser : Sid := ⟨1, [0, 0, 0, 0, 0, 5], [21, 1001]⟩
def exampleOwner : Sid := ⟨1, [0, 0, 0, 0, 0, 5], [32, 544]⟩
def exampleToken : Token := ⟨exampleUser, [], []⟩
def noMapping : GenericMap := ⟨0, 0, 0, 0⟩
def allowThenDeny : List Ace :=
  [⟨accessAllowedAceType, 0, readControl, exampleUser⟩,
    ⟨accessDeniedAceType, 0, readControl, exampleUser⟩]
def allowThenDenySd : SecurityDescriptor :=
  ⟨some exampleOwner, some exampleOwner, true, some allowThenDeny⟩

theorem tokenAccessCheck_dacl_decision (token : Token) (sd : SecurityDescriptor) (owner : Sid)
    (aces : List Ace) (desired : UInt32) (privCount : Option Nat) (mapping : GenericMap)
    (hgeneric : desired &&& (genericRead ||| genericWrite ||| genericExecute ||| genericAll) = 0)
    (hsecurity : desired &&& accessSystemSecurity = 0) (howner : sd.owner = some owner)
    (hgroup : sd.group.isSome) (hpresent : sd.daclPresent = true) (hdacl : sd.dacl = some aces) :
    (desired &&& maximumAllowed ≠ 0 →
      ∃ granted, bits granted =
          (bits (ownerRights token owner) ⊔ GrantDeny.granted (daclEntries token mapping aces)) ⊓
            (GrantDeny.denied (daclEntries token mapping aces))ᶜ ∧
        tokenAccessCheck token sd desired privCount mapping =
          ⟨.success, granted, some (if granted = 0 then .accessDenied else .success),
            privCount.map fun _ => 0, none⟩) ∧
    (desired &&& maximumAllowed = 0 →
      deniesGranted (bits desired) (daclEntries token mapping aces)
        (bits (ownerRights token owner)) ⊥ = false →
      tokenAccessCheck token sd desired privCount mapping =
        if desired ≠ 0 ∧ grantedBeforeDeny (bits desired) (daclEntries token mapping aces)
            (bits (ownerRights token owner)) ⊥ = true
        then ⟨.success, desired, some .success, privCount.map fun _ => 0, none⟩
        else ⟨.success, 0, some .accessDenied, privCount.map fun _ => 0, none⟩) := by
  rw [tokenAccessCheck_of_protected hgeneric howner hgroup hpresent hdacl,
    protectedAccessCheck_of_no_security hsecurity]
  refine ⟨fun hmax => ?_, fun hmax hslip => ?_⟩
  · obtain ⟨hbits, hstatus⟩ := daclAccessCheck_of_max token owner aces mapping hmax
    exact ⟨_, hbits, by rw [hstatus]⟩
  · rw [daclAccessCheck_of_not_max token owner aces mapping hmax]
    simp only [le_walkUntil_iff _ _ _ hslip]
    split <;> rfl

theorem readControl_granted_before_deny :
    readControl &&& maximumAllowed = 0 ∧
      deniesGranted (bits readControl) (daclEntries exampleToken noMapping allowThenDeny)
        (bits (ownerRights exampleToken exampleOwner)) ⊥ = false ∧
      tokenAccessCheck exampleToken allowThenDenySd readControl none noMapping =
        if readControl ≠ 0 ∧ grantedBeforeDeny (bits readControl)
            (daclEntries exampleToken noMapping allowThenDeny)
            (bits (ownerRights exampleToken exampleOwner)) ⊥ = true
        then ⟨.success, readControl, some .success, none, none⟩
        else ⟨.success, 0, some .accessDenied, none, none⟩ := by
  have hmax : readControl &&& maximumAllowed = 0 := by decide
  have hslip : deniesGranted (bits readControl) (daclEntries exampleToken noMapping allowThenDeny)
      (bits (ownerRights exampleToken exampleOwner)) ⊥ = false := by decide
  exact ⟨hmax, hslip, (tokenAccessCheck_dacl_decision exampleToken allowThenDenySd exampleOwner
    allowThenDeny readControl none noMapping (by decide) (by decide) rfl rfl rfl rfl).2 hmax hslip⟩

/-- Where the first applicable deny ACE meeting the request comes before the request is granted
and meets only rights already granted, its `goto done` ends the walk there: the request is
denied, whatever the later ACEs grant. -/
theorem tokenAccessCheck_denies_at_granted_deny (token : Token) (sd : SecurityDescriptor)
    (owner : Sid) (aces : List Ace) (desired : UInt32) (privCount : Option Nat)
    (mapping : GenericMap)
    (hgeneric : desired &&& (genericRead ||| genericWrite ||| genericExecute ||| genericAll) = 0)
    (hsecurity : desired &&& accessSystemSecurity = 0) (howner : sd.owner = some owner)
    (hgroup : sd.group.isSome) (hpresent : sd.daclPresent = true) (hdacl : sd.dacl = some aces)
    (hmax : desired &&& maximumAllowed = 0)
    (hslip : deniesGranted (bits desired) (daclEntries token mapping aces)
      (bits (ownerRights token owner)) ⊥ = true) :
    tokenAccessCheck token sd desired privCount mapping =
      ⟨.success, 0, some .accessDenied, privCount.map fun _ => 0, none⟩ := by
  rw [tokenAccessCheck_of_protected hgeneric howner hgroup hpresent hdacl,
    protectedAccessCheck_of_no_security hsecurity, daclAccessCheck_of_not_max token owner aces
      mapping hmax, if_neg fun h => not_le_walkUntil_of_deniesGranted _ _ _ hslip h.2]

def allowDenyAllow : List Ace :=
  [⟨accessAllowedAceType, 0, readControl, exampleUser⟩,
    ⟨accessDeniedAceType, 0, readControl, exampleUser⟩,
    ⟨accessAllowedAceType, 0, writeDac, exampleUser⟩]

def allowDenyAllowSd : SecurityDescriptor :=
  ⟨some exampleOwner, some exampleOwner, true, some allowDenyAllow⟩

theorem readControl_writeDac_denied_at_granted_deny :
    (readControl ||| writeDac) &&& maximumAllowed = 0 ∧
      deniesGranted (bits (readControl ||| writeDac))
        (daclEntries exampleToken noMapping allowDenyAllow)
        (bits (ownerRights exampleToken exampleOwner)) ⊥ = true ∧
      bits (readControl ||| writeDac) ≤ (walk (daclEntries exampleToken noMapping allowDenyAllow)
        (bits (ownerRights exampleToken exampleOwner)) ⊥).1 ∧
      tokenAccessCheck exampleToken allowDenyAllowSd (readControl ||| writeDac) none noMapping =
        ⟨.success, 0, some .accessDenied, none, none⟩ := by
  have hmax : (readControl ||| writeDac) &&& maximumAllowed = 0 := by decide
  have hslip : deniesGranted (bits (readControl ||| writeDac))
      (daclEntries exampleToken noMapping allowDenyAllow)
      (bits (ownerRights exampleToken exampleOwner)) ⊥ = true := by decide
  exact ⟨hmax, hslip, by decide, tokenAccessCheck_denies_at_granted_deny exampleToken
    allowDenyAllowSd exampleOwner allowDenyAllow _ none noMapping (by decide) (by decide) rfl rfl
    rfl rfl hmax hslip⟩

/-- With `MAXIMUM_ALLOWED` the deny that follows the allow takes `READ_CONTROL` back, where the
ordered walk keeps it granted. -/
theorem maximumAllowed_revokes_granted :
    tokenAccessCheck exampleToken allowThenDenySd maximumAllowed none noMapping =
        ⟨.success, 0, some .accessDenied, none, none⟩ ∧
      (walk (daclEntries exampleToken noMapping allowThenDeny)
        (bits (ownerRights exampleToken exampleOwner)) ⊥).1 = bits readControl := by
  constructor <;> decide

/-- In either mode the code grants no right that the ordered walk withholds. -/
theorem tokenAccessCheck_granted_le_walk {sd : SecurityDescriptor} {privCount : Option Nat}
    (hgeneric : desired &&& (genericRead ||| genericWrite ||| genericExecute ||| genericAll) = 0)
    (hsecurity : desired &&& accessSystemSecurity = 0) (howner : sd.owner = some owner)
    (hgroup : sd.group.isSome) (hpresent : sd.daclPresent = true) (hdacl : sd.dacl = some aces) :
    bits (tokenAccessCheck token sd desired privCount mapping).granted ≤
      (walk (daclEntries token mapping aces) (bits (ownerRights token owner)) ⊥).1 := by
  rw [tokenAccessCheck_of_protected hgeneric howner hgroup hpresent hdacl,
    protectedAccessCheck_of_no_security hsecurity]
  by_cases hmax : desired &&& maximumAllowed ≠ 0
  · rw [(daclAccessCheck_of_max token owner aces mapping hmax).1]
    have h := orderless_le_walk (daclEntries token mapping aces) (bits (ownerRights token owner)) ⊥
    rwa [bot_sup_eq] at h
  · rw [daclAccessCheck_of_not_max token owner aces mapping (not_not.mp hmax)]
    split
    case isTrue h => exact h.2.trans (walkUntil_fst_le_walk _ _ _)
    case isFalse => simp

theorem maximumAllowed_granted_le_walk :
    bits (tokenAccessCheck exampleToken allowThenDenySd maximumAllowed none noMapping).granted ≤
      (walk (daclEntries exampleToken noMapping allowThenDeny)
        (bits (ownerRights exampleToken exampleOwner)) ⊥).1 :=
  tokenAccessCheck_granted_le_walk (by decide) (by decide) rfl rfl rfl rfl

end Check

end Wine.Server
