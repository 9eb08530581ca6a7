import Wine.Status

/-!
# Access checks against a security descriptor (`server/token.c`)

`token_access_check` and what it calls: `token_sid_present`, `token_find_privilege`,
`token_check_privileges` and `map_access` of `server/object.h`. The caller has validated the
descriptor with `sd_is_valid`; the model takes it as `sd_get_owner`, `sd_get_group` and
`sd_get_dacl` read it, the DACL as the ACEs that `ace_first`/`ace_next` visit, a SID as its
fields (so `equal_sid` is equality). Token and privilege lists are lists in the source's order.
-/

namespace Wine.Server

set_option autoImplicit false

structure Sid where
  revision : UInt8
  idAuth : List UInt8
  subAuth : List UInt32
  deriving DecidableEq, Repr

structure Luid where
  lowPart : UInt32
  highPart : Int32
  deriving DecidableEq, Repr

structure LuidAttr where
  luid : Luid
  attrs : UInt32
  deriving DecidableEq, Repr

structure Privilege where
  luid : Luid
  enabled : Bool
  deriving DecidableEq, Repr

structure Group where
  attrs : UInt32
  sid : Sid
  deriving DecidableEq, Repr

structure Token where
  user : Sid
  groups : List Group
  privileges : List Privilege
  deriving DecidableEq, Repr

structure Ace where
  type : UInt8
  flags : UInt8
  mask : UInt32
  sid : Sid
  deriving DecidableEq, Repr

structure GenericMap where
  read : UInt32
  write : UInt32
  exec : UInt32
  all : UInt32
  deriving DecidableEq, Repr

/-- A descriptor as the accessors read it: no owner or group for a zero length, the DACL only
for a nonzero `dacl_len`, and `daclPresent` the `SE_DACL_PRESENT` bit of `control`. -/
structure SecurityDescriptor where
  owner : Option Sid
  group : Option Sid
  daclPresent : Bool
  dacl : Option (List Ace)
  deriving DecidableEq, Repr

def accessAllowedAceType : UInt8 := 0x0
def accessDeniedAceType : UInt8 := 0x1
def inheritOnlyAce : UInt8 := 0x08
def seGroupEnabled : UInt32 := 0x00000004
def seGroupUseForDenyOnly : UInt32 := 0x00000010
def sePrivilegeUsedForAccess : UInt32 := 0x80000000
def seSecurityPrivilege : Luid := ⟨8, 0⟩

def equalSid (sid1 sid2 : Sid) : Bool := decide (sid1 = sid2)

def tokenSidPresent (token : Token) (sid : Sid) (deny : Bool) : Bool :=
  equalSid token.user sid ||
    token.groups.any fun group =>
      group.attrs &&& seGroupEnabled != 0 &&
        (deny || group.attrs &&& seGroupUseForDenyOnly == 0) && equalSid group.sid sid

def tokenFindPrivilege (token : Token) (luid : Luid) (enabledOnly : Bool) : Option Privilege :=
  match token.privileges.find? (·.luid == luid) with
  | some privilege => if enabledOnly && !privilege.enabled then none else some privilege
  | none => none

/-- The result and the `usedprivs` that `token_check_privileges` writes. -/
def tokenCheckPrivileges (token : Token) (allRequired : Bool) (reqprivs : List LuidAttr) :
    Bool × List LuidAttr :=
  let enabled (p : LuidAttr) : Bool := ((tokenFindPrivilege token p.luid true).map (·.enabled)).getD false
  let usedprivs := reqprivs.map fun p =>
    if enabled p then { p with attrs := p.attrs ||| sePrivilegeUsedForAccess } else p
  let enabledCount := (reqprivs.filter enabled).length
  (if allRequired then enabledCount == reqprivs.length else decide (enabledCount > 0), usedprivs)

def mapAccess (access : UInt32) (mapping : GenericMap) : UInt32 :=
  let access := if access &&& genericRead ≠ 0 then access ||| mapping.read else access
  let access := if access &&& genericWrite ≠ 0 then access ||| mapping.write else access
  let access := if access &&& genericExecute ≠ 0 then access ||| mapping.exec else access
  let access := if access &&& genericAll ≠ 0 then access ||| mapping.all else access
  access &&& ~~~(genericRead ||| genericWrite ||| genericExecute ||| genericAll)

/-- What the `switch` of step 4 leaves: go on with the next ACE, or `goto done`. -/
inductive AceStep where
  | next (current denied : UInt32)
  | done (current denied : UInt32)
  deriving DecidableEq, Repr

def aceStep (token : Token) (mapping : GenericMap) (desired : UInt32) (ace : Ace)
    (current denied : UInt32) : AceStep :=
  if ace.type = accessDeniedAceType then
    if tokenSidPresent token ace.sid true then
      let access := mapAccess ace.mask mapping
      if desired &&& maximumAllowed ≠ 0 then .next current (denied ||| access)
      else
        let denied := denied ||| (access &&& ~~~current)
        if desired &&& access ≠ 0 then .done current denied else .next current denied
    else .next current denied
  else if ace.type = accessAllowedAceType then
    if tokenSidPresent token ace.sid false then
      let access := mapAccess ace.mask mapping
      if desired &&& maximumAllowed ≠ 0 then .next (current ||| access) denied
      else .next (current ||| (access &&& ~~~denied)) denied
    else .next current denied
  else .next current denied

/-- The loop of step 4, from `current_access` and `denied_access`; `granted` is
`*granted_access`, which the loop compares with `desired_access` but does not write. -/
def daclWalk (token : Token) (mapping : GenericMap) (desired granted : UInt32) :
    List Ace → UInt32 → UInt32 → UInt32 × UInt32
  | [], current, denied => (current, denied)
  | ace :: aces, current, denied =>
    -- an inherit-only ACE is passed over by `continue`, which skips the test at the loop's end
    if ace.flags &&& inheritOnlyAce ≠ 0 then daclWalk token mapping desired granted aces current denied
    else
      match aceStep token mapping desired ace current denied with
      | .done current denied => (current, denied)
      | .next current denied =>
        if desired = granted then (current, denied)
        else daclWalk token mapping desired granted aces current denied

/-- The `done:` label: the granted rights from those collected. -/
def accessDone (desired current denied : UInt32) : UInt32 :=
  if desired &&& maximumAllowed ≠ 0 then current &&& ~~~denied
  else if current &&& desired = desired then current &&& desired else 0

/-- Steps 3 and 4 and the end, from the rights `current` step 2 left: `*granted_access` and
`*status`. -/
def daclAccessCheck (token : Token) (owner : Sid) (aces : List Ace) (desired : UInt32)
    (mapping : GenericMap) (current : UInt32) : UInt32 × NtStatus :=
  let isOwner := tokenSidPresent token owner false
  let current := if isOwner then current ||| (standardRightsRequired ||| synchronize) else current
  if isOwner ∧ desired = current then (current, .success)
  else
    let walked := daclWalk token mapping desired 0 aces current 0
    let granted := accessDone desired walked.1 walked.2
    (granted, if granted ≠ 0 then .success else .accessDenied)

/-- What `token_access_check` returns and writes: `status` and `privs` are `none` where it
leaves them unwritten, `privCount` is `none` for a `NULL` `priv_count`. -/
structure AccessCheckResult where
  ret : NtStatus
  granted : UInt32
  status : Option NtStatus
  privCount : Option Nat
  privs : Option LuidAttr
  deriving DecidableEq, Repr

/-- Step 2 granted `ACCESS_SYSTEM_SECURITY`. -/
def systemSecurityGranted (token : Token) (owner : Sid) (aces : List Ace) (desired : UInt32)
    (mapping : GenericMap) (privCount : Option Nat) (privs : Option LuidAttr) :
    AccessCheckResult :=
  let current := accessSystemSecurity
  if desired = current then ⟨.success, current, some .success, privCount, privs⟩
  else
    let r := daclAccessCheck token owner aces desired mapping current
    ⟨.success, r.1, some r.2, privCount, privs⟩

/-- Steps 2 to 4, for a descriptor with an owner, a group and a present DACL. -/
def protectedAccessCheck (token : Token) (owner : Sid) (aces : List Ace) (desired : UInt32)
    (privCount : Option Nat) (mapping : GenericMap) : AccessCheckResult :=
  if desired &&& accessSystemSecurity ≠ 0 then
    let securityPriv : LuidAttr := ⟨seSecurityPrivilege, 0⟩
    let checked := tokenCheckPrivileges token true [securityPriv]
    let retpriv := checked.2.headD securityPriv
    if checked.1 then
      match privCount with
      | some n =>
        if n ≥ 1 then systemSecurityGranted token owner aces desired mapping (some 1) (some retpriv)
        else ⟨.bufferTooSmall, 0, none, some 1, none⟩
      | none => systemSecurityGranted token owner aces desired mapping none none
    else ⟨.success, 0, some .privilegeNotHeld, privCount.map fun _ => 0, none⟩
  else
    let r := daclAccessCheck token owner aces desired mapping 0
    ⟨.success, r.1, some r.2, privCount.map fun _ => 0, none⟩

def tokenAccessCheck (token : Token) (sd : SecurityDescriptor) (desired : UInt32)
    (privCount : Option Nat) (mapping : GenericMap) : AccessCheckResult :=
  let zeroCount := privCount.map fun _ => 0
  if desired &&& (genericRead ||| genericWrite ||| genericExecute ||| genericAll) ≠ 0 then
    ⟨.genericNotMapped, 0, none, zeroCount, none⟩
  else
    match sd.owner, sd.group, (if sd.daclPresent then sd.dacl else none) with
    | some owner, some _, some aces => protectedAccessCheck token owner aces desired privCount mapping
    -- step 1: an object without a DACL is unprotected
    | some _, some _, none =>
      ⟨.success, if desired &&& maximumAllowed ≠ 0 then mapping.all else desired, some .success,
        zeroCount, none⟩
    | _, _, _ => ⟨.invalidSecurityDescr, 0, none, zeroCount, none⟩

end Wine.Server
