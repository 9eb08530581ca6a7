import Wine.Lib.Memory
import Wine.Status

/-!
# Validating client security descriptors (`server/token.c`, `server/security.h`)

`sd_is_valid`, `acl_is_valid` and `sid_valid_size` over the bytes a client sent, and the
checks the `create_token` handler makes on its request data. The buffer is the list of
the first `size` bytes, so any read past them is a fault. A `struct security_descriptor`
is five little-endian 32-bit fields (`control`, `owner_len`, `group_len`, `sacl_len`,
`dacl_len`) followed by the owner, the group, the SACL and the DACL; a `struct acl` is
8 bytes with `count` at offset 4; a `struct ace` is `type`, `flags`, a 16-bit `size` and the
mask, with its SID right after it; a `struct sid` has `sub_count` at offset 1 and
`sid_len` is `8 + 4 * sub_count`. `data_size_t` is `UInt32`.
-/

namespace Wine.Server

open Mem

set_option autoImplicit false

def sdHeaderSize : Nat := 20
def aclHeaderSize : Nat := 8
def aceHeaderSize : Nat := 8
/-- `offsetof( struct sid, sub_auth[0] )` -/
def sidHeaderSize : Nat := 8
/-- `offsetof( struct sid, sub_auth[255] )` -/
def sidMaxSize : Nat := 1028
def maxAclLen : Nat := 65535

def systemAuditAceType : UInt8 := 0x2
def systemAlarmAceType : UInt8 := 0x3
def systemMandatoryLabelAceType : UInt8 := 0x11

/-- `sid_len` of the SID at offset `sid`. -/
def sidLen (b : List UInt8) (sid : Nat) : Run Nat := do
  let subCount ← load b (sid + 1)
  pure (sidHeaderSize + 4 * subCount.toNat)

/-- `sid_valid_size`; `&&` reads `sub_count` only when the header fits. -/
def sidValidSize (b : List UInt8) (sid : Nat) (size : UInt32) : Run Bool :=
  if sidHeaderSize ≤ size.toNat then do
    let len ← sidLen b sid
    pure (decide (len ≤ size.toNat))
  else pure false

/-- The ACE types the `switch` of `acl_is_valid` lets through. -/
def aceTypeValid (type : UInt8) : Bool :=
  type == 0x0 || type == 0x1 || type == systemAuditAceType || type == systemAlarmAceType ||
    type == systemMandatoryLabelAceType

/-- The loop of `acl_is_valid`: `count` ACEs to go, the next at offset `ace`, `size` bytes
left. The SID is checked against `ace->size - sizeof(*ace)`, a `size_t` difference passed as
a `data_size_t`, which is the difference taken in `UInt32`. -/
def aclAcesValid (b : List UInt8) : Nat → Nat → UInt32 → Run Bool
  | 0, _, _ => pure true
  | count + 1, ace, size =>
    if size.toNat < aceHeaderSize then pure false else do
    let aceSize ← loadU16 b (ace + 2)
    if size.toNat < aceSize then pure false else do
    let type ← load b ace
    if !aceTypeValid type then pure false else do
    let sidOk ← sidValidSize b (ace + aceHeaderSize) (UInt32.ofNat aceSize - 8)
    if !sidOk then pure false
    else aclAcesValid b count (ace + aceSize) (size - UInt32.ofNat aceSize)

def aclIsValid (b : List UInt8) (acl : Nat) (size : UInt32) : Run Bool :=
  if size.toNat < aclHeaderSize then pure false else do
  let count ← loadU16 b (acl + 4)
  aclAcesValid b count (acl + aclHeaderSize) (min size 65535 - 8)

/-- The checks of `sd_is_valid` on the owner or the group at `offset`, of length `len`:
`sd_get_owner` and `sd_get_group` give no SID for a zero length. -/
def sdSidValid (b : List UInt8) (offset len : Nat) : Run Bool :=
  if sidMaxSize ≤ len ∨ b.length < offset + len then pure false
  else if len ≠ 0 then sidValidSize b offset (UInt32.ofNat len) else pure true

/-- The checks of `sd_is_valid` on the SACL or the DACL. -/
def sdAclValid (b : List UInt8) (offset len : Nat) : Run Bool :=
  if maxAclLen ≤ len ∨ b.length < offset + len then pure false
  else if len ≠ 0 then aclIsValid b offset (UInt32.ofNat len) else pure true

/-- `sd_is_valid( sd, size )` for the `size` bytes `b`. The header fields are read once; the
code reads them again through the accessors, from the same bytes. -/
def sdIsValid (b : List UInt8) : Run Bool :=
  if b.length < sdHeaderSize then pure false else do
  let ownerLen ← loadU32 b 4
  let groupLen ← loadU32 b 8
  let saclLen ← loadU32 b 12
  let daclLen ← loadU32 b 16
  let ownerOk ← sdSidValid b sdHeaderSize ownerLen
  if !ownerOk then pure false else do
  let groupOk ← sdSidValid b (sdHeaderSize + ownerLen) groupLen
  if !groupOk then pure false else do
  let saclOk ← sdAclValid b (sdHeaderSize + ownerLen + groupLen) saclLen
  if !saclOk then pure false
  else sdAclValid b (sdHeaderSize + ownerLen + groupLen + saclLen) daclLen

theorem pure_eq_ok {α : Type} {a c : α} : (pure a : Run α) = .ok c ↔ a = c := by
  constructor
  · intro h
    cases h
    rfl
  · rintro rfl
    rfl

theorem sidValidSize_eq_true {b : List UInt8} {sid : Nat} {size : UInt32} :
    sidValidSize b sid size = .ok true ↔
      sidHeaderSize ≤ size.toNat ∧ ∃ len, sidLen b sid = .ok len ∧ len ≤ size.toNat := by
  unfold sidValidSize
  split
  case isTrue h => simp only [bind_eq_ok, pure_eq_ok, decide_eq_true_eq, h, true_and]
  case isFalse h => simp [h, pure_eq_ok]

/-- What `acl_is_valid` establishes of `count` ACEs from offset `ace` with `size` bytes left:
each header and each declared size fits, and an ACE at least a header long holds its SID. -/
def AcesFit (b : List UInt8) : Nat → Nat → Nat → Prop
  | 0, _, _ => True
  | count + 1, ace, size =>
    ∃ aceSize, loadU16 b (ace + 2) = .ok aceSize ∧ aceHeaderSize ≤ size ∧ aceSize ≤ size ∧
      (aceHeaderSize ≤ aceSize →
        ∃ len, sidLen b (ace + aceHeaderSize) = .ok len ∧ aceHeaderSize + len ≤ aceSize) ∧
      AcesFit b count (ace + aceSize) (size - aceSize)

theorem aclAcesValid_fits {b : List UInt8} :
    ∀ (count ace : Nat) (size : UInt32), aclAcesValid b count ace size = .ok true →
      AcesFit b count ace size.toNat
  | 0, _, _, _ => trivial
  | count + 1, ace, size, h => by
    simp only [aclAcesValid] at h
    split at h
    next => exact absurd h (by decide)
    next hheader =>
    obtain ⟨aceSize, hload, h⟩ := bind_eq_ok.mp h
    split at h
    next => exact absurd h (by decide)
    next hfit =>
    obtain ⟨type, _, h⟩ := bind_eq_ok.mp h
    split at h
    next => exact absurd h (by decide)
    obtain ⟨sidOk, hsid, h⟩ := bind_eq_ok.mp h
    split at h
    next => exact absurd h (by decide)
    next hok =>
    have hlt := loadU16_lt hload
    have hrest := aclAcesValid_fits count _ _ h
    rw [toNat_sub_ofNat (by omega)] at hrest
    refine ⟨aceSize, hload, by omega, by omega, fun hle => ?_, hrest⟩
    -- for an ACE at least a header long, `ace->size - sizeof(*ace)` does not wrap
    have hsidOk : sidOk = true := by simpa using hok
    subst hsidOk
    obtain ⟨_, len, hlen, hlenle⟩ := sidValidSize_eq_true.mp hsid
    unfold aceHeaderSize at hle ⊢
    have hdiff : (UInt32.ofNat aceSize - 8).toNat = aceSize - 8 := by
      rw [UInt32.toNat_sub_of_le]
      · simp
        omega
      · rw [UInt32.le_iff_toNat_le]
        simp
        omega
    rw [hdiff] at hlenle
    exact ⟨len, hlen, by omega⟩

def oneAceAcl : List UInt8 :=
  [2, 0, 24, 0, 1, 0, 0, 0,
    0, 0, 16, 0, 0, 0, 0, 0,
    1, 0, 0, 0, 0, 0, 0, 5]

def shortAceSd : List UInt8 :=
  [0, 0, 0, 0, 0, 0, 0, 0, 0, 0, 0, 0, 0, 0, 0, 0, 18, 0, 0, 0,
    2, 0, 18, 0, 1, 0, 0, 0,
    0, 0, 0, 0, 0, 0, 0, 0,
    1, 15]

/-- The ACE shorter than its header passes: its SID is checked against
`0 - sizeof(*ace)`, and the 68 bytes that SID declares run past the 38 of the buffer. -/
theorem sdIsValid_accepts_short_ace :
    sdIsValid shortAceSd = .ok true ∧ loadU16 shortAceSd 30 = .ok 0 ∧
      sidLen shortAceSd 36 = .ok 68 ∧ slice shortAceSd 36 68 = .error .outOfBounds := by
  decide

/-- The loop of the `create_token` handler over the groups: `n` groups to go, group `i` next,
its SID at offset `sid`; it reads `attrs[i]` and checks the SID against what is left of
`data_size` past `groups_size`. `none` is `STATUS_INVALID_PARAMETER`. -/
def createTokenGroups (b : List UInt8) (attrs : Nat) (dataSize : UInt32) :
    Nat → Nat → Nat → UInt32 → Run (Option UInt32)
  | 0, _, _, groupsSize => pure (some groupsSize)
  | n + 1, i, sid, groupsSize => do
    let _ ← loadU32 b (attrs + 4 * i)
    let sidOk ← sidValidSize b sid (dataSize - groupsSize)
    if !sidOk then pure none else do
    let len ← sidLen b sid
    createTokenGroups b attrs dataSize n (i + 1) (sid + len) (groupsSize + UInt32.ofNat len)

/-- The checks of the `create_token` handler on the request data `b` that follows the object
attributes: the status it fails with, or `none` when it goes on to `create_token`.
`groupsAllocated` is whether `mem_alloc` of the group array succeeds. -/
def createTokenCheck (b : List UInt8) (groupCount primaryGroup privCount : Int32)
    (groupsAllocated : Bool) : Run (Option NtStatus) := do
  let userOk ← sidValidSize b 0 (UInt32.ofNat b.length)
  if !userOk then pure (some .invalidParameter) else do
  let userLen ← sidLen b 0
  let dataSize := UInt32.ofNat b.length - UInt32.ofNat userLen
  -- `req->group_count * sizeof( attrs[0] )`, a `size_t` product stored in a `data_size_t`
  let groupsSize := groupCount.toUInt32 * 4
  if dataSize < groupsSize then pure (some .invalidParameter)
  else if primaryGroup < 0 ∨ groupCount ≤ primaryGroup then pure (some .invalidParameter)
  else if !groupsAllocated then pure (some .noMemory) else do
  let attrs := userLen
  let groups ← createTokenGroups b attrs dataSize groupCount.toUInt32.toNat 0
    (attrs + 4 * groupCount.toInt.toNat) groupsSize
  match groups with
  | none => pure (some .invalidParameter)
  | some groupsSize =>
    let dataSize := dataSize - groupsSize
    -- `req->priv_count * sizeof( privs[0] )` is a `size_t` product
    let privsSize := ((privCount.toInt * 12) % 2 ^ 64).toNat
    if dataSize.toNat < privsSize then pure (some .invalidParameter)
    else
      let dataSize := dataSize - UInt32.ofNat privsSize
      if dataSize ≠ 0 then do
        let daclOk ← aclIsValid b (attrs + groupsSize.toNat + privsSize) dataSize
        pure (if daclOk then none else some .invalidParameter)
      else pure none

def bareUser : List UInt8 := [1, 0, 0, 0, 0, 0, 0, 0]

end Wine.Server
