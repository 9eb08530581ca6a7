import Mathlib

/-!
# NTSTATUS values and access masks

The status codes that the modelled functions return, as one enumeration. Each constructor
is the `STATUS_` constant of `include/ntstatus.h` of the same name; the models only compare
statuses for equality, so the numeric codes are not needed. The access rights are the
constants of `include/winnt.h`.
-/

namespace Wine

set_option autoImplicit false

inductive NtStatus where
  | success
  | bufferTooSmall
  | invalidParameter
  | accessViolation
  | accessDenied
  | badCompressionBuffer
  | unsupportedCompression
  | invalidHandle
  | handleNotClosable
  | insufficientResources
  | processIsTerminating
  | variableNotFound
  | invalidIdnNormalization
  | genericNotMapped
  | invalidSecurityDescr
  | privilegeNotHeld
  | noMemory
  | someNotMapped
  | bufferOverflow
  | cannotDelete
  | nameTooLong
  | objectNameNotFound
  | objectNameInvalid
  | objectNameExists
  | objectNameCollision
  | childMustBeVolatile
  deriving DecidableEq, Repr

def genericRead : UInt32 := 0x80000000
def genericWrite : UInt32 := 0x40000000
def genericExecute : UInt32 := 0x20000000
def genericAll : UInt32 := 0x10000000
def maximumAllowed : UInt32 := 0x02000000
def accessSystemSecurity : UInt32 := 0x01000000
def synchronize : UInt32 := 0x00100000
def standardRightsRequired : UInt32 := 0x000f0000
def readControl : UInt32 := 0x00020000
def writeDac : UInt32 := 0x00040000

end Wine
