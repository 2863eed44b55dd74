import LogicalWorks.Lib.Bytes

/-! The records of the effect journal: the identity a settlement is about, the facts
recorded about it, the positions they land at, and what a journal can refuse.  The
128-bit and 64-bit identifiers are their values; only `attempt` is ever ordered. -/
namespace LogicalWorks.Journal

def headBytes : Nat := 32

structure Digest where
  bytes : Bytes
  length_bytes : bytes.length = headBytes
  deriving DecidableEq, Repr

namespace Digest

def fromBytes (bytes : Bytes) : Digest :=
  ⟨Bytes.fill headBytes bytes, Bytes.length_fill headBytes bytes⟩

@[ext] theorem ext {left right : Digest} (h : left.bytes = right.bytes) : left = right := by
  cases left
  cases right
  cases h
  rfl

@[simp] theorem fromBytes_bytes (digest : Digest) : fromBytes digest.bytes = digest := by
  apply ext
  have h := Bytes.fill_length_self digest.bytes
  rwa [digest.length_bytes] at h

theorem bytes_fromBytes {bytes : Bytes} (h : bytes.length = headBytes) :
    (fromBytes bytes).bytes = bytes := by
  change Bytes.fill headBytes bytes = bytes
  rw [← h, Bytes.fill_length_self]

end Digest

abbrev RunId := Nat
abbrev ActionId := Nat
abbrev AttemptId := Nat
abbrev EnvironmentId := Nat
abbrev EnvironmentEpoch := Nat

structure EffectKey where
  run : RunId
  action : ActionId
  attempt : AttemptId
  flow : Digest
  digest : Digest
  environment : EnvironmentId
  epoch : EnvironmentEpoch
  deriving DecidableEq, Repr

inductive EffectEvidence where
  | applied
  | notApplied
  deriving DecidableEq, Repr

inductive VerificationResult where
  | satisfied
  | notSatisfied
  deriving DecidableEq, Repr

structure Verification where
  predicate : Nat
  predicateVersion : Nat
  observations : Digest
  result : VerificationResult
  deriving DecidableEq, Repr

inductive EffectEvent where
  | intentAdmitted (key : EffectKey)
  | dispatchPrepared (key : EffectKey)
  | outcomeObserved (key : EffectKey) (evidence : EffectEvidence)
  | verified (key : EffectKey) (verification : Verification)
  deriving DecidableEq, Repr

inductive EventKind where
  | intentAdmitted
  | dispatchPrepared
  | outcomeObserved
  | verified
  deriving DecidableEq, Repr

def EventKind.next : EventKind → Option EventKind
  | .intentAdmitted => some .dispatchPrepared
  | .dispatchPrepared => some .outcomeObserved
  | .outcomeObserved | .verified => some .verified

def nextAllowedOf : Option EventKind → Option EventKind
  | some kind => kind.next
  | none => some .intentAdmitted

@[simp] theorem nextAllowedOf_none : nextAllowedOf none = some .intentAdmitted := rfl

theorem nextAllowedOf_some_ne_intentAdmitted (kind : EventKind) :
    nextAllowedOf (some kind) ≠ some .intentAdmitted := by
  cases kind <;> decide

def EffectEvent.key : EffectEvent → EffectKey
  | .intentAdmitted key | .dispatchPrepared key => key
  | .outcomeObserved key _ | .verified key _ => key

def EffectEvent.kind : EffectEvent → EventKind
  | .intentAdmitted _ => .intentAdmitted
  | .dispatchPrepared _ => .dispatchPrepared
  | .outcomeObserved _ _ => .outcomeObserved
  | .verified _ _ => .verified

inductive AttemptStatus where
  | prepared
  | outcomeUnknown
  | applied
  | notApplied
  | verified
  | verificationFailed
  deriving DecidableEq, Repr

def AttemptStatus.isUncertain (status : AttemptStatus) : Bool :=
  status = .outcomeUnknown

/-- Where a committed event sits: its ordinal, and a hash over everything up to it. -/
structure JournalPosition where
  sequence : UInt64
  head : Digest
  deriving DecidableEq, Repr

def checkedSucc (sequence : UInt64) : Option UInt64 :=
  if sequence.toNat + 1 < 2 ^ 64 then some (sequence + 1) else none

def saturatingSucc (sequence : UInt64) : UInt64 :=
  if sequence.toNat + 1 < 2 ^ 64 then sequence + 1 else sequence

theorem toNat_saturatingSucc (sequence : UInt64) :
    (saturatingSucc sequence).toNat = min (sequence.toNat + 1) (2 ^ 64 - 1) := by
  have hbound : sequence.toNat < 2 ^ 64 := sequence.toNat_lt
  unfold saturatingSucc
  split
  · rename_i hroom
    rw [UInt64.toNat_add, UInt64.toNat_one, Nat.mod_eq_of_lt hroom]
    omega
  · omega

structure JournalEntry where
  position : JournalPosition
  event : EffectEvent
  deriving DecidableEq, Repr

inductive DurabilityPromise where
  | ephemeral
  | processCrash
  | powerLoss
  deriving DecidableEq, Repr

structure DurableAck where
  position : JournalPosition
  promise : DurabilityPromise
  deriving DecidableEq, Repr

/-- How far along a continuation may be driven before it stops. -/
inductive SealPause where
  | afterSealWrite
  | afterSuccessorWrite
  | afterSuccessorSync
  | afterDirectorySync
  deriving DecidableEq, Repr

def maxJournalEvents : Nat := 100000

/-- Hard ceiling on encoded frame bytes retained by either shipped journal. -/
def maxJournalBytes : Nat := 64 * 1024 * 1024

/-- The largest payload the file journal reads or writes. -/
def maxFrameBytes : Nat := 64 * 1024

end LogicalWorks.Journal
