import LogicalWorks.Journal.Error

/-! The sealed checkpoint a journal hands to its successor.  Rungs and statuses are
archived as bytes, so a record can hold one this build does not name. -/
namespace LogicalWorks.Journal

def rungIndex : EventKind → UInt8
  | .intentAdmitted => 0
  | .dispatchPrepared => 1
  | .outcomeObserved => 2
  | .verified => 3

def rungOf (index : UInt8) : Option EventKind :=
  match index.toNat with
  | 0 => some .intentAdmitted
  | 1 => some .dispatchPrepared
  | 2 => some .outcomeObserved
  | 3 => some .verified
  | _ => none

def statusIndex : AttemptStatus → UInt8
  | .prepared => 0
  | .outcomeUnknown => 1
  | .applied => 2
  | .notApplied => 3
  | .verified => 4
  | .verificationFailed => 5

def statusOf (index : UInt8) : Option AttemptStatus :=
  match index.toNat with
  | 0 => some .prepared
  | 1 => some .outcomeUnknown
  | 2 => some .applied
  | 3 => some .notApplied
  | 4 => some .verified
  | 5 => some .verificationFailed
  | _ => none

@[simp] theorem rungOf_rungIndex (kind : EventKind) : rungOf (rungIndex kind) = some kind := by
  cases kind <;> rfl

@[simp] theorem statusOf_statusIndex (status : AttemptStatus) :
    statusOf (statusIndex status) = some status := by
  cases status <;> rfl

/-- One action's folded state at a continuation: its latest walked attempt. -/
structure SettledAttempt where
  key : EffectKey
  rungByte : UInt8
  statusByte : UInt8
  verification : Option Verification
  deriving DecidableEq, Repr

namespace SettledAttempt

def new (key : EffectKey) (rung : EventKind) (status : AttemptStatus)
    (verification : Option Verification) : SettledAttempt :=
  ⟨key, rungIndex rung, statusIndex status, verification⟩

def action (record : SettledAttempt) : ActionId := record.key.action

def attempt (record : SettledAttempt) : AttemptId := record.key.attempt

def rung (record : SettledAttempt) : Option EventKind := rungOf record.rungByte

def status (record : SettledAttempt) : Option AttemptStatus := statusOf record.statusByte

def alreadyWalked (record : SettledAttempt) (key : EffectKey) : Bool :=
  key.action = record.key.action && key.attempt ≤ record.key.attempt

@[simp] theorem key_new (key : EffectKey) (rung : EventKind) (status : AttemptStatus)
    (verification : Option Verification) : (new key rung status verification).key = key := rfl

@[simp] theorem rung_new (key : EffectKey) (rung : EventKind) (status : AttemptStatus)
    (verification : Option Verification) :
    (new key rung status verification).rung = some rung :=
  rungOf_rungIndex rung

@[simp] theorem status_new (key : EffectKey) (rung : EventKind) (status : AttemptStatus)
    (verification : Option Verification) :
    (new key rung status verification).status = some status :=
  statusOf_statusIndex status

@[simp] theorem verification_new (key : EffectKey) (rung : EventKind) (status : AttemptStatus)
    (verification : Option Verification) :
    (new key rung status verification).verification = verification := rfl

theorem alreadyWalked_iff (record : SettledAttempt) (key : EffectKey) :
    record.alreadyWalked key = true ↔
      key.action = record.key.action ∧ key.attempt ≤ record.key.attempt := by
  simp [alreadyWalked]

end SettledAttempt

structure UnresolvedAttempt where
  key : EffectKey
  rungByte : UInt8
  deriving DecidableEq, Repr

namespace UnresolvedAttempt

def new (key : EffectKey) (rung : EventKind) : UnresolvedAttempt :=
  ⟨key, rungIndex rung⟩

def rung (record : UnresolvedAttempt) : Option EventKind := rungOf record.rungByte

def recoveredStatus (record : UnresolvedAttempt) : Option AttemptStatus :=
  match rungOf record.rungByte with
  | some .intentAdmitted => some .prepared
  | some .dispatchPrepared => some .outcomeUnknown
  | _ => none

@[simp] theorem key_new (key : EffectKey) (rung : EventKind) : (new key rung).key = key := rfl

@[simp] theorem recoveredStatus_new_intentAdmitted (key : EffectKey) :
    (new key .intentAdmitted).recoveredStatus = some .prepared := rfl

@[simp] theorem recoveredStatus_new_dispatchPrepared (key : EffectKey) :
    (new key .dispatchPrepared).recoveredStatus = some .outcomeUnknown := rfl

end UnresolvedAttempt

def maxCheckpointUnresolved : Nat := 128

def maxCheckpointSettled : Nat := 160

structure Continuation where
  generation : Nat
  predecessor : JournalPosition
  settled : List SettledAttempt
  unresolved : List UnresolvedAttempt
  deriving DecidableEq, Repr

namespace Continuation

/-- Build a checkpoint, refusing a carry past either declared count. -/
def new (generation : Nat) (predecessor : JournalPosition) (settled : List SettledAttempt)
    (unresolved : List UnresolvedAttempt) : Except JournalError Continuation :=
  if maxCheckpointSettled < settled.length then
    .error (.capacityExceeded .checkpointActions maxCheckpointSettled settled.length)
  else if maxCheckpointUnresolved < unresolved.length then
    .error (.capacityExceeded .checkpointUnresolved maxCheckpointUnresolved unresolved.length)
  else .ok ⟨generation, predecessor, settled, unresolved⟩

end Continuation

structure ContinuationPolicy where
  eventsAt : Nat
  bytesAt : Nat
  deriving DecidableEq, Repr

def watermarkOf (limit : Nat) : Nat := limit * 8 / 10

def ContinuationPolicy.declared : ContinuationPolicy :=
  ⟨watermarkOf maxJournalEvents, watermarkOf maxJournalBytes⟩

end LogicalWorks.Journal
