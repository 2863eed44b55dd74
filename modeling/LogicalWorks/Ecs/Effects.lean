import LogicalWorks.Lib.Index
import LogicalWorks.Lib.Polled
import LogicalWorks.Ecs.Seam

/-! The write-ahead effect path: the identity a run acts under, the broker that fences its
environment, and the journal with what the controller has folded out of it. -/
namespace LogicalWorks.Ecs
open Journal (EffectKey EffectEvidence EffectEvent EventKind JournalPosition DurabilityPromise
  DurableAck ActionId AttemptId RunId EnvironmentId EnvironmentEpoch Digest)

/-- The hashes an identity is derived with. -/
class Hashing where
  actionId : String → Nat → Nat → String → ActionId
  actionDigest : Digest → Nat → Nat → Nat → Digest
  inputStamp : Nat → Nat

/-- One environment's generation, and whether it still mints authority. -/
structure Environment where
  epoch : EnvironmentEpoch
  isOpen : Bool
  deriving DecidableEq, Repr

structure Broker where
  environments : Index EnvironmentId Environment

structure Authority where
  environment : EnvironmentId
  epoch : EnvironmentEpoch
  deriving DecidableEq, Repr

namespace Broker

def epoch (broker : Broker) (id : EnvironmentId) : Option EnvironmentEpoch :=
  (broker.environments.get id).map Environment.epoch

def checkGeneration (broker : Broker) (id : EnvironmentId) (presented : EnvironmentEpoch) :
    Except BrokerError EnvironmentEpoch :=
  match broker.environments.get id with
  | none => .error (.unknownEnvironment id)
  | some environment =>
    if !environment.isOpen then .error (.closed id)
    else if environment.epoch < presented then
      .error (.neverIssued id presented environment.epoch)
    else if presented ≠ environment.epoch then
      .error (.superseded id presented environment.epoch)
    else .ok environment.epoch

def authorize (broker : Broker) (key : EffectKey) : Except BrokerError Authority :=
  (broker.checkGeneration key.environment key.epoch).map fun current => ⟨key.environment, current⟩

def revalidate (broker : Broker) (authority : Authority) : Except BrokerError Unit :=
  (broker.checkGeneration authority.environment authority.epoch).map fun _ => ()

end Broker

structure EffectIdentity where
  run : RunId
  environment : EnvironmentId
  flow : Digest
  deriving DecidableEq, Repr

def EffectIdentity.key (identity : EffectIdentity) (action : ActionId) (attempt : AttemptId)
    (digest : Digest) (epoch : EnvironmentEpoch) : EffectKey where
  run := identity.run
  action := action
  attempt := attempt
  flow := identity.flow
  digest := digest
  environment := identity.environment
  epoch := epoch

structure EffectScope (J : Type) where
  identity : EffectIdentity
  broker : Broker
  journal : J

inductive EffectLifetime where
  | internal
  | external
  deriving DecidableEq, Repr

structure RecordedOutcome where
  key : EffectKey
  evidence : EffectEvidence
  cause : JournalError
  deriving DecidableEq, Repr

/-- The effect path as the bot holds it, with the recovered state folded in. -/
structure Effects (J : Type) where
  scope : EffectScope J
  tail : JournalPosition
  unsettled : List EffectKey
  recording : List RecordedOutcome
  requirements : List (EffectKey × DurabilityPromise)
  appliedLatest : Index ActionId EffectKey
  appliedEvents : List (ActionId × Digest)
  attempted : List (ActionId × AttemptId)

def changedOutcome (key : EffectKey) : JournalError :=
  outOfOrder key (some .verified) .outcomeObserved

namespace Effects

variable {J : Type} [EffectJournal J]

def new (scope : EffectScope J) (tail : JournalPosition) : Effects J where
  scope := scope
  tail := tail
  unsettled := []
  recording := []
  requirements := []
  appliedLatest := .empty
  appliedEvents := []
  attempted := []

def identity (effects : Effects J) : EffectIdentity := effects.scope.identity

def journal (effects : Effects J) : J := effects.scope.journal

def setJournal (effects : Effects J) (journal : J) : Effects J :=
  { effects with scope := { effects.scope with journal := journal } }

def noteApplied (effects : Effects J) (key : EffectKey) : Effects J :=
  { effects with
    appliedEvents :=
      if (key.action, key.digest) ∈ effects.appliedEvents then effects.appliedEvents
      else (key.action, key.digest) :: effects.appliedEvents
    appliedLatest := effects.appliedLatest.insert key.action key }

def recordingFor (effects : Effects J) (action : ActionId) : Option RecordedOutcome :=
  effects.recording.find? fun entry => entry.key.action = action

/-- An attempt on the action is dispatched with no outcome, or an outcome unattested. -/
def blocks (effects : Effects J) (action : ActionId) : Bool :=
  effects.unsettled.any (fun key => key.action = action) || (effects.recordingFor action).isSome

def unsettledFor (effects : Effects J) (action : ActionId) : Option EffectKey :=
  effects.unsettled.find? fun key => key.action = action

def epoch (effects : Effects J) : Option EnvironmentEpoch :=
  effects.scope.broker.epoch effects.identity.environment

def digestOf [Hashing] (effects : Effects J) (chain entry input : Nat) : Digest :=
  Hashing.actionDigest effects.identity.flow chain entry input

def key [Hashing] (effects : Effects J) (action : ActionId) (chain entry input : Nat)
    (attempt : AttemptId) : Option EffectKey :=
  effects.epoch.map fun epoch =>
    effects.identity.key action attempt (effects.digestOf chain entry input) epoch

def appliedIn [Hashing] (effects : Effects J) (action : ActionId) (chain entry input : Nat)
    (event : Bool) : Bool :=
  if event then (action, effects.digestOf chain entry input) ∈ effects.appliedEvents
  else
    match effects.appliedLatest.get action with
    | some key => key.digest = effects.digestOf chain entry input
    | none => false

def recordedAttempt (effects : Effects J) (action : ActionId) : Option AttemptId :=
  (effects.attempted.find? fun entry => entry.1 = action).map Prod.snd

def notedAttempts (attempted : List (ActionId × AttemptId)) (action : ActionId)
    (attempt : AttemptId) : List (ActionId × AttemptId) :=
  match attempted with
  | [] => [(action, attempt)]
  | slot :: rest =>
    if slot.1 = action then (if slot.2 < attempt then (slot.1, attempt) else slot) :: rest
    else slot :: notedAttempts rest action attempt

def noteJournalAttempt (effects : Effects J) (action : ActionId) (attempt : AttemptId) :
    Effects J :=
  { effects with attempted := notedAttempts effects.attempted action attempt }

def onJournal {ε α : Type} (call : Call J ε α) : Call (Effects J) ε α :=
  Call.within journal setJournal call

def adopt (effects : Effects J) (successor : J) : Effects J :=
  { effects.setJournal successor with tail := EffectJournal.tail successor }

def continueIfDue : Call (Effects J) JournalError Unit := do
  if ← onJournal EffectJournal.watermarkIsDue then
    match ← onJournal EffectJournal.continueAsNew with
    | some successor => Call.change fun effects => effects.adopt successor
    | none => pure ()
  else pure ()

def append (event : EffectEvent) : Call (Effects J) JournalError DurableAck := do
  continueIfDue
  let expected ← Call.read Effects.tail
  onJournal (EffectJournal.compareAndAppend expected event)

def appendAsync (event : EffectEvent) :
    Call (Polled (Effects J)) (Halt JournalError) DurableAck := do
  Polled.sync continueIfDue
  let expected ← Polled.sync (Call.read Effects.tail)
  Polled.await (onJournal (EffectJournal.compareAndAppendAsync expected event))

def eventPosition (expected : EffectEvent) (position : JournalPosition) :
    Call (Effects J) JournalError Unit := do
  match ← onJournal (EffectJournal.committedEntry position) with
  | none => Call.refuse (outOfOrder expected.key (some expected.kind) expected.kind)
  | some entry =>
    Call.refuseIf (entry.event ≠ expected) (.entryMismatch position expected entry.event)

def acceptPosition (event : EffectEvent) (position : JournalPosition) :
    Call (Effects J) JournalError Unit := do
  eventPosition event position
  let actual ← Call.read fun effects => EffectJournal.tail effects.journal
  Call.refuseIf (actual ≠ position) (.refused (.tailMismatch position actual))
  Call.change fun effects => { effects with tail := position }

def outcomePosition (key : EffectKey) (evidence : EffectEvidence) :
    Call (Effects J) JournalError JournalPosition := do
  match ← onJournal (EffectJournal.outcomeAt key) with
  | none => Call.refuse (outOfOrder key (some .outcomeObserved) .outcomeObserved)
  | some (position, recorded) =>
    Call.refuseIf (recorded ≠ evidence) (changedOutcome key)
    eventPosition (.outcomeObserved key evidence) position
    pure position

def outcomeFor (key : EffectKey) : Call (Effects J) JournalError (Option EffectEvidence) := do
  let found ← onJournal (EffectJournal.outcomeAt key)
  pure (found.map Prod.snd)

def obtainReceipt (key : EffectKey) (evidence : EffectEvidence) (position : JournalPosition)
    (required : DurabilityPromise) : Call (Effects J) JournalError Unit := do
  let receipt ← onJournal (EffectJournal.confirmOutcome key evidence position required)
  Call.refuseIf (receipt.position ≠ position) (.receiptMismatch position receipt.position)
  Call.refuseIf (meets receipt.promise required = false) (.promiseUnmet required receipt.promise)

def confirmOutcome (key : EffectKey) (evidence : EffectEvidence) (required : DurabilityPromise)
    (acknowledgment : DurableAck) : Call (Effects J) JournalError Unit := do
  let position ← outcomePosition key evidence
  Call.refuseIf (acknowledgment.position ≠ position)
    (.receiptMismatch position acknowledgment.position)
  if meets acknowledgment.promise required then pure ()
  else obtainReceipt key evidence position required

def foldOutcome (effects : Effects J) (key : EffectKey) (evidence : EffectEvidence) : Effects J :=
  let folded := { effects with
    requirements := effects.requirements.filter fun entry => entry.1 ≠ key }
  let noted := folded.noteJournalAttempt key.action key.attempt
  if evidence = .applied then noted.noteApplied key else noted

def confirmRecordedOutcome (key : EffectKey) (evidence : EffectEvidence) :
    Call (Effects J) JournalError Unit := do
  let required ← Call.read fun effects => EffectJournal.durability effects.journal
  if required = .ephemeral then pure ()
  else
    let position ← outcomePosition key evidence
    obtainReceipt key evidence position required

def settleCommittedOutcome (key : EffectKey) (evidence : EffectEvidence)
    (required : DurabilityPromise) : Call (Effects J) JournalError Unit := do
  let offered ← Call.read fun effects => EffectJournal.durability effects.journal
  Call.refuseIf (meets offered required = false) (.receiptUnavailable required)
  Call.onlyIf (offered ≠ .ephemeral) (confirmRecordedOutcome key evidence)
  let position ← outcomePosition key evidence
  acceptPosition (.outcomeObserved key evidence) position
  Call.change fun effects => effects.foldOutcome key evidence

def recordNewOutcome (key : EffectKey) (evidence : EffectEvidence) (required : DurabilityPromise)
    (acknowledgment : DurableAck) : Call (Effects J) JournalError Unit := do
  confirmOutcome key evidence required acknowledgment
  let position ← outcomePosition key evidence
  acceptPosition (.outcomeObserved key evidence) position
  Call.change fun effects => effects.foldOutcome key evidence

def requirementFor (effects : Effects J) (key : EffectKey) : DurabilityPromise :=
  match effects.requirements.find? fun entry => entry.1 = key with
  | some entry => entry.2
  | none => EffectJournal.durability effects.journal

def reconcileOutcome (key : EffectKey) (evidence : EffectEvidence) (required : DurabilityPromise)
    (cause : JournalError) : Call (Effects J) JournalError Unit :=
  if cause.ladderComplete then do
    match ← outcomeFor key with
    | some recorded =>
      if recorded = evidence then settleCommittedOutcome key evidence required
      else Call.refuse cause
    | none => Call.refuse cause
  else if cause.outcomeUnknown then do
    match ← outcomeFor key with
    | some recorded =>
      if recorded = evidence then settleCommittedOutcome key evidence required
      else Call.refuse (outOfOrder key (some .verified) .outcomeObserved)
    | none => Call.refuse cause
  else Call.refuse cause

def ensureOutcome (key : EffectKey) (evidence : EffectEvidence) :
    Call (Effects J) JournalError Unit := do
  let required ← Call.read fun effects => effects.requirementFor key
  match ← outcomeFor key with
  | some recorded =>
    Call.refuseIf (recorded ≠ evidence) (changedOutcome key)
    settleCommittedOutcome key evidence required
  | none =>
    match ← Call.attempt (append (.outcomeObserved key evidence)) with
    | .ok acknowledgment => recordNewOutcome key evidence required acknowledgment
    | .error cause => reconcileOutcome key evidence required cause

def settleRecovered (key : EffectKey) (evidence : EffectEvidence) :
    Call (Effects J) JournalError Unit := do
  ensureOutcome key evidence
  Call.change fun effects =>
    { effects with unsettled := effects.unsettled.filter fun held => held ≠ key }

def settleRecording (key : EffectKey) (evidence : EffectEvidence) :
    Call (Effects J) JournalError Unit := do
  confirmRecordedOutcome key evidence
  Call.change fun effects =>
    { effects with
      recording := effects.recording.filter fun entry => entry.key ≠ key }.foldOutcome key evidence

def admission (lifetime : EffectLifetime) : Call (Effects J) JournalError DurabilityPromise :=
  match lifetime with
  | .internal => pure .ephemeral
  | .external => do
      let _ ← onJournal EffectJournal.admitExternalHandoff
      onJournal (EffectJournal.reserveHandoffCapacity 3)
      pure .processCrash

def prepare (key : EffectKey) (lifetime : EffectLifetime) :
    Call (Polled (Effects J)) (Halt DispatchError) Authority := do
  let required ← Polled.rename .journal (Polled.sync (admission lifetime))
  let intentAck ← Polled.rename .journal (appendAsync (.intentAdmitted key))
  Polled.sync (Call.change fun effects => effects.noteJournalAttempt key.action key.attempt)
  Polled.sync (Call.refuseIf (meets intentAck.promise required = false)
    (.journal (.promiseUnmet required intentAck.promise)))
  Polled.rename .journal
    (Polled.sync (acceptPosition (.intentAdmitted key) intentAck.position))
  let expected ← Polled.sync (Call.read Effects.tail)
  let authority ← Polled.rename .broker
    (Polled.sync (Call.readOr fun effects => effects.scope.broker.authorize key))
  let ack ← Polled.rename .journal
    (Polled.await (onJournal (EffectJournal.compareAndAppendAsync expected (.dispatchPrepared key))))
  Polled.sync (Call.refuseIf (meets ack.promise required = false)
    (.journal (.promiseUnmet required ack.promise)))
  Polled.rename .journal
    (Polled.sync (acceptPosition (.dispatchPrepared key) ack.position))
  Polled.sync (Call.change fun effects =>
    { effects with requirements := effects.requirements ++ [(key, required)] })
  pure authority

end Effects

end LogicalWorks.Ecs
