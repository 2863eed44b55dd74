import LogicalWorks.Ecs.Effects

/-! The ledger of outstanding work: one transition per chain, the action each entry runs,
and the effect path its attempts go through. -/
namespace LogicalWorks.Ecs
open Journal (EffectKey EffectEvidence ActionId AttemptId Digest)

structure Ledger (V J : Type) where
  transitions : List (Option (Transition V))
  nextInput : Nat
  actions : List (List ActionId)
  effects : Effects J

namespace Ledger

variable {V J : Type} [EffectJournal J]

def new (actions : List (List ActionId)) (effects : Effects J) (nextInput : Nat) : Ledger V J where
  transitions := List.replicate actions.length none
  nextInput := nextInput
  actions := actions
  effects := effects

def mintInput [Hashing] (ledger : Ledger V J) : Nat × Ledger V J :=
  (Hashing.inputStamp ledger.nextInput,
    { ledger with nextInput := min (ledger.nextInput + 1) (2 ^ 64 - 1) })

def actionOf (ledger : Ledger V J) (id : WorkId) : Option ActionId :=
  (ledger.actions[id.chain]?).bind fun entries => entries[id.entry]?

def locateFrom (chain : Nat) (actions : List (List ActionId)) (action : ActionId) :
    Option WorkId :=
  match actions with
  | [] => none
  | entries :: rest =>
    match entries.findIdx? (fun declared => declared = action) with
    | some entry => some ⟨chain, entry⟩
    | none => locateFrom (chain + 1) rest action

def locate (ledger : Ledger V J) (action : ActionId) : Option WorkId :=
  locateFrom 0 ledger.actions action

def transition (ledger : Ledger V J) (chain : Nat) : Option (Transition V) :=
  (ledger.transitions[chain]?).join

def generation (ledger : Ledger V J) (chain : Nat) : Option (Nat × Bool) :=
  (ledger.transition chain).map fun transition => (transition.input, transition.event)

def put (ledger : Ledger V J) (chain : Nat) (transition : Option (Transition V)) : Ledger V J :=
  { ledger with transitions := ledger.transitions.set chain transition }

def nextRetry (ledger : Ledger V J) (now : Nat) : Option Nat :=
  (ledger.transitions.filterMap fun slot =>
    slot.bind fun transition => transition.nextRetry now).min?

def entryState (ledger : Ledger V J) (id : WorkId) : Option EntryState :=
  (ledger.transition id.chain).bind fun transition => transition.entries[id.entry]?

def attemptRecord (ledger : Ledger V J) (id : WorkId) : Option AttemptRecord :=
  (ledger.transition id.chain).bind fun transition => transition.attempts[id.entry]?

def onTransition (ledger : Ledger V J) (chain : Nat) (f : Transition V → Transition V) :
    Ledger V J :=
  { ledger with transitions := ledger.transitions.modify chain (Option.map f) }

def setEntry (ledger : Ledger V J) (id : WorkId) (state : EntryState) : Ledger V J :=
  ledger.onTransition id.chain fun transition =>
    { transition with entries := transition.entries.set id.entry state }

def setRecord (ledger : Ledger V J) (id : WorkId) (record : AttemptRecord) : Ledger V J :=
  ledger.onTransition id.chain fun transition =>
    { transition with attempts := transition.attempts.set id.entry record }

def onEffects {ε α : Type} (call : Call (Effects J) ε α) : Call (Ledger V J) ε α :=
  Call.within Ledger.effects (fun ledger effects => { ledger with effects := effects }) call

def nextAttempt (ledger : Ledger V J) (action : ActionId) (record : AttemptRecord) :
    Option AttemptId :=
  match record.begun with
  | some previous => checkedNext previous
  | none =>
    match ledger.effects.recordedAttempt action with
    | some recorded => checkedNext recorded
    | none => some 1

def heldAttempt (ledger : Ledger V J) (id : WorkId) : Option AttemptId :=
  ((ledger.attemptRecord id).bind AttemptRecord.begun).or
    ((ledger.actionOf id).bind ledger.effects.recordedAttempt)

def startable (transition : Transition V) (entry : Nat) (retry : RetryReading) :
    EntryState → Bool
  | .notStarted => true
  | .definitelyFailed _ _ _ => transition.retryAdmission entry retry = some .begin
  | _ => false

def attemptKey [Hashing] (ledger : Ledger V J) (id : WorkId) (retry : RetryReading) :
    Except BotError EffectKey :=
  match ledger.actionOf id with
  | none => .error (.noSuchWork id)
  | some action =>
    if ledger.effects.blocks action then .error (.effectUnsettled action)
    else
      match ledger.transition id.chain with
      | none => .error (.noSuchWork id)
      | some transition =>
        match transition.entries[id.entry]?, transition.attempts[id.entry]? with
        | some state, some record =>
          if startable transition id.entry retry state then
            match ledger.nextAttempt action record with
            | none => .error (.effectUnsettled action)
            | some attempt =>
              match ledger.effects.key action id.chain id.entry transition.input attempt with
              | none => .error (.effectUnsettled action)
              | some key => .ok key
          else .error (.noSuchWork id)
        | _, _ => .error (.noSuchWork id)

def noteBegun (ledger : Ledger V J) (id : WorkId) (attempt : AttemptId) (now : Nat) :
    Ledger V J :=
  match ledger.attemptRecord id with
  | none => ledger
  | some record =>
    (ledger.setRecord id { record with
      begun := some attempt
      firstBegun := record.firstBegun.or (some now) }).setEntry id .unrecorded

def beginAttempt [Hashing] (id : WorkId) (lifetime : EffectLifetime) (retry : RetryReading) :
    Call (Polled (Ledger V J)) (Halt BotError) (EffectKey × Authority) := do
  let key ← Polled.sync (Call.readOr fun ledger => ledger.attemptKey id retry)
  let authority ← Polled.rename .effectRefused
    (Polled.within Ledger.effects (fun ledger effects => { ledger with effects := effects })
      (Effects.prepare key lifetime))
  Polled.sync (Call.change fun ledger => ledger.noteBegun id key.attempt retry.now)
  pure (key, authority)

/-- The entry's condition did not hold, so it owes nothing. -/
def skip (ledger : Ledger V J) (id : WorkId) : Ledger V J :=
  match ledger.entryState id with
  | some .notStarted | some (.definitelyFailed _ _ _) => ledger.setEntry id .skipped
  | _ => ledger

def succeed (ledger : Ledger V J) (id : WorkId) : Ledger V J :=
  if ledger.entryState id = some .unrecorded then ledger.setEntry id .succeeded else ledger

def recordingFailed (ledger : Ledger V J) (id : WorkId) :
    Option (EffectKey × EffectEvidence × Nat) :=
  match ledger.entryState id with
  | some (.recordingFailed key evidence _ attempts) => some (key, evidence, attempts)
  | _ => none

def holdRecording (ledger : Ledger V J) (id : WorkId) (evidence : EffectEvidence)
    (error : BotError) : Ledger V J :=
  match ledger.entryState id with
  | some (.recordingFailed key _ _ attempts) =>
    ledger.setEntry id (.recordingFailed key evidence (.failure error) attempts)
  | _ => ledger

def backoffBasis (ledger : Ledger V J) (id : WorkId) (attempts now : Nat) : Nat × UInt64 :=
  (((ledger.attemptRecord id).bind AttemptRecord.firstBegun).getD now,
    match ledger.actionOf id with
    | some action => backoffEntropy action attempts
    | none => UInt64.ofNat attempts)

def finishRecording (ledger : Ledger V J) (id : WorkId) (evidence : EffectEvidence)
    (attempts : Nat) (retry : RetryReading) : Ledger V J :=
  match ledger.entryState id with
  | some (.recordingFailed _ _ _ _) =>
    let basis := ledger.backoffBasis id attempts retry.now
    match evidence with
    | .applied => ledger.setEntry id .succeeded
    | .notApplied =>
      ledger.setEntry id
        (retry.afterDefiniteFailure attempts basis.1 basis.2 .notAppliedOnRetry)
  | _ => ledger

def expireRetry (ledger : Ledger V J) (id : WorkId) (retry : RetryReading) : Bool × Ledger V J :=
  match ledger.transition id.chain with
  | none => (false, ledger)
  | some transition =>
    match transition.retryAdmission id.entry retry, transition.entries[id.entry]? with
    | some (.expired elapsed), some (.definitelyFailed attempts cause _) =>
      (true, ledger.setEntry id (.abandoned (.deadlineExhausted attempts elapsed) cause))
    | _, _ => (false, ledger)

def fail (ledger : Ledger V J) (id : WorkId) (error : BotError) (attempt : AttemptId)
    (retry : RetryReading) : Ledger V J :=
  if ledger.entryState id = some .unrecorded then
    let basis := ledger.backoffBasis id (attemptsOf attempt) retry.now
    ledger.setEntry id (failureState error (attemptsOf attempt) retry basis.1 basis.2)
  else ledger

def durableOrMissing (key : EffectKey) (id : WorkId) (evidence : EffectEvidence) :
    Call (Ledger V J) JournalError Settled := do
  match ← onEffects (Effects.outcomeFor key) with
  | some recorded => pure (if recorded = evidence then .duplicate else .contradicted id recorded)
  | none => pure (.noSuchWork (some id))

def classifyDecided (record : AttemptRecord) (key : EffectKey) (id : WorkId)
    (evidence : EffectEvidence) : Call (Ledger V J) JournalError Settled :=
  match record.settled with
  | some previous =>
    if previous.attempt = key.attempt then
      pure (if previous.evidence = evidence then .duplicate
        else .contradicted id previous.evidence)
    else durableOrMissing key id evidence
  | none => durableOrMissing key id evidence

/-- What evidence means for an entry that waits for it: only its own attempt counts. -/
def classifyHeld (record : AttemptRecord) (key : EffectKey) (id : WorkId) : Settled :=
  match record.begun with
  | none => .noSuchWork (some id)
  | some outstanding =>
    if key.attempt = outstanding then .decided
    else .staleAttempt id key.attempt outstanding

def classifyLive (transition : Transition V) (record : AttemptRecord) (key : EffectKey)
    (id : WorkId) (evidence : EffectEvidence) : Call (Ledger V J) JournalError Settled := do
  let recorded ← onEffects (Effects.outcomeFor key)
  match recorded.filter fun other => other ≠ evidence with
  | some other => pure (.contradicted id other)
  | none =>
    if (transition.entries[id.entry]?).any EntryState.isSettleable then
      pure (classifyHeld record key id)
    else classifyDecided record key id evidence

def speaksFor (ledger : Ledger V J) (key : EffectKey) : Bool :=
  key.run = ledger.effects.identity.run ∧ key.flow = ledger.effects.identity.flow ∧
    key.environment = ledger.effects.identity.environment

def classifySettlement [Hashing] (key : EffectKey) (evidence : EffectEvidence) :
    Call (Ledger V J) JournalError Settled := do
  let ledger ← Call.read id
  match ledger.locate key.action with
  | none => pure (.noSuchWork none)
  | some work =>
    if ledger.speaksFor key then
      match ledger.transition work.chain with
      | none => durableOrMissing key work evidence
      | some transition =>
        let live := ledger.effects.digestOf work.chain work.entry transition.input
        if key.digest = live then
          match transition.attempts[work.entry]? with
          | none => durableOrMissing key work evidence
          | some record => classifyLive transition record key work evidence
        else pure (.superseded work live)
    else pure (.noSuchWork none)

def settledState : EffectEvidence → EntryState
  | .applied => .succeeded
  | .notApplied => .notStarted

def applySettlement (ledger : Ledger V J) (key : EffectKey) (evidence : EffectEvidence) :
    Ledger V J :=
  match ledger.locate key.action with
  | none => ledger
  | some id =>
    match ledger.attemptRecord id with
    | none => ledger
    | some record =>
      match record.begun with
      | none => ledger
      | some outstanding =>
        (ledger.setEntry id (settledState evidence)).setRecord id
          { record with settled := some ⟨outstanding, evidence⟩ }

def bound (ledger : Ledger V J) (chain : Nat) : Option V :=
  (ledger.transition chain).bind Transition.value

def keyOf [Hashing] (ledger : Ledger V J) (id : WorkId) (transition : Transition V) :
    Option EffectKey :=
  (ledger.actionOf id).bind fun action =>
    (transition.attemptOf id.entry).bind fun attempt =>
      ledger.effects.key action id.chain id.entry transition.input attempt

def unresolvedAt [Hashing] (ledger : Ledger V J) (budget : Nat) (id : WorkId) :
    Option PendingWork :=
  match (ledger.actionOf id).bind ledger.effects.unsettledFor with
  | some key => some ⟨id, some key, .unsettledByRecovery key.action⟩
  | none =>
    match (ledger.actionOf id).bind ledger.effects.recordingFor with
    | some recording =>
      some ⟨id, some recording.key,
        .recordingFailed recording.evidence (.journal recording.cause)⟩
    | none =>
      match ledger.transition id.chain with
      | none => none
      | some transition =>
        match transition.entries[id.entry]? with
        | none => none
        | some state =>
          (state.hold budget).map fun hold => ⟨id, ledger.keyOf id transition, hold⟩

def width (ledger : Ledger V J) (chain : Nat) : Nat :=
  max ((ledger.actions[chain]?).elim 0 List.length)
    ((ledger.transition chain).elim 0 fun transition => transition.entries.length)

def unresolved [Hashing] (ledger : Ledger V J) (budget : Nat) : List PendingWork :=
  (List.range (max ledger.actions.length ledger.transitions.length)).flatMap fun chain =>
    (List.range (ledger.width chain)).filterMap fun entry =>
      ledger.unresolvedAt budget ⟨chain, entry⟩

end Ledger

end LogicalWorks.Ecs
