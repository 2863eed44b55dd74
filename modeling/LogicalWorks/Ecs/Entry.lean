import LogicalWorks.Journal.Error

/-! What a bot's effect path can refuse, and what a failure says about the effect it was
making.  A refusal of the journal file itself is `Journal.JournalError`; the seam's own
checks add theirs. -/
namespace LogicalWorks.Ecs
open Journal (EffectKey EffectEvidence EffectEvent EventKind JournalPosition DurabilityPromise
  ActionId AttemptId EnvironmentId EnvironmentEpoch Digest)

structure WorkId where
  chain : Nat
  entry : Nat
  deriving DecidableEq, Repr

inductive JournalError where
  | refused (cause : Journal.JournalError)
  | snapshotStale (recoveredEvents committedEvents : Nat)
  | promiseUnmet (required offered : DurabilityPromise)
  | receiptUnavailable (required : DurabilityPromise)
  | receiptMismatch (expected actual : JournalPosition)
  | entryMismatch (position : JournalPosition) (expected actual : EffectEvent)
  deriving DecidableEq, Repr

def outOfOrder (key : EffectKey) (expected : Option EventKind) (attempted : EventKind) :
    JournalError :=
  .refused (.outOfOrder key expected attempted)

/-- Whether the refusal says the ladder is past this key's outcome. -/
def JournalError.ladderComplete : JournalError → Bool
  | .refused (.outOfOrder _ expected _) => expected = some .verified || expected = none
  | _ => false

def JournalError.outcomeUnknown : JournalError → Bool
  | .refused (.outcomeUnknown _) => true
  | _ => false

inductive BrokerError where
  | unknownEnvironment (id : EnvironmentId)
  | closed (id : EnvironmentId)
  | superseded (environment : EnvironmentId) (presented current : EnvironmentEpoch)
  | neverIssued (environment : EnvironmentId) (presented current : EnvironmentEpoch)
  deriving DecidableEq, Repr

inductive DispatchError where
  | broker (cause : BrokerError)
  | journal (cause : JournalError)
  deriving DecidableEq, Repr

/-- What a failed attempt establishes about the effect it was making. -/
inductive DispatchCertainty where
  | refused
  | notDelivered
  | unsettled
  | occurred
  deriving DecidableEq, Repr

inductive RetryClass where
  | never
  | safe
  | requiresEvidence
  deriving DecidableEq, Repr

def DispatchCertainty.retryClass : DispatchCertainty → RetryClass
  | .refused | .occurred => .never
  | .notDelivered => .safe
  | .unsettled => .requiresEvidence

/-- A failure of the bot.  `refusal` is any variant that names a refusal made before an
effect is attempted and that the tick neither makes nor reads. -/
inductive BotError where
  | domainError (domain : String) (certainty : DispatchCertainty) (cause : String)
  | effectIndeterminate (domain cause : String)
  | effectUnrecorded (key : EffectKey) (evidence : EffectEvidence) (cause : DispatchError)
  | effectRefused (cause : DispatchError)
  | effectUnsettled (action : ActionId)
  | noSuchWork (work : WorkId)
  | actionNotDeclared (action : ActionId)
  | evidenceSuperseded (work : WorkId) (named current : Digest)
  | evidenceStaleAttempt (work : WorkId) (reported outstanding : AttemptId)
  | evidenceContradicted (work : WorkId) (settled submitted : EffectEvidence)
  | pollStalled (chain : Nat)
  | unstableObservation (domain : String)
  | refusal (text : String)
  deriving DecidableEq, Repr

def BotError.dispatchCertainty : BotError → DispatchCertainty
  | .domainError _ certainty _ => certainty
  | .effectIndeterminate _ _ => .unsettled
  | .effectUnrecorded _ .applied _ => .occurred
  | .effectUnrecorded _ .notApplied _ => .notDelivered
  | .pollStalled _ => .notDelivered
  | .unstableObservation _ => .notDelivered
  | _ => .refused

/-- What this failure permits a caller to do about it: a recording failure never leads
back into the action. -/
def BotError.retryClass : BotError → RetryClass
  | .effectUnrecorded _ _ _ => .never
  | error => error.dispatchCertainty.retryClass

/-- What an action's answer establishes, when it establishes anything. -/
def observedOf : Except BotError Unit → Option EffectEvidence
  | .ok _ => some .applied
  | .error error =>
    match error.dispatchCertainty with
    | .refused | .notDelivered => some .notApplied
    | .unsettled | .occurred => none

end LogicalWorks.Ecs

/-! The retry schedule of one entry, the state it is in, and the transition its chain
walks.  A duration is its whole nanoseconds; an input identity is its 128-bit value. -/
namespace LogicalWorks.Ecs
open Journal (EffectKey EffectEvidence ActionId AttemptId)

def durationMax : Nat := (2 ^ 64 - 1) * 10 ^ 9 + 999999999

def saturatingAdd (left right : Nat) : Nat := min (left + right) durationMax

structure RetryPolicy where
  maxAttempts : UInt32
  baseDelay : Nat
  maxDelay : Nat
  deadline : Nat
  deriving DecidableEq, Repr

def cappedBackoffNanos (base cap attempt : Nat) : Nat :=
  let base := min base cap
  if base = 0 ∨ base = cap then base
  else if 128 ≤ attempt then cap
  else if cap >>> attempt < base then cap
  else base <<< attempt

namespace RetryPolicy

def delay (policy : RetryPolicy) (attempt : Nat) (jitterEntropy : UInt64) : Nat :=
  let backoff := cappedBackoffNanos policy.baseDelay policy.maxDelay attempt
  if backoff = 0 then 0
  else min (backoff - jitterEntropy.toNat % (backoff + 1)) durationMax

def deadlineExceeded (policy : RetryPolicy) (elapsed : Nat) : Bool :=
  policy.deadline ≤ elapsed

end RetryPolicy

/-- Whether a definitely-failed entry may be retried at one clock reading. -/
inductive RetryAdmission where
  | wait
  | begin
  | expired (elapsed : Nat)
  deriving DecidableEq, Repr

inductive AbandonReason where
  | attemptsExhausted (attempts : Nat)
  | deadlineExhausted (attempts elapsed : Nat)
  | terminal
  deriving DecidableEq, Repr

inductive Cause where
  | failure (error : BotError)
  | dispatch (cause : DispatchError)
  | journal (cause : JournalError)
  | notAppliedOnRetry
  deriving DecidableEq, Repr

inductive EntryState where
  | notStarted
  | unrecorded
  | succeeded
  | skipped
  | definitelyFailed (attempts : Nat) (cause : Cause) (retryAt : Nat)
  | outcomeUnknown (attempts : Nat) (cause : Cause)
  | recordingFailed (key : EffectKey) (evidence : EffectEvidence) (cause : Cause) (attempts : Nat)
  | abandoned (reason : AbandonReason) (cause : Cause)
  deriving DecidableEq, Repr

namespace EntryState

def isOpen : EntryState → Bool
  | notStarted | unrecorded => true
  | definitelyFailed _ _ _ | outcomeUnknown _ _ | recordingFailed _ _ _ _ => true
  | succeeded | skipped | abandoned _ _ => false

def isAbandoned : EntryState → Bool
  | abandoned _ _ => true
  | _ => false

def isSettleable : EntryState → Bool
  | unrecorded | outcomeUnknown _ _ | abandoned _ _ => true
  | _ => false

end EntryState

inductive TransitionHold where
  | notStarted
  | unrecorded
  | unsettledByRecovery (action : ActionId)
  | failed (attempts budget : Nat) (cause : Cause) (retryAt : Nat)
  | outcomeUnknown (attempts : Nat) (cause : Cause)
  | recordingFailed (evidence : EffectEvidence) (cause : Cause)
  | abandoned (reason : AbandonReason) (cause : Cause)
  deriving DecidableEq, Repr

def EntryState.hold (state : EntryState) (budget : Nat) : Option TransitionHold :=
  match state with
  | succeeded | skipped => none
  | notStarted => some .notStarted
  | unrecorded => some .unrecorded
  | definitelyFailed attempts cause retryAt => some (.failed attempts budget cause retryAt)
  | outcomeUnknown attempts cause => some (.outcomeUnknown attempts cause)
  | recordingFailed _ evidence cause _ => some (.recordingFailed evidence cause)
  | abandoned reason cause => some (.abandoned reason cause)

structure RetryReading where
  policy : RetryPolicy
  now : Nat
  deriving DecidableEq, Repr

namespace RetryReading

def budget (retry : RetryReading) : Nat := max retry.policy.maxAttempts.toNat 1

def admission (retry : RetryReading) (retryAt : Nat) (first : Option Nat) : RetryAdmission :=
  if retry.now < retryAt then .wait
  else
    match first with
    | none => .begin
    | some first =>
      if retry.policy.deadlineExceeded (retry.now - first) then .expired (retry.now - first)
      else .begin

def afterDefiniteFailure (retry : RetryReading) (attempts first : Nat) (entropy : UInt64)
    (cause : Cause) : EntryState :=
  if retry.budget ≤ attempts then .abandoned (.attemptsExhausted attempts) cause
  else
    let retryAt := saturatingAdd retry.now (retry.policy.delay (attempts - 1) entropy)
    if retry.policy.deadlineExceeded (retryAt - first) then
      .abandoned (.deadlineExhausted attempts (retry.now - first)) cause
    else .definitelyFailed attempts cause retryAt

end RetryReading

def rotateLeft (value : UInt64) (count : Nat) : UInt64 :=
  UInt64.ofBitVec (value.toBitVec.rotateLeft count)

/-- The jitter of one retry of one action, from both halves of its identity. -/
def backoffEntropy (action : ActionId) (attempts : Nat) : UInt64 :=
  UInt64.ofNat (action % 2 ^ 64) ^^^
    rotateLeft (UInt64.ofNat (action / 2 ^ 64 % 2 ^ 64)) attempts

structure SettledAttempt where
  attempt : AttemptId
  evidence : EffectEvidence
  deriving DecidableEq, Repr

structure AttemptRecord where
  begun : Option AttemptId
  settled : Option SettledAttempt
  firstBegun : Option Nat
  deriving DecidableEq, Repr

def AttemptRecord.default : AttemptRecord := ⟨none, none, none⟩

structure AdmittedInput where
  identity : Nat
  event : Bool
  deriving DecidableEq, Repr

structure Transition (V : Type) where
  revision : Nat
  input : Nat
  event : Bool
  entries : List EntryState
  attempts : List AttemptRecord
  value : Option V
  deriving DecidableEq, Repr

namespace Transition

variable {V : Type}

def attemptOf (transition : Transition V) (entry : Nat) : Option AttemptId :=
  (transition.attempts[entry]?).bind AttemptRecord.begun

def opened (input : AdmittedInput) (revision entries : Nat) (value : Option V) : Transition V where
  revision := revision
  input := input.identity
  event := input.event
  entries := List.replicate entries .notStarted
  attempts := List.replicate entries .default
  value := value

/-- An entry of the next generation: outstanding again, unless it was given up on. -/
def resumedState : EntryState → EntryState
  | .abandoned reason cause => .abandoned reason cause
  | _ => .notStarted

def resumed (input : AdmittedInput) (revision : Nat) (previous : Transition V)
    (value : Option V) : Transition V where
  revision := revision
  input := input.identity
  event := input.event
  entries := previous.entries.map resumedState
  attempts := List.replicate previous.entries.length .default
  value := value

def retryAdmission (transition : Transition V) (entry : Nat) (retry : RetryReading) :
    Option RetryAdmission :=
  match transition.entries[entry]? with
  | some (.definitelyFailed _ _ retryAt) =>
    some (retry.admission retryAt ((transition.attempts[entry]?).bind AttemptRecord.firstBegun))
  | _ => none

def retryAfter (now : Nat) : EntryState → Option Nat
  | .definitelyFailed _ _ retryAt => if now < retryAt then some retryAt else none
  | _ => none

def nextRetry (transition : Transition V) (now : Nat) : Option Nat :=
  (transition.entries.filterMap (retryAfter now)).min?

def hasOpen (transition : Transition V) : Bool := transition.entries.any EntryState.isOpen

def isRetained (transition : Transition V) : Bool :=
  transition.entries.any fun state => state.isOpen || state.isAbandoned

end Transition

inductive Settled where
  | decided
  | duplicate
  | superseded (id : WorkId) (current : Journal.Digest)
  | staleAttempt (id : WorkId) (reported outstanding : AttemptId)
  | contradicted (id : WorkId) (settled : EffectEvidence)
  | noSuchWork (id : Option WorkId)
  deriving DecidableEq, Repr

/-- One entry that is not finished, with the key evidence about it is sent under. -/
structure PendingWork where
  id : WorkId
  key : Option EffectKey
  hold : TransitionHold
  deriving DecidableEq, Repr

def checkedNext (counter : Nat) : Option Nat :=
  if counter + 1 < 2 ^ 64 then some (counter + 1) else none

def attemptsOf (attempt : AttemptId) : Nat := min attempt (2 ^ 32 - 1)

def failureState (error : BotError) (attempts : Nat) (retry : RetryReading) (first : Nat)
    (entropy : UInt64) : EntryState :=
  match error with
  | .effectUnrecorded key evidence cause =>
    .recordingFailed key evidence (.dispatch cause) attempts
  | error =>
    match error.retryClass with
    | .safe => retry.afterDefiniteFailure attempts first entropy (.failure error)
    | .requiresEvidence => .outcomeUnknown attempts (.failure error)
    | .never => .abandoned .terminal (.failure error)

end LogicalWorks.Ecs
