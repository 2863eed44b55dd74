import LogicalWorks.Ecs.Ledger
import LogicalWorks.Journal.Recover

/-! The bot: the tick that polls its sources, commits what they observed, plans each chain
and runs the plan; the settlement of a held effect; and the assembly over a journal. -/
namespace LogicalWorks.Ecs
open Journal (EffectKey EffectEvidence EffectEvent JournalPosition DurabilityPromise
  ActionId AttemptId Digest Attempt)

inductive Cadence where
  | tick
  | every (period : Nat)
  | wake
  deriving DecidableEq, Repr

/-- Each chain's cadence, its next deadline, and the wakes signalled since the last tick. -/
structure Cadences where
  kinds : List Cadence
  due : List Nat
  pending : List Bool
  any : Bool
  deriving DecidableEq, Repr

def nanos (span : Nat) : Nat := min span (2 ^ 64 - 1)

namespace Cadences

/-- Every woken chain starts woken, so the first tick reads its baseline. -/
def new (kinds : List Cadence) : Cadences where
  kinds := kinds
  due := kinds.map fun _ => 0
  pending := kinds.map fun kind => kind = .wake
  any := kinds.any fun kind => kind = .wake

def wake (cadences : Cadences) (chain : Nat) : Cadences :=
  match cadences.pending[chain]? with
  | some false => { cadences with pending := cadences.pending.set chain true, any := true }
  | _ => cadences

def takeWakes (cadences : Cadences) : List Bool × Cadences :=
  (cadences.pending,
    { cadences with pending := cadences.pending.map fun _ => false, any := false })

def pollDue (cadences : Cadences) (chain now : Nat) (woken : List Bool) : Bool × Cadences :=
  match cadences.kinds[chain]? with
  | some (.every period) =>
    match cadences.due[chain]? with
    | none => (true, cadences)
    | some due =>
      if nanos now < due then (false, cadences)
      else
        (true, { cadences with
          due := cadences.due.set chain (min (nanos now + nanos period) (2 ^ 64 - 1)) })
  | some .wake => (woken[chain]? = some true, cadences)
  | _ => (true, cadences)

def earliest (cadences : Cadences) : Option Nat :=
  ((cadences.kinds.zip cadences.due).filterMap fun pair =>
    match pair.1 with
    | .every _ => some pair.2
    | _ => none).min?

end Cadences

structure ChainEntry where
  domain : String
  lifetime : EffectLifetime
  deriving DecidableEq, Repr

structure EcsChain (V : Type) where
  cadence : Cadence
  same : V → V → Bool
  identify : V → AdmittedInput
  entries : List ChainEntry

inductive Decision where
  | skip
  | attempt
  deriving DecidableEq, Repr

structure Step where
  chain : Nat
  entry : Nat
  decision : Decision
  deriving DecidableEq, Repr

def Step.work (step : Step) : WorkId := ⟨step.chain, step.entry⟩

structure ChainPlan where
  chain : Nat
  steps : List Step
  failure : Option BotError
  deriving DecidableEq, Repr

/-- What a bot did, as an observer beside it would note it down. -/
inductive Happening (J : Type) where
  | polled (chain : Nat)
  | opened (chain : Nat)
  | resumed (chain : Nat)
  | attempted (work : WorkId)
  | begun (work : WorkId) (key : EffectKey) (held : Option AttemptId)
  | invoked (work : WorkId) (key : EffectKey) (journal : J)
  | retriedAppend (work : WorkId) (key : EffectKey)
  | wrote (work : WorkId) (state : EntryState)
  | settled (work : WorkId) (key : EffectKey) (evidence : EffectEvidence)

structure EcsBot (V J : Type) where
  chains : List (EcsChain V)
  policy : RetryPolicy
  now : Nat
  cadences : Cadences
  ledger : Ledger V J
  observed : List (Option V)
  revisions : List Nat
  history : List (Happening J)

/-- What the world answers one tick: the clock, the polls, the conditions and the actions,
and how far the tick's future is driven. -/
structure TickInput (V : Type) where
  clock : Nat
  settled : Except BotError Unit
  quiet : Nat → Bool
  poll : Nat → Except BotError (Option V)
  check : WorkId → V → Except BotError Bool
  answer : WorkId → Except BotError Unit
  patience : Option Nat

inductive TickResult where
  | fired (count : Nat)
  | failed (error : BotError)
  | pending (work : PendingWork) (outstanding : Nat)
  deriving DecidableEq, Repr

inductive StepEnd where
  | goOn (fired : Nat)
  | stop (failure : Option BotError)
  deriving DecidableEq, Repr

def maxInFlightPolls : Nat := 32

namespace EcsBot

variable {V J : Type} [EffectJournal J]

def reading (bot : EcsBot V J) : RetryReading := ⟨bot.policy, bot.now⟩

def note (bot : EcsBot V J) (happening : Happening J) : EcsBot V J :=
  { bot with history := bot.history ++ [happening] }

def onLedger {ε α : Type} (call : Call (Ledger V J) ε α) : Call (EcsBot V J) ε α :=
  Call.within EcsBot.ledger (fun bot ledger => { bot with ledger := ledger }) call

def entryAt (bot : EcsBot V J) (work : WorkId) : Option ChainEntry :=
  (bot.chains[work.chain]?).bind fun chain => chain.entries[work.entry]?

def write (bot : EcsBot V J) (work : WorkId) (f : Ledger V J → Ledger V J) : EcsBot V J :=
  match (f bot.ledger).entryState work with
  | some state =>
    if bot.ledger.entryState work = some state then { bot with ledger := f bot.ledger }
    else ({ bot with ledger := f bot.ledger }).note (.wrote work state)
  | none => { bot with ledger := f bot.ledger }

def dueIn (input : TickInput V) (woken : List Bool) (bot : EcsBot V J) :
    List Nat → List Nat × EcsBot V J
  | [] => ([], bot)
  | chain :: rest =>
    let asked := bot.cadences.pollDue chain bot.now woken
    let bot := { bot with cadences := asked.2 }
    if asked.1 && !input.quiet chain then
      let others := dueIn input woken (bot.note (.polled chain)) rest
      (chain :: others.1, others.2)
    else dueIn input woken bot rest

def pollWaves (input : TickInput V) (woken : List Bool) :
    List (List Nat) → Call (Polled (EcsBot V J)) Dropped (List Nat)
  | [] => pure []
  | wave :: rest => do
      let polled ← Polled.now fun bot => dueIn input woken bot wave
      if polled.isEmpty then pollWaves input woken rest
      else
        Polled.awaitNow fun bot => ((), bot)
        let others ← pollWaves input woken rest
        pure (polled ++ others)

def waves (width : Nat) (chains : List Nat) : List (List Nat) := chains.toChunks width

def pollSources (input : TickInput V) : Call (Polled (EcsBot V J)) Dropped (List Nat) := do
  let woken ← Polled.now fun bot =>
    (bot.cadences.takeWakes.1, { bot with cadences := bot.cadences.takeWakes.2 })
  let count ← Polled.now fun bot => (bot.chains.length, bot)
  pollWaves input woken (waves maxInFlightPolls (List.range count))

/-- A poll the deadline cancelled, rather than one the source refused. -/
def isStall : BotError → Bool
  | .pollStalled _ => true
  | _ => false

/-- The first poll that was cancelled, else the first that failed, in declaration order. -/
def pollError (input : TickInput V) (polled : List Nat) : Option BotError :=
  let errors := polled.filterMap fun chain =>
    match input.poll chain with
    | .error error => some (chain, error)
    | .ok _ => none
  match errors.find? fun row => isStall row.2 with
  | some (chain, _) => some (.pollStalled chain)
  | none => errors.head?.map Prod.snd

def moved (input : TickInput V) (polled : List Nat) (chain : Nat) : Option V :=
  if chain ∈ polled then
    match input.poll chain with
    | .ok value => value
    | .error _ => none
  else none

def commit (input : TickInput V) (polled : List Nat) (bot : EcsBot V J) : EcsBot V J :=
  { bot with
    observed := bot.observed.mapIdx fun chain slot => (moved input polled chain).or slot
    revisions := bot.revisions.mapIdx fun chain revision =>
      if (moved input polled chain).isSome then (revision + 1) % 2 ^ 64 else revision }

def admits (chain : EcsChain V) (slot bound : Option V) : Bool :=
  match slot, bound with
  | none, _ => false
  | some _, none => true
  | some next, some bound => !chain.same bound next

inductive AdmitKind where
  | keep
  | resume
  | open
  | idle
  deriving DecidableEq, Repr

/-- What a chain does about its newest observation.  The first run's filter also reports
chains that were only spawned; their slots are empty, so none of them opens. -/
def admitKind (bot : EcsBot V J) (chain : EcsChain V) (index : Nat) (moving : Bool) : AdmitKind :=
  let slot := (bot.observed[index]?).join
  match bot.ledger.transition index with
  | some transition =>
    if transition.hasOpen then .keep
    else if admits chain slot transition.value then .resume else .keep
  | none => if moving && slot.isSome then .open else .idle

def admittedInput [Hashing] (bot : EcsBot V J) (chain : EcsChain V) (index : Nat) :
    AdmittedInput × EcsBot V J :=
  match (bot.observed[index]?).join with
  | some value => (chain.identify value, bot)
  | none => (⟨bot.ledger.mintInput.1, false⟩, { bot with ledger := bot.ledger.mintInput.2 })

def takeObserved (bot : EcsBot V J) (index : Nat) : Option V × EcsBot V J :=
  ((bot.observed[index]?).join, { bot with observed := bot.observed.set index none })

/-- The transition a chain walks this tick, bound to what it took out of the slot. -/
def resume [Hashing] (bot : EcsBot V J) (chain : EcsChain V) (index : Nat) (kind : AdmitKind) :
    Option (Transition V) × EcsBot V J :=
  let revision := (bot.revisions[index]?).getD 0
  match kind, bot.ledger.transition index with
  | .resume, some held =>
    let admitted := bot.admittedInput chain index
    let taken := admitted.2.takeObserved index
    (some (.resumed admitted.1 revision held taken.1), taken.2.note (.resumed index))
  | .open, none =>
    let admitted := bot.admittedInput chain index
    let taken := admitted.2.takeObserved index
    (some (.opened admitted.1 revision chain.entries.length taken.1),
      taken.2.note (.opened index))
  | .idle, _ => (none, bot)
  | _, held => (held, bot)

def decided (check : WorkId → V → Except BotError Bool) (work : WorkId) (value : V)
    (others : List Step × Option BotError) : List Step × Option BotError :=
  match check work value with
  | .error error => ([], some error)
  | .ok holds =>
    (⟨work.chain, work.entry, if holds then .attempt else .skip⟩ :: others.1, others.2)

def planChain (check : WorkId → V → Except BotError Bool) (ledger : Ledger V J)
    (retry : RetryReading) (transition : Transition V) (value : V) (chain : Nat) :
    Nat → List ChainEntry → List Step × Option BotError
  | _, [] => ([], none)
  | entry, _ :: rest =>
    let walked := decided check ⟨chain, entry⟩ value
      (planChain check ledger retry transition value chain (entry + 1) rest)
    match transition.entries[entry]? with
    | none => planChain check ledger retry transition value chain (entry + 1) rest
    | some state =>
      if (ledger.actionOf ⟨chain, entry⟩).any ledger.effects.blocks then ([], none)
      else
        match state with
        | .succeeded | .skipped =>
          planChain check ledger retry transition value chain (entry + 1) rest
        | .abandoned _ _ | .unrecorded | .outcomeUnknown _ _ => ([], none)
        | .definitelyFailed _ _ _ =>
          if transition.retryAdmission entry retry = some .wait then ([], none) else walked
        | .notStarted | .recordingFailed _ _ _ _ => walked

def walkOf (check : WorkId → V → Except BotError Bool) (ledger : Ledger V J)
    (retry : RetryReading) (transition : Transition V) (index : Nat) (chain : EcsChain V) :
    List Step × Option BotError :=
  match transition.value with
  | some value => planChain check ledger retry transition value index 0 chain.entries
  | none => ([], none)

/-- Keep a transition that has work or a fact to report; hand the value of another back. -/
def place (bot : EcsBot V J) (index : Nat) (transition : Transition V) : EcsBot V J :=
  if transition.isRetained then { bot with ledger := bot.ledger.put index (some transition) }
  else
    { bot with
      ledger := bot.ledger.put index none
      observed := bot.observed.modify index fun slot => slot.or transition.value }

/-- Decide one chain: bind its transition, walk it, and keep it or hand its value back. -/
def fireChain [Hashing] (input : TickInput V) (moving : Bool) (bot : EcsBot V J) (index : Nat)
    (chain : EcsChain V) : ChainPlan × EcsBot V J :=
  let resumed := bot.resume chain index (bot.admitKind chain index moving)
  match resumed.1 with
  | none => (⟨index, [], none⟩, resumed.2)
  | some transition =>
    let walked := walkOf input.check bot.ledger bot.reading transition index chain
    (⟨index, walked.1, walked.2⟩, resumed.2.place index transition)

def firePlan [Hashing] (input : TickInput V) (polled : List Nat) (bot : EcsBot V J) :
    Nat → List (EcsChain V) → List ChainPlan × EcsBot V J
  | _, [] => ([], bot)
  | index, chain :: rest =>
    let row := bot.fireChain input (moved input polled index).isSome index chain
    let others := row.2.firePlan input polled (index + 1) rest
    (row.1 :: others.1, others.2)

def retryRecording (retry : RetryReading) (work : WorkId) (key : EffectKey)
    (evidence : EffectEvidence) (attempts : Nat) : Call (Polled (EcsBot V J)) Dropped StepEnd := do
  Polled.now fun bot => ((), bot.note (.retriedAppend work key))
  match ← Polled.caught (Polled.sync (onLedger (Ledger.onEffects
      (Effects.ensureOutcome key evidence)))) with
  | .ok _ =>
    Polled.now fun bot =>
      (.goOn (if evidence = .applied then 1 else 0),
        bot.write work fun ledger => ledger.finishRecording work evidence attempts retry)
  | .error cause =>
    let error := BotError.effectUnrecorded key evidence (.journal cause)
    Polled.now fun bot =>
      (.stop (some error), bot.write work fun ledger => ledger.holdRecording work evidence error)

def recordObserved (key : EffectKey) (outcome : Except BotError Unit) :
    Call (Polled (EcsBot V J)) Dropped (Except BotError Unit) :=
  match observedOf outcome with
  | none => pure (.ok ())
  | some evidence =>
    Polled.caught (Polled.rename
      (fun cause => BotError.effectUnrecorded key evidence (.journal cause))
      (Polled.sync (onLedger (Ledger.onEffects (Effects.ensureOutcome key evidence)))))

def recordAnswer (retry : RetryReading) (work : WorkId) (key : EffectKey)
    (outcome : Except BotError Unit) : Call (Polled (EcsBot V J)) Dropped StepEnd := do
  let recorded ← recordObserved key outcome
  match recorded, outcome with
  | .error error, _ =>
    Polled.now fun bot =>
      (.stop (some error), bot.write work fun ledger => ledger.fail work error key.attempt retry)
  | .ok _, .ok _ =>
    Polled.now fun bot =>
      (.goOn (if bot.ledger.entryState work = some .unrecorded then 1 else 0),
        bot.write work fun ledger => ledger.succeed work)
  | .ok _, .error error =>
    Polled.now fun bot =>
      (.stop (some error), bot.write work fun ledger => ledger.fail work error key.attempt retry)

def enter (input : TickInput V) (retry : RetryReading) (work : WorkId) (key : EffectKey) :
    Call (Polled (EcsBot V J)) Dropped StepEnd := do
  let bot ← Polled.now fun bot => (bot, bot)
  match bot.entryAt work, bot.ledger.bound work.chain with
  | some _, some _ => do
      let outcome ← Polled.awaitNow fun bot =>
        (input.answer work, bot.note (.invoked work key bot.ledger.effects.journal))
      recordAnswer retry work key outcome
  | _, _ => pure (.stop none)

def handOver (input : TickInput V) (retry : RetryReading) (work : WorkId) (key : EffectKey)
    (authority : Authority) : Call (Polled (EcsBot V J)) Dropped StepEnd := do
  match ← Polled.now fun bot =>
      (bot.ledger.effects.scope.broker.revalidate authority, bot) with
  | .error cause =>
    let error := BotError.effectRefused (.broker cause)
    Polled.now fun bot =>
      (.stop (some error),
        bot.write work fun ledger => ledger.fail work error key.attempt retry)
  | .ok _ => enter input retry work key

def attemptStep [Hashing] (input : TickInput V) (retry : RetryReading) (work : WorkId) :
    Call (Polled (EcsBot V J)) Dropped StepEnd := do
  let before ← Polled.now fun bot => (bot, bot.note (.attempted work))
  let lifetime := (before.entryAt work).elim EffectLifetime.external ChainEntry.lifetime
  match ← Polled.caught (Polled.within EcsBot.ledger
      (fun bot ledger => { bot with ledger := ledger })
      (Ledger.beginAttempt work lifetime retry)) with
  | .error error => pure (.stop (some error))
  | .ok (key, authority) => do
      Polled.now fun bot => ((), bot.note (.begun work key (before.ledger.heldAttempt work)))
      handOver input retry work key authority

def retired [Hashing] (bot : EcsBot V J) (step : Step) : Bool :=
  match bot.ledger.actionOf step.work, bot.ledger.generation step.chain with
  | some action, some (input, event) =>
    bot.ledger.effects.appliedIn action step.chain step.entry input event
  | _, _ => false

def runStep [Hashing] (input : TickInput V) (retry : RetryReading) (step : Step) :
    Call (Polled (EcsBot V J)) Dropped StepEnd := do
  let bot ← Polled.now fun bot => (bot, bot)
  let blocked := (bot.ledger.actionOf step.work).any bot.ledger.effects.blocks
  match step.decision with
  | .skip =>
    -- A recovered unknown outranks a false condition: the chain stops at it.
    if blocked then pure (.stop none)
    else Polled.now fun bot => (.goOn 0, bot.write step.work fun ledger => ledger.skip step.work)
  | .attempt =>
    match bot.ledger.recordingFailed step.work with
    | some (key, evidence, attempts) => retryRecording retry step.work key evidence attempts
    | none =>
      if bot.retired step then
        Polled.now fun bot =>
          (.goOn 0, bot.write step.work fun ledger => ledger.skip step.work)
      else if blocked then pure (.stop none)
      else if (bot.ledger.expireRetry step.work retry).1 then
        Polled.now fun bot =>
          (.stop none,
            bot.write step.work fun ledger => (ledger.expireRetry step.work retry).2)
      else attemptStep input retry step.work

def runChain [Hashing] (input : TickInput V) (retry : RetryReading) :
    List Step → Call (Polled (EcsBot V J)) Dropped (Nat × Option BotError)
  | [] => pure (0, none)
  | step :: rest => do
      match ← runStep input retry step with
      | .stop failure => pure (0, failure)
      | .goOn fired => do
          let others ← runChain input retry rest
          pure (fired + others.1, others.2)

def runSteps [Hashing] (input : TickInput V) (retry : RetryReading) :
    List ChainPlan → Call (Polled (EcsBot V J)) Dropped (Nat × Option BotError)
  | [] => pure (0, none)
  | row :: rest => do
      let own ← runChain input retry row.steps
      let others ← runSteps input retry rest
      pure (own.1 + others.1, (own.2.or row.failure).or others.2)

def pending [Hashing] (bot : EcsBot V J) : List PendingWork :=
  bot.ledger.unresolved bot.reading.budget

def report [Hashing] (bot : EcsBot V J) (error : Option BotError) (fired : Nat) : TickResult :=
  match error with
  | some error => .failed error
  | none =>
    match bot.pending with
    | work :: _ => .pending work bot.pending.length
    | [] => .fired fired

def act [Hashing] (input : TickInput V) (polled : List Nat) (stalled : Option BotError) :
    Call (Polled (EcsBot V J)) Dropped TickResult := do
  let plan ← Polled.now fun bot =>
    (commit input polled bot).firePlan input polled 0 bot.chains
  let retry ← Polled.now fun bot => (bot.reading, bot)
  let ran ← runSteps input retry plan
  Polled.now fun bot => (bot.report (ran.2.or stalled) ran.1, bot)

def tick [Hashing] (input : TickInput V) : Call (Polled (EcsBot V J)) Dropped TickResult := do
  Polled.now fun bot => ((), { bot with now := input.clock })
  match input.settled with
  | .error error => pure (.failed error)
  | .ok _ => do
      let polled ← pollSources input
      match pollError input polled with
      | none => act input polled none
      | some error =>
        if isStall error then act input polled (some error) else pure (.failed error)

def ticked [Hashing] (bot : EcsBot V J) (input : TickInput V) : EcsBot V J :=
  (tick input ⟨input.patience, bot⟩).2.state

def settled (bot : EcsBot V J) (key : EffectKey) (evidence : EffectEvidence) : EcsBot V J :=
  match bot.ledger.locate key.action with
  | none => bot
  | some work =>
    ({ bot with ledger := bot.ledger.applySettlement key evidence }).note
      (.settled work key evidence)

def resolveEffect [Hashing] (key : EffectKey) (evidence : EffectEvidence) :
    Call (EcsBot V J) BotError Unit := do
  let bot ← Call.read id
  if bot.ledger.effects.unsettledFor key.action = some key then
    Call.mapRefusal (fun cause => .effectRefused (.journal cause))
      (onLedger (Ledger.onEffects (Effects.settleRecovered key evidence)))
  else if (bot.ledger.effects.recordingFor key.action).any fun held =>
      held.key = key ∧ held.evidence = evidence then
    Call.mapRefusal (fun cause => .effectUnrecorded key evidence (.journal cause))
      (onLedger (Ledger.onEffects (Effects.settleRecording key evidence)))
  else do
    match ← Call.mapRefusal (fun cause => BotError.effectRefused (.journal cause))
        (onLedger (Ledger.classifySettlement key evidence)) with
    | .decided => do
        Call.mapRefusal (fun cause => .effectUnrecorded key evidence (.journal cause))
          (onLedger (Ledger.onEffects (Effects.ensureOutcome key evidence)))
        Call.change fun bot => bot.settled key evidence
    | .duplicate =>
      Call.mapRefusal (fun cause => .effectUnrecorded key evidence (.journal cause))
        (onLedger (Ledger.onEffects (Effects.ensureOutcome key evidence)))
    | .superseded work current => Call.refuse (.evidenceSuperseded work key.digest current)
    | .staleAttempt work reported outstanding =>
      Call.refuse (.evidenceStaleAttempt work reported outstanding)
    | .contradicted work settled => Call.refuse (.evidenceContradicted work settled evidence)
    | .noSuchWork (some work) => Call.refuse (.noSuchWork work)
    | .noSuchWork none => Call.refuse (.actionNotDeclared key.action)

end EcsBot

inductive NextTick where
  | now
  | after (span : Nat)
  | idle
  deriving DecidableEq, Repr

def EcsBot.nextTick {V J : Type} [EffectJournal J] (bot : EcsBot V J) (clock : Nat) : NextTick :=
  if bot.cadences.any then .now
  else
    let retry := (bot.ledger.nextRetry clock).map nanos
    let deadline :=
      match bot.cadences.earliest, retry with
      | some every, some retry => some (min every retry)
      | every, retry => every.or retry
    match deadline with
    | none => .idle
    | some due => if due ≤ nanos clock then .now else .after (due - nanos clock)

end LogicalWorks.Ecs
