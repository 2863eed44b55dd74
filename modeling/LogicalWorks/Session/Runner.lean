import LogicalWorks.Session.Validate
import LogicalWorks.Lib.Fallible

/-! The runner: a cursor over a validated flow, what it records on the way and what it charges. -/
namespace LogicalWorks.Session.Runner

structure TranscriptEntry where
  pathNode : Text
  role : Text
  text : Text
  deriving DecidableEq, Repr

inductive ReceiptAcceptance where
  | inMemory
  | durable
  deriving DecidableEq, Repr

structure DecisionReceipt where
  version : Nat
  session : Text
  flow : Text
  node : Text
  options : Text
  resolution : Resolution
  provenance : Provenance
  selected : Option Text
  route : Option Text
  deriving DecidableEq, Repr

structure RecordedDecision where
  receipt : DecisionReceipt
  acceptance : ReceiptAcceptance
  deriving DecidableEq, Repr

def receiptVersion : Nat := 1

/-- The components a session is given, over the states of its resolver and its journal: a resolver
judges an utterance, and a journal hears of records and takes receipts or refuses them. -/
structure Seams (R J : Type) where
  resolve : R → Text → Question → Verdict × R
  record : J → Text → Text → Text → J
  recordDecision : J → DecisionReceipt → Except JournalError ReceiptAcceptance × J
  optionsRevision : List Text → Text
  revisionOf : FlowSpec → Except BotError Text

structure Session (R J : Type) where
  id : Text
  flow : FlowSpec
  flowRevision : Text
  current : Option Text
  scope : VarScope
  visited : List Text
  transcript : List TranscriptEntry
  resolver : R
  journal : J
  decisions : List RecordedDecision
  terminal : Option Terminal
  steps : Nat
  lastUtterance : Option Text
  limits : ResourceLimits
  retained : Nat

/-- An answer under judgement: the ask it answers, the verdict on it, and the words said. -/
structure Turn where
  node : Text
  var : Text
  options : List Text
  routes : Table Text Text
  verdict : Verdict
  utterance : Text

/-- The machine's addition that stops at the largest count. -/
def saturatingAdd (left right : Nat) : Nat := min (left + right) usizeMax

def saturatingMul (left right : Nat) : Nat := min (left * right) usizeMax

def promptPrefix : Text := "Choose one: ".toList

def promptSeparator : Text := ", ".toList

def join (separator : Text) : List Text → Text
  | [] => []
  | [text] => text
  | text :: next :: rest => text ++ separator ++ join separator (next :: rest)

def prompt (options : List Text) : Text := promptPrefix ++ join promptSeparator options

def promptBytes (options : List Text) : Nat :=
  saturatingAdd
    (options.foldl (fun total option => saturatingAdd total (bytes option)) (bytes promptPrefix))
    (saturatingMul (options.length - 1) (bytes promptSeparator))

def degradedText : DegradedReason → Text
  | .embedderUnavailable => "the embedder is unavailable".toList
  | .unmeasurableEmbedding => "an embedding could not be measured".toList

/-- The options still in play after a tie, or all of them when that leaves nothing to choose. -/
def narrowedAsk (options : List Text) (tied : List Nat) : List Text :=
  let narrowed := tied.filterMap fun candidate => options[candidate]?
  if 2 ≤ narrowed.length then narrowed else options

abbrev Action (R J α : Type) := EStateM BotError (Session R J) α

variable {R J : Type} (seams : Seams R J)

def chargeStep : Action R J Unit := do
  let session ← get
  match checkedAdd session.steps 1 with
  | none => throw (.sessionBudgetExceeded usizeMax session.flow.bounds.budget)
  | some attempted =>
    if session.flow.bounds.budget < attempted then
      throw (.sessionBudgetExceeded attempted session.flow.bounds.budget)
    else set { session with steps := attempted }

def chargeRetention (amount : Nat) : Action R J Unit := do
  let session ← get
  let limit := session.limits.get .session
  match checkedAdd session.retained amount with
  | none => throw (.sessionRetentionExceeded usizeMax limit)
  | some total =>
    if limit < total then throw (.sessionRetentionExceeded total limit)
    else set { session with retained := total }

def record (node role text : Text) : Action R J Unit := do
  let session ← get
  let limit := session.limits.get .record
  if limit < bytes text then throw (.recordTooLarge node (bytes text) limit)
  else do
    chargeRetention (saturatingAdd (saturatingAdd (bytes text) (bytes node)) (bytes role))
    modify fun session =>
      { session with
        journal := seams.record session.journal node role text
        transcript := session.transcript ++ [⟨node, role, text⟩] }

def recordPrompt (node : Text) (options : List Text) : Action R J Unit := do
  let session ← get
  let limit := session.limits.get .record
  if limit < promptBytes options then throw (.recordTooLarge node (promptBytes options) limit)
  else record seams node "assistant".toList (prompt options)

def recordDegraded (node : Text) (reason : DegradedReason) : Action R J Unit :=
  record seams node "resolver-degraded".toList
    ("Resolver unavailable: ".toList ++ degradedText reason)

def recordStaleAlias (node question option : Text) : Action R J Unit :=
  record seams node "resolver-stale-alias".toList
    ("Superseded alias: question ".toList ++ question ++ " no longer offers \"".toList ++ option ++
      "\"".toList)

def render (node template : Text) : Action R J Text := do
  let session ← get
  MonadExcept.ofExcept (interpolate template session.scope node (session.limits.get .record))

def speak (node text : Text) : Action R J Unit := do
  let rendered ← render node text
  record seams node "assistant".toList rendered

def finish (node : Text) : Action R J Unit := do
  let session ← get
  match session.flow.effectiveTerminal node with
  | none => throw (.malformedFlow (.noTerminalOutcome node))
  | some outcome => set { session with terminal := some outcome, current := none }

def speakThenFollow (node text : Text) : Action R J Unit := do
  speak seams node text
  let session ← get
  match (session.flow.edgeTargets node).head? with
  | none => throw (.missingTransition node)
  | some target => set { session with current := some target }

def takeBranch (when : Predicate) (then_ otherwise : Text) : Action R J Unit := do
  let session ← get
  let holds ← MonadExcept.ofExcept (evaluate session.scope when)
  set { session with current := some (if holds then then_ else otherwise) }

def refer (node text : Text) : Action R J Unit := do
  speak seams node text
  finish node

def takeRoute (dispatch fallback : Text) : Action R J Unit :=
  modify fun session =>
    { session with
      current := some (if session.lastUtterance.isSome then dispatch else fallback) }

def step (node : Text) : NodeKind → Action R J Bool
  | .say text => do
      speakThenFollow seams node text
      return false
  | .ask _ options _ => do
      recordPrompt seams node options
      return true
  | .branch _ when then_ otherwise => do
      takeBranch when then_ otherwise
      return false
  | .handoff _ | .end_ => do
      finish node
      return false
  | .refer _ text => do
      refer seams node text
      return false
  | .route dispatch fallback => do
      takeRoute dispatch fallback
      return false

def visit (node : Text) : Action R J Bool := do
  chargeStep
  chargeRetention (bytes node)
  modify fun session => { session with visited := session.visited ++ [node] }
  let session ← get
  match session.flow.node node with
  | none => throw (.invalidTransitionTarget "<session>".toList node)
  | some kind => step seams node kind

def driveFor : Nat → Action R J Bool
  | 0 => return false
  | rounds + 1 => do
      let session ← get
      match session.current with
      | none => return true
      | some node => do
          let waits ← visit seams node
          if waits then return true else driveFor rounds

/-- Advance until an answer is needed or an outcome reached. Every round charges a step, so that
the budget bounds them. -/
def drive : Action R J Unit := do
  let session ← get
  let _ ← driveFor seams (session.flow.bounds.budget + 1)
  return ()

def receiptOf (session : Session R J) (turn : Turn) (selected route : Option Text) :
    DecisionReceipt where
  version := receiptVersion
  session := session.id
  flow := session.flowRevision
  node := turn.node
  options := seams.optionsRevision turn.options
  resolution := turn.verdict.resolution
  provenance := turn.verdict.provenance
  selected := selected
  route := route

def writeReceipt (turn : Turn) (selected route : Option Text) : Action R J Unit := do
  let session ← get
  let receipt := receiptOf seams session turn selected route
  let (taken, journal) := seams.recordDecision session.journal receipt
  match taken with
  | .error cause => do
      set { session with journal := journal }
      throw (.receiptNotRecorded turn.node cause)
  | .ok acceptance =>
    set { session with
      journal := journal
      decisions := session.decisions ++ [RecordedDecision.mk receipt acceptance] }

def receiptAndRecord (turn : Turn) : Action R J Unit := do
  writeReceipt seams turn none none
  record seams turn.node "user".toList turn.utterance

def bindAnswer (turn : Turn) (option : Text) : Action R J Unit := do
  let session ← get
  let scope ← MonadExcept.ofExcept
    (session.scope.setFromAnswerWithin turn.var option (session.limits.get .value))
  set { session with scope := scope, lastUtterance := some turn.utterance }

def acceptResolved (turn : Turn) (index : Nat) : Action R J Unit :=
  match turn.options[index]? with
  | none => throw (.resolverReturnedInvalidOption turn.node)
  | some option =>
    match turn.routes.get option with
    | none => throw (.missingAskRoute turn.node option)
    | some target => do
        writeReceipt seams turn (some option) (some target)
        bindAnswer turn option
        record seams turn.node "user".toList turn.utterance
        modify fun session => { session with current := some target }
        drive seams

def reask (turn : Turn) (ask : List Text) : Action R J Unit := do
  receiptAndRecord seams turn
  recordPrompt seams turn.node ask

def applyResolution (turn : Turn) : Resolution → Action R J Unit
  | .resolved index _ _ _ => acceptResolved seams turn index
  | .ambiguous tied _ _ => reask seams turn (narrowedAsk turn.options tied)
  | .absent _ => reask seams turn turn.options
  | .staleAlias question option => do
      recordStaleAlias seams turn.node question option
      reask seams turn turn.options
  | .degraded reason => do
      recordDegraded seams turn.node reason
      reask seams turn turn.options

def judged (utterance : Text) (question : Question) : Action R J Verdict := do
  let session ← get
  let (verdict, resolver) := seams.resolve session.resolver utterance question
  set { session with resolver := resolver }
  return verdict

def answer (utterance : Text) : Action R J Unit := do
  let session ← get
  if session.terminal.isSome then throw .sessionTerminated
  else
    match session.current with
    | none => throw .sessionNotAwaitingAnswer
    | some node =>
      match session.flow.node node with
      | some (.ask var options routes) =>
        let limit := session.limits.get .utterance
        if limit < bytes utterance then throw (.utteranceTooLarge (bytes utterance) limit)
        else do
          chargeStep
          let verdict ← judged seams utterance ⟨node, options, session.scope.answerDomain var⟩
          applyResolution seams ⟨node, var, options, routes, verdict, utterance⟩
            verdict.resolution
      | _ => throw .sessionNotAwaitingAnswer

def after {α : Type} : EStateM.Result BotError (Session R J) α → Session R J
  | .ok _ session | .error _ session => session

def fresh (id : Text) (flow : FlowSpec) (revision : Text) (scope : VarScope) (resolver : R)
    (journal : J) (limits : ResourceLimits) : Session R J where
  id := id
  flow := flow
  flowRevision := revision
  current := some flow.entry
  scope := scope
  visited := []
  transcript := []
  resolver := resolver
  journal := journal
  decisions := []
  terminal := none
  steps := 0
  lastUtterance := none
  limits := limits
  retained := 0

def withComponentsAndLimits (unicode : Unicode) (id : Text) (flow : FlowSpec) (resolver : R)
    (journal : J) (limits : ResourceLimits) : Except BotError (Session R J) := do
  let operator ← limits.withinCeiling
  let requested ← flow.bounds.effectiveResources.withinCeiling
  let effective := operator.narrowed requested
  validateFlowWithin unicode flow effective
  let scope ← VarScope.new flow.vars
  let revision ← seams.revisionOf flow
  match drive seams (fresh id flow revision scope resolver journal effective) with
  | .ok _ session => .ok session
  | .error failure _ => .error failure

end LogicalWorks.Session.Runner
