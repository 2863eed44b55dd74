import LogicalWorks.Graph.Plan
import LogicalWorks.Lib.Run

/-! The scheduler of a graph: what waits, what is ready, what runs and what came of each node,
driven by one future beside the wakes of its bodies. -/
namespace LogicalWorks.Graph

variable {ε T : Type}

inductive NodeOutcome (ε T : Type) where
  | ran (answer : Except ε T)
  | blocked (needs : List String)

namespace NodeOutcome

def isOk : NodeOutcome ε T → Bool
  | ran (.ok _) => true
  | _ => false

def isBlocked : NodeOutcome ε T → Bool
  | blocked _ => true
  | ran _ => false

def keepsBelow : NodeOutcome ε T → Bool
  | ran (.ok _) => false
  | _ => true

end NodeOutcome

/-- One outcome for each node in declaration order, and the nodes started together at each
scheduling point. -/
structure GraphReport (ε T : Type) where
  outcomes : List (String × NodeOutcome ε T)
  schedule : List (List String)

structure Running where
  index : Nat
  scope : Scope
  deriving DecidableEq, Repr

/-- Which slots have been woken, and whether each is already in the queue. -/
structure Wakes where
  ready : List Nat
  queued : Index Nat Bool

namespace Wakes

def new (width : Nat) : Wakes := ⟨[], fun position => if position < width then some false else none⟩

def enqueue (wakes : Wakes) (position : Nat) : Wakes :=
  match wakes.queued.get position with
  | some false => ⟨wakes.ready ++ [position], wakes.queued.insert position true⟩
  | _ => wakes

def unqueue (queued : Index Nat Bool) (position : Nat) : Index Nat Bool :=
  match queued.get position with
  | some _ => queued.insert position false
  | none => queued

def takeReady (wakes : Wakes) : Wakes := ⟨[], wakes.ready.foldl unqueue wakes.queued⟩

end Wakes

def TallerFirst (first second : Nat × Nat) : Prop :=
  second.1 < first.1 ∨ first.1 = second.1 ∧ first.2 ≤ second.2

instance : DecidableRel TallerFirst := fun _ _ => inferInstanceAs (Decidable (_ ∨ _))

def insertReady (ready : List (Nat × Nat)) (entry : Nat × Nat) : List (Nat × Nat) :=
  if entry ∈ ready then ready else ready.orderedInsert TallerFirst entry

structure Scheduler (ε T : Type) where
  plan : Plan
  nodes : Index Nat GraphNode
  unmet : Index Nat Nat
  ready : List (Nat × Nat)
  outcomes : Index Nat (NodeOutcome ε T)
  width : Nat
  slots : Index Nat Running
  free : List Nat
  schedule : List (List String)

namespace Scheduler

def addRoot (plan : Plan) (ready : List (Nat × Nat)) (at_ : Nat) : List (Nat × Nat) :=
  match plan.height.get at_ with
  | some height => if (plan.needsOf at_).length = 0 then insertReady ready (height, at_) else ready
  | none => ready

def new (plan : Plan) (nodes : List GraphNode) (width : Nat) : Scheduler ε T where
  plan := plan
  nodes := fun at_ => nodes[at_]?
  unmet := fun at_ => (plan.needs[at_]?).map List.length
  ready := (List.range plan.needs.length).foldl (addRoot plan) []
  outcomes := .empty
  width := width
  slots := .empty
  free := List.range width
  schedule := []

/-- Whether a node has neither started nor come to anything. -/
def isOpen (run : Scheduler ε T) (at_ : Nat) : Bool :=
  (run.outcomes.get at_).isNone && (run.nodes.get at_).isSome

def record (run : Scheduler ε T) (at_ : Nat) (outcome : NodeOutcome ε T) : Scheduler ε T :=
  { run with outcomes := run.outcomes.insert at_ outcome }

def running (run : Scheduler ε T) : Nat := run.width - run.free.length

def clear (run : Scheduler ε T) : Scheduler ε T := { run with slots := .empty, ready := [] }

def release (run : Scheduler ε T) (next : Nat) : Scheduler ε T :=
  match run.unmet.get next with
  | none => run
  | some count =>
    { run with
      unmet := run.unmet.insert next (count - 1)
      ready :=
        match run.plan.height.get next with
        | some height =>
          if count - 1 = 0 ∧ run.isOpen next then insertReady run.ready (height, next)
          else run.ready
        | none => run.ready }

def keptBy (run : Scheduler ε T) (at_ : Nat) : List String :=
  (((run.plan.needsOf at_).filter fun need =>
    (run.outcomes.get need).any NodeOutcome.keepsBelow).filterMap
      (run.plan.names[·]?)).insertionSort (· ≤ ·)

def blockOne (run : Scheduler ε T) (at_ : Nat) : Scheduler ε T :=
  { run with nodes := run.nodes.erase at_ }.record at_ (.blocked (run.keptBy at_))

def blockStack : Nat → List Nat → Scheduler ε T → Scheduler ε T
  | 0, _, run => run
  | _, [], run => run
  | fuel + 1, at_ :: stack, run =>
    if run.isOpen at_ then
      blockStack fuel ((run.plan.below at_).reverse ++ stack) (run.blockOne at_)
    else blockStack fuel stack run

def edges (run : Scheduler ε T) : Nat :=
  ((List.range run.plan.names.length).map fun at_ => (run.plan.below at_).length).sum

/-- Block `first` and everything below it; each node is pushed once for every need it has. -/
def block (run : Scheduler ε T) (first : Nat) : Scheduler ε T :=
  blockStack (run.edges + 1) [first] run

/-- Record a node's answer, then ready each dependant whose needs have all succeeded, or block
every dependant when it failed. -/
def finish (run : Scheduler ε T) (index : Nat) (outcome : Except ε T) : Scheduler ε T :=
  let recorded := run.record index (.ran outcome)
  match outcome with
  | .ok _ => (run.plan.below index).foldl release recorded
  | .error _ => (run.plan.below index).foldl block recorded

def point (run : Scheduler ε T) (started : List String) : Scheduler ε T :=
  { run with schedule := if started.isEmpty then run.schedule else run.schedule ++ [started] }

def vacate (run : Scheduler ε T) (position : Nat) : Scheduler ε T :=
  { run with slots := run.slots.erase position, free := position :: run.free }

def pollSlot (run : Scheduler ε T) (position : Nat) (answer : Option (Except ε T)) :
    Scheduler ε T :=
  match run.slots.get position, answer with
  | some running, some outcome => (run.vacate position).finish running.index outcome
  | _, _ => run

def reportOne (run : Scheduler ε T) (entry : String × Nat) :
    Except FlowError (String × NodeOutcome ε T) :=
  match run.outcomes.get entry.2 with
  | none => .error (.graph s!"{entry.1} has no outcome")
  | some outcome => .ok (entry.1, outcome)

def report (run : Scheduler ε T) : Except FlowError (GraphReport ε T) := do
  let outcomes ← run.plan.names.zipIdx.mapM run.reportOne
  return ⟨outcomes, run.schedule⟩

end Scheduler

/-- Where the future that drives the graph stands: not being polled; starting nodes, so many
bodies polled and these started since the last point; polling the slots it took from the queue;
or done. -/
inductive Phase (ε T : Type) where
  | parked
  | starting (polled : Nat) (started : List String)
  | polling (rest : List Nat) (polled : Nat)
  | done (answer : Except FlowError (GraphReport ε T))

/-- A call of `run_graph`: the scope it entered, the scheduler, the queue of woken slots, whether
its task was woken since it last was polled.  Beside these, the nodes whose bodies were made, and
the slots started or woken since their bodies last were polled. -/
structure Call (ε T : Type) where
  here : Scope
  run : Scheduler ε T
  wakes : Wakes
  phase : Phase ε T
  notified : Bool
  started : List Nat
  unheard : List Nat

inductive Turn (ε T : Type) where
  /-- The waker of a slot is called. -/
  | wake (position : Nat)
  /-- The task is woken by something else. -/
  | nudge
  /-- The executor polls the task. -/
  | resume
  /-- One turn of the loop that starts nodes, the last of them taking what was woken. -/
  | start
  /-- The first slot taken from the queue is polled. -/
  | poll (answer : Option (Except ε T))

namespace Call

def next (call : Call ε T) : Option (Nat × Nat) :=
  match call.phase, call.run.free, call.run.ready with
  | .starting _ _, position :: _, (_, index) :: _ => some (position, index)
  | _, _, _ => none

def fail (call : Call ε T) (error : FlowError) : Call ε T :=
  { call with run := call.run.clear, phase := .done (.error error) }

def startNode (call : Call ε T) (polled : Nat) (started : List String) (position index : Nat) :
    Call ε T :=
  let run := { call.run with free := call.run.free.tail, ready := call.run.ready.tail }
  match run.nodes.get index with
  | none => { call with run }.fail (.graph "a ready node had already started")
  | some node =>
    let run := { run with nodes := run.nodes.erase index }
    match call.here.enter node.name with
    | .error error => { call with run }.fail error
    | .ok scope =>
      { call with
        run := { run with slots := run.slots.insert position ⟨index, scope⟩ }
        wakes := call.wakes.enqueue position
        phase := .starting polled (started ++ [node.name])
        started := call.started ++ [index]
        unheard := position :: call.unheard }

def endStart (call : Call ε T) (polled : Nat) (started : List String) : Call ε T :=
  let run := call.run.point started
  if call.wakes.ready.isEmpty then
    { call with run, phase := if run.running = 0 then .done run.report else .parked }
  else
    { call with run, wakes := call.wakes.takeReady, phase := .polling call.wakes.ready polled }

def pollOne (call : Call ε T) (position : Nat) (rest : List Nat) (polled : Nat)
    (answer : Option (Except ε T)) : Call ε T :=
  { call with
    run := call.run.pollSlot position answer
    unheard := call.unheard.filter (· ≠ position)
    notified := call.notified || (rest.isEmpty && decide (pollBudget ≤ polled + 1))
    phase :=
      if rest.isEmpty then
        if pollBudget ≤ polled + 1 then .parked else .starting (polled + 1) []
      else .polling rest (polled + 1) }

def enabled (call : Call ε T) : Turn ε T → Prop
  | .wake position => position < call.run.width
  | .nudge => True
  | .resume => call.phase = .parked ∧ call.notified = true
  | .start => ∃ polled started, call.phase = .starting polled started
  | .poll _ => ∃ rest polled, call.phase = .polling rest polled

def act (call : Call ε T) : Turn ε T → Call ε T
  | .wake position =>
    { call with
      wakes := call.wakes.enqueue position
      notified := true
      unheard := position :: call.unheard }
  | .nudge => { call with notified := true }
  | .resume => { call with phase := .starting 0 [], notified := false }
  | .start =>
    match call.phase with
    | .starting polled started =>
      match call.next with
      | some (position, index) => call.startNode polled started position index
      | none => call.endStart polled started
    | _ => call
  | .poll answer =>
    match call.phase with
    | .polling (position :: rest) polled => call.pollOne position rest polled answer
    | _ => call

/-- The steps of a call: any slot is woken at any time, and the task polled only when woken. -/
def Step (call : Call ε T) (turn : Turn ε T) (after : Call ε T) : Prop :=
  call.enabled turn ∧ call.act turn = after

end Call

structure NonZero where
  get : Nat
  pos : 0 < get

/-- As many slots as the limit, the ceiling and the nodes allow; an absent limit is the scope's
own fan-out policy. -/
def width (limit : Option NonZero) (fanOut : NonZero) (nodes : Nat) : Nat :=
  max (min (min (limit.getD fanOut).get maxInFlight) nodes) 1

def runGraph (ε T : Type) (scope : Scope) (step : String) (limit : Option NonZero)
    (fanOut : NonZero) (nodes : List GraphNode) : Except FlowError (Call ε T) := do
  validate nodes
  let plan ← Plan.of nodes
  let here ← scope.enter step
  let width := width limit fanOut nodes.length
  return ⟨here, .new plan nodes width, .new width, .parked, true, [], []⟩

end LogicalWorks.Graph
