import LogicalWorks.Lib.Index
import LogicalWorks.Session.Language

/-! What is known at every node of a graph whatever way led there: each node keeps a set of names,
and passes on to those behind it no more than it has. -/
namespace LogicalWorks.Worklist

variable {ν ω : Type} [DecidableEq ν] [DecidableEq ω]

/-- The names known at each node so far, and the nodes still to be looked at. -/
structure Work (ν ω : Type) where
  known : Index ν (List ω)
  pending : List ν

/-- A node keeps only what one before it passes on; where that takes a name, it is looked at again. -/
def retain (outgoing : List ω) (work : Work ν ω) (target : ν) : Work ν ω :=
  match work.known.get target with
  | none => work
  | some names =>
    let kept := names.filter (· ∈ outgoing)
    { known := work.known.insert target kept
      pending := if kept.length = names.length then work.pending else work.pending ++ [target] }

def visit (successors : ν → List ν) (pass : ν → List ω → List ω) (work : Work ν ω) (node : ν)
    (rest : List ν) : Work ν ω :=
  match work.known.get node with
  | none => { work with pending := rest }
  | some incoming =>
    (successors node).foldl (retain (pass node incoming)) { work with pending := rest }

def drain (successors : ν → List ν) (pass : ν → List ω → List ω) : Nat → Work ν ω → Work ν ω
  | 0, work => work
  | fuel + 1, work =>
    match work.pending with
    | [] => work
    | node :: rest => drain successors pass fuel (visit successors pass work node rest)

end LogicalWorks.Worklist

/-! Flow validation: the structural and declaration checks a document passes at load. -/
namespace LogicalWorks.Session

def checkTarget (spec : FlowSpec) (source target : Text) : Except BotError Unit :=
  require ((spec.nodes.get target).isSome) (.invalidTransitionTarget source target)

def compileForNode (node : Text) (field : String) (text : Text) :
    Except BotError (List TemplatePart) :=
  match compile text with
  | .ok parts => .ok parts
  | .error (.malformedTemplate _ _) => .error (.malformedTemplate node field)
  | .error other => .error other

def literalBytes (spec : FlowSpec) (node : Text) (limit : Nat) :
    List TemplatePart → Nat → Except BotError Nat
  | [], total => .ok total
  | .literal text :: rest, total =>
    match checkedAdd total (bytes text) with
    | none => .error (.templateExpansionTooLarge node usizeMax limit)
    | some total => literalBytes spec node limit rest total
  | .variable_ name :: rest, total => do
      require ((spec.vars.get name).isSome) (.undeclaredVariable name)
      literalBytes spec node limit rest total

def validateTemplate (spec : FlowSpec) (node template : Text) (field : String)
    (limits : ResourceLimits) : Except BotError Unit := do
  let parts ← compileForNode node field template
  let literals ← literalBytes spec node (limits.get .record) parts 0
  require (literals ≤ limits.get .record)
    (.templateExpansionTooLarge node literals (limits.get .record))

def validateSayNode (spec : FlowSpec) (node text : Text) (limits : ResourceLimits) :
    Except BotError Unit := do
  validateTemplate spec node text "say.text" limits
  require ((spec.edgeTargets node).length ≤ 1) (.malformedFlow (.multipleContinuations node))
  require (spec.edgeTargets node ≠ [] ∨ (spec.terminals.get node).isSome) (.missingTransition node)

def validateReferNode (spec : FlowSpec) (node text : Text) (limits : ResourceLimits) :
    Except BotError Unit := do
  validateTemplate spec node text "refer.text" limits
  (spec.edgeTargets node).forM (checkTarget spec node)

def answerDomainOf (spec : FlowSpec) (name : Text) : AnswerDomain :=
  match spec.vars.get name with
  | some declared => declared.answerDomain
  | none => .label

def identityOf (unicode : Unicode) (domain : AnswerDomain) (option : Text) : Option Text :=
  match domain with
  | .label => some (normalize unicode option)
  | .integer => (decodeInteger option).map decimal

def collidingFrom (unicode : Unicode) (domain : AnswerDomain) (seen : List (Text × Text)) :
    List Text → Option (Text × Text)
  | [] => none
  | option :: rest =>
    match identityOf unicode domain option with
    | none => collidingFrom unicode domain seen rest
    | some identity =>
      match seen.find? fun entry => entry.1 = identity with
      | some entry => some (entry.2, option)
      | none => collidingFrom unicode domain (seen ++ [(identity, option)]) rest

def collidingOptions (unicode : Unicode) (options : List Text) (domain : AnswerDomain) :
    Option (Text × Text) :=
  collidingFrom unicode domain [] options

def validateOption (spec : FlowSpec) (node var : Text) (declared : VarType)
    (routes : Table Text Text) (limits : ResourceLimits) (option : Text) : Except BotError Unit :=
  match routes.get option with
  | none => .error (.missingAskRoute node option)
  | some target => do
      checkTarget spec node target
      match declared.decodeAnswer option with
      | .error rejection =>
        .error (.askOptionNotAssignable node var option declared.label rejection)
      | .ok value =>
        require (value.renderedBytes ≤ limits.get .value)
          (.askOptionTooLarge node var option value.renderedBytes (limits.get .value))

def validateAskNode (unicode : Unicode) (spec : FlowSpec) (node var : Text) (options : List Text)
    (routes : Table Text Text) (limits : ResourceLimits) : Except BotError Unit :=
  match spec.vars.get var with
  | none => .error (.undeclaredVariable var)
  | some declared => do
      require (!(options.isEmpty || hasDuplicates options)) (.malformedFlow (.invalidOptions node))
      match collidingOptions unicode options (answerDomainOf spec var) with
      | some (first, second) =>
        .error (.malformedFlow (.sameAnswer node first second (answerDomainOf spec var)))
      | none => do
          options.forM (validateOption spec node var declared routes limits)
          routes.rows.forM fun row => do
            require (options.contains row.1) (.malformedFlow (.undeclaredOptionRouted node row.1))
            checkTarget spec node row.2

def validateExpr (spec : FlowSpec) : ValueExpr → Except BotError Unit
  | .literal _ => .ok ()
  | .var name => require ((spec.vars.get name).isSome) (.undeclaredVariable name)

def validatePair (spec : FlowSpec) (left right : ValueExpr) : Except BotError Unit := do
  validateExpr spec left
  validateExpr spec right

mutual

def validatePredicate (spec : FlowSpec) (node : Text) : Predicate → Except BotError Unit
  | .const _ => .ok ()
  | .eq left right | .ne left right | .lt left right | .le left right | .gt left right
  | .ge left right => validatePair spec left right
  | .and items | .or items =>
    match items with
    | [] => .error (.malformedFlow (.emptyPredicate node))
    | first :: rest => do
        validatePredicate spec node first
        validatePredicates spec node rest
  | .not inner => validatePredicate spec node inner

def validatePredicates (spec : FlowSpec) (node : Text) : List Predicate → Except BotError Unit
  | [] => .ok ()
  | item :: rest => do
      validatePredicate spec node item
      validatePredicates spec node rest

end

def validateBranchNode (spec : FlowSpec) (node var : Text) (when : Predicate)
    (then_ otherwise : Text) : Except BotError Unit := do
  require ((spec.vars.get var).isSome) (.undeclaredVariable var)
  validatePredicate spec node when
  checkTarget spec node then_
  checkTarget spec node otherwise

def validateNode (unicode : Unicode) (spec : FlowSpec) (limits : ResourceLimits) (node : Text) :
    NodeKind → Except BotError Unit
  | .say text => validateSayNode spec node text limits
  | .ask var options routes => validateAskNode unicode spec node var options routes limits
  | .branch var when then_ otherwise => validateBranchNode spec node var when then_ otherwise
  | .refer _ text => validateReferNode spec node text limits
  | .route dispatch fallback => do
      checkTarget spec node dispatch
      checkTarget spec node fallback
  | .handoff _ | .end_ => .ok ()

def validateTerminal (spec : FlowSpec) (node : Text) (declared : Terminal) : Except BotError Unit :=
  match spec.nodes.get node with
  | none => .error (.invalidTransitionTarget "<terminal>".toList node)
  | some .end_ => .ok ()
  | some (.handoff _) | some (.refer _ _) =>
    match spec.intrinsicTerminal node with
    | none => .error (.malformedFlow (.noIntrinsicOutcome node))
    | some intrinsic =>
      require (intrinsic = declared) (.conflictingTerminalDeclaration node intrinsic declared)
  | some _ => .error (.malformedFlow (.nonTerminalDeclared node))

def successorTargets (spec : FlowSpec) (node : Text) (kind : NodeKind) : List Text :=
  spec.edgeTargets node ++ match kind with
    | .ask _ _ routes => routes.rows.map Prod.snd
    | .branch _ _ then_ otherwise => [then_, otherwise]
    | .route dispatch fallback => [dispatch, fallback]
    | .say _ | .handoff _ | .refer _ _ | .end_ => []

def successorsOf (spec : FlowSpec) (node : Text) : List Text :=
  match spec.nodes.get node with
  | some kind => successorTargets spec node kind
  | none => []

def setBehind (spec : FlowSpec) (node : Text) (incoming : List Text) : List Text :=
  match spec.nodes.get node with
  | some (.ask var _ _) => var :: incoming
  | _ => incoming

mutual

def predicateVariables : Predicate → List Text
  | .const _ => []
  | .eq left right | .ne left right | .lt left right | .le left right | .gt left right
  | .ge left right => exprVariables left ++ exprVariables right
  | .and items | .or items => predicatesVariables items
  | .not inner => predicateVariables inner

def predicatesVariables : List Predicate → List Text
  | [] => []
  | item :: rest => predicateVariables item ++ predicatesVariables rest

def exprVariables : ValueExpr → List Text
  | .literal _ => []
  | .var name => [name]

end

def partVariable : TemplatePart → Option Text
  | .literal _ => none
  | .variable_ name => some name

def declaredTemplateReads (spec : FlowSpec) (node text : Text) (field : String) :
    Except BotError (List Text) := do
  let parts ← compileForNode node field text
  return (parts.filterMap partVariable).filter fun name => (spec.vars.get name).isSome

def nodeReads (spec : FlowSpec) (node : Text) : NodeKind → Except BotError (List Text)
  | .say text => declaredTemplateReads spec node text "say.text"
  | .refer _ text => declaredTemplateReads spec node text "refer.text"
  | .branch _ when _ _ =>
    .ok ((predicateVariables when).filter fun name => (spec.vars.get name).isSome)
  | .ask _ _ _ | .handoff _ | .route _ _ | .end_ => .ok []

def keys {α : Type} (table : Table Text α) : List Text := table.rows.map Prod.fst

def initially (spec : FlowSpec) : Index Text (List Text) :=
  Index.insert (fun node => if (spec.nodes.get node).isSome then some (keys spec.vars) else none)
    spec.entry []

def available (spec : FlowSpec) : Index Text (List Text) :=
  (Worklist.drain (successorsOf spec) (setBehind spec)
    (spec.nodes.rows.length + spec.nodes.rows.length * spec.vars.rows.length)
    ⟨initially spec, keys spec.nodes⟩).known

def rejectUninitializedReads (spec : FlowSpec) : Except BotError Unit :=
  spec.nodes.rows.forM fun row =>
    match (available spec).get row.1 with
    | none => .ok ()
    | some state => do
        let reads ← nodeReads spec row.1 row.2
        reads.forM fun name => require (state.contains name) (.variableReadBeforeInit row.1 name)

def reach (spec : FlowSpec) : Nat → List Text → List Text → List Text
  | 0, seen, _ => seen
  | _, seen, [] => seen
  | fuel + 1, seen, node :: pending =>
    if node ∈ seen then reach spec fuel seen pending
    else
      let seen := seen ++ [node]
      reach spec fuel seen
        (pending ++ (successorsOf spec node).filter fun target => target ∉ seen)

def rejectUnreachable (spec : FlowSpec) : Except BotError Unit :=
  let steps := ((keys spec.nodes).map fun node => (successorsOf spec node).length).sum + 1
  let seen := reach spec steps [] [spec.entry]
  spec.nodes.rows.forM fun row => require (seen.contains row.1) (.unreachableNode row.1)

def askVar : NodeKind → Option Text
  | .ask var _ _ => some var
  | _ => none

def validateFlowWithin (unicode : Unicode) (spec : FlowSpec) (limits : ResourceLimits) :
    Except BotError Unit := do
  let requested ← spec.bounds.effectiveResources.withinCeiling
  let effective := requested.narrowed limits
  require (spec.nodes.rows ≠ []) (.malformedFlow .noNodes)
  require ((spec.nodes.get spec.entry).isSome)
    (.invalidTransitionTarget "<entry>".toList spec.entry)
  require (¬(spec.bounds.budget = 0 ∨ spec.bounds.budget < spec.nodes.rows.length))
    (.flowBudgetExceeded spec.nodes.rows.length spec.bounds.budget)
  validateDeclarations spec.vars
  spec.terminals.rows.forM fun row => validateTerminal spec row.1 row.2
  spec.nodes.rows.forM fun row => validateNode unicode spec effective row.1 row.2
  let writers := spec.nodes.rows.filterMap fun row => askVar row.2
  spec.vars.rows.forM fun row => require (writers.contains row.1) (.variableNeverWritten row.1)
  spec.edges.forM fun edge => do
    require ((spec.nodes.get edge.endpoints.1).isSome)
      (.invalidTransitionTarget edge.endpoints.1 edge.endpoints.1)
    checkTarget spec edge.endpoints.1 edge.endpoints.2
  rejectUninitializedReads spec
  rejectUnreachable spec

end LogicalWorks.Session
