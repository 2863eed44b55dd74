import LogicalWorks.Lib.Table
import LogicalWorks.Lib.Checks
import LogicalWorks.Session.Value

/-! The flow document: nodes, edges, terminals, bounds, and the byte ceilings it may ask for. -/
namespace LogicalWorks.Session

inductive ResourceAxis where
  | utterance
  | value
  | record
  | session
  deriving DecidableEq, Repr

structure ResourceLimits where
  utteranceBytes : Nat
  valueBytes : Nat
  recordBytes : Nat
  sessionBytes : Nat
  deriving DecidableEq, Repr

inductive ValueExpr where
  | literal (value : Value)
  | var (name : Text)
  deriving DecidableEq, Repr

inductive Predicate where
  | const (value : Bool)
  | eq (left right : ValueExpr)
  | ne (left right : ValueExpr)
  | lt (left right : ValueExpr)
  | le (left right : ValueExpr)
  | gt (left right : ValueExpr)
  | ge (left right : ValueExpr)
  | and (items : List Predicate)
  | or (items : List Predicate)
  | not (inner : Predicate)

inductive NodeKind where
  | say (text : Text)
  | ask (var : Text) (options : List Text) (routes : Table Text Text)
  | branch (var : Text) (when : Predicate) (then_ otherwise : Text)
  | handoff (target : Text)
  | refer (target text : Text)
  | route (dispatch fallback : Text)
  | end_

inductive FlowEdge where
  | next (source target : Text)
  | after (source target : Text)
  deriving DecidableEq, Repr

def FlowEdge.endpoints : FlowEdge → Text × Text
  | next source target | after source target => (source, target)

inductive Terminal where
  | completed
  | referred (target : Text)
  | handedOff (target : Text)
  | refused (reason : Text)
  deriving DecidableEq, Repr

inductive Malformation where
  | noNodes
  | multipleContinuations (node : Text)
  | invalidOptions (node : Text)
  | sameAnswer (node first second : Text) (domain : AnswerDomain)
  | undeclaredOptionRouted (node option : Text)
  | invalidVariableName (name : Text)
  | invalidChoiceOptions (name : Text)
  | nonTerminalDeclared (node : Text)
  | noIntrinsicOutcome (node : Text)
  | emptyPredicate (node : Text)
  | noTerminalOutcome (node : Text)
  deriving DecidableEq, Repr

structure JournalError where
  sink : Text
  cause : Text
  deriving DecidableEq, Repr

inductive BotError where
  | resourceLimitAboveCeiling (axis : ResourceAxis) (requested ceiling : Nat)
  | malformedFlow (cause : Malformation)
  | invalidTransitionTarget (source target : Text)
  | flowBudgetExceeded (steps budget : Nat)
  | missingTransition (node : Text)
  | missingAskRoute (node option : Text)
  | conflictingTerminalDeclaration (node : Text) (intrinsic declared : Terminal)
  | undeclaredVariable (name : Text)
  | variableNeverWritten (name : Text)
  | variableReadBeforeInit (node name : Text)
  | unreachableNode (node : Text)
  | askOptionNotAssignable (node variable_ option : Text) (expected : String)
      (cause : AnswerRejection)
  | askOptionTooLarge (node variable_ option : Text) (bytes limit : Nat)
  | templateExpansionTooLarge (node : Text) (bytes limit : Nat)
  | malformedTemplate (node : Text) (field : String)
  | variableUnset (name : Text)
  | variableTypeMismatch (name : Text)
  | invalidVariableValue (variable_ value : Text) (reason : AnswerRejection)
  | valueTooLarge (variable_ : Text) (bytes limit : Nat)
  | predicateTypeMismatch
  | sessionBudgetExceeded (steps budget : Nat)
  | sessionRetentionExceeded (bytes limit : Nat)
  | recordTooLarge (node : Text) (bytes limit : Nat)
  | utteranceTooLarge (bytes limit : Nat)
  | sessionTerminated
  | sessionNotAwaitingAnswer
  | resolverReturnedInvalidOption (node : Text)
  | receiptNotRecorded (node : Text) (cause : JournalError)
  deriving DecidableEq, Repr

namespace ResourceLimits

def shipped : ResourceLimits := ⟨8192, 65536, 1048576, 8388608⟩

def get (limits : ResourceLimits) : ResourceAxis → Nat
  | .utterance => limits.utteranceBytes
  | .value => limits.valueBytes
  | .record => limits.recordBytes
  | .session => limits.sessionBytes

def narrowed (limits other : ResourceLimits) : ResourceLimits :=
  ⟨min limits.utteranceBytes other.utteranceBytes, min limits.valueBytes other.valueBytes,
    min limits.recordBytes other.recordBytes, min limits.sessionBytes other.sessionBytes⟩

def withinCeiling (limits : ResourceLimits) : Except BotError ResourceLimits := do
  [ResourceAxis.utterance, .value, .record, .session].forM fun axis =>
    require (limits.get axis ≤ shipped.get axis)
      (.resourceLimitAboveCeiling axis (limits.get axis) (shipped.get axis))
  return limits

end ResourceLimits

structure FlowBounds where
  budget : Nat
  resources : Option ResourceLimits
  deriving DecidableEq, Repr

def FlowBounds.effectiveResources (bounds : FlowBounds) : ResourceLimits :=
  bounds.resources.getD .shipped

structure FlowSpec where
  vars : Table Text VarType
  entry : Text
  nodes : Table Text NodeKind
  edges : List FlowEdge
  terminals : Table Text Terminal
  bounds : FlowBounds

namespace FlowSpec

def node (spec : FlowSpec) (id : Text) : Option NodeKind := spec.nodes.get id

def intrinsicTerminal (spec : FlowSpec) (node : Text) : Option Terminal :=
  match spec.nodes.get node with
  | some .end_ => some .completed
  | some (.handoff target) => some (.handedOff target)
  | some (.refer target _) => some (.referred target)
  | _ => none

def effectiveTerminal (spec : FlowSpec) (node : Text) : Option Terminal :=
  (spec.intrinsicTerminal node).map fun intrinsic => (spec.terminals.get node).getD intrinsic

def edgeTargets (spec : FlowSpec) (source : Text) : List Text :=
  spec.edges.filterMap fun edge =>
    if edge.endpoints.1 = source then some edge.endpoints.2 else none

end FlowSpec

end LogicalWorks.Session

/-! The variable scope, templates compiled and rendered over it, and predicates evaluated in it. -/
namespace LogicalWorks.Session

def usizeMax : Nat := 2 ^ 64 - 1

def checkedAdd (left right : Nat) : Option Nat :=
  if left + right ≤ usizeMax then some (left + right) else none

def validIdentifier : Text → Bool
  | [] => false
  | first :: rest =>
    (first.isAlpha || first = '_') && rest.all fun character =>
      character.isAlphanum || character = '_'

def hasDuplicates : List Text → Bool
  | [] => false
  | first :: rest => rest.contains first || hasDuplicates rest

def validateDeclarations (vars : Table Text VarType) : Except BotError Unit :=
  vars.rows.forM fun row => do
    require (validIdentifier row.1) (.malformedFlow (.invalidVariableName row.1))
    match row.2 with
    | .choice options =>
      require (!(options.isEmpty || hasDuplicates options))
        (.malformedFlow (.invalidChoiceOptions row.1))
    | _ => pure ()

structure VarScope where
  declarations : Table Text VarType
  values : Table Text Value

namespace VarScope

def new (declarations : Table Text VarType) : Except BotError VarScope := do
  validateDeclarations declarations
  return ⟨declarations, .empty⟩

def answerDomain (scope : VarScope) (name : Text) : AnswerDomain :=
  match scope.declarations.get name with
  | some declared => declared.answerDomain
  | none => .label

def get (scope : VarScope) (name : Text) : Option Value := scope.values.get name

def set (scope : VarScope) (name : Text) (value : Value) : Except BotError VarScope :=
  match scope.declarations.get name with
  | none => .error (.undeclaredVariable name)
  | some declared =>
    if valueMatchesType declared value then
      .ok { scope with values := scope.values.insert name value }
    else .error (.variableTypeMismatch name)

def setFromAnswerWithin (scope : VarScope) (name answer : Text) (valueBytes : Nat) :
    Except BotError VarScope :=
  match scope.declarations.get name with
  | none => .error (.undeclaredVariable name)
  | some declared =>
    match declared.decodeAnswer answer with
    | .error rejection => .error (.invalidVariableValue name answer rejection)
    | .ok value =>
      if valueBytes < value.renderedBytes then
        .error (.valueTooLarge name value.renderedBytes valueBytes)
      else scope.set name value

end VarScope

inductive TemplatePart where
  | literal (text : Text)
  | variable_ (name : Text)
  deriving DecidableEq, Repr

def runtimeNode : Text := "<runtime>".toList

/-- Cut a template at its markers: `literal` is the text since the last of them, and `name` what
was read of a marker that is still open. -/
def compileFrom (literal : Text) : Option Text → Text → Except BotError (List TemplatePart)
  | none, [] => .ok (if literal = [] then [] else [.literal literal])
  | none, '$' :: '\x7b' :: rest => do
      let parts ← compileFrom [] (some []) rest
      return if literal = [] then parts else .literal literal :: parts
  | none, character :: rest => compileFrom (literal ++ [character]) none rest
  | some _, [] => .error (.malformedTemplate runtimeNode "template")
  | some name, character :: rest =>
    if character = '\x7d' then
      if validIdentifier name then do
        let parts ← compileFrom [] none rest
        return .variable_ name :: parts
      else .error (.malformedTemplate runtimeNode "template")
    else compileFrom literal (some (name ++ [character])) rest

def compile (template : Text) : Except BotError (List TemplatePart) := compileFrom [] none template

def bound (scope : VarScope) (name : Text) : Except BotError Value :=
  match scope.get name with
  | some value => .ok value
  | none => .error (.variableUnset name)

def expandedBytes (scope : VarScope) : List TemplatePart → Nat → Except BotError Nat
  | [], total => .ok total
  | part :: rest, total => do
      let size ← match part with
        | .literal text => pure (bytes text)
        | .variable_ name => (bound scope name).map Value.renderedBytes
      match checkedAdd total size with
      | none => .error (.templateExpansionTooLarge runtimeNode usizeMax usizeMax)
      | some total => expandedBytes scope rest total

def renderParts (scope : VarScope) : List TemplatePart → Except BotError Text
  | [] => .ok []
  | part :: rest => do
      let text ← match part with
        | .literal text => pure text
        | .variable_ name => (bound scope name).map Value.render
      let others ← renderParts scope rest
      return text ++ others

def atNode (node : Text) : BotError → BotError
  | .malformedTemplate _ field => .malformedTemplate node field
  | other => other

def interpolate (template : Text) (scope : VarScope) (node : Text) (limit : Nat) :
    Except BotError Text := do
  let parts ← (compile template).mapError (atNode node)
  let size ← expandedBytes scope parts 0
  require (size ≤ limit) (.templateExpansionTooLarge node size limit)
  renderParts scope parts

def resolveExpr (expression : ValueExpr) (scope : VarScope) : Except BotError Value :=
  match expression with
  | .literal value => .ok value
  | .var name =>
    match scope.get name with
    | some value => .ok value
    | none => .error (.variableUnset name)

def compareValues : Value → Value → Except BotError Ordering
  | .string left, .string right | .choice left, .choice right => .ok (compare left right)
  | .integer left, .integer right => .ok (compare left right)
  | .boolean left, .boolean right => .ok (compare left right)
  | _, _ => .error .predicateTypeMismatch

def compareExpr (left right : ValueExpr) (scope : VarScope) (holds : Ordering → Bool) :
    Except BotError Bool := do
  let left ← resolveExpr left scope
  let right ← resolveExpr right scope
  let ordering ← compareValues left right
  return holds ordering

def sameValue (left right : ValueExpr) (scope : VarScope) (equal : Bool) : Except BotError Bool := do
  let left ← resolveExpr left scope
  let right ← resolveExpr right scope
  return decide (left = right) == equal

mutual

def evaluate (scope : VarScope) : Predicate → Except BotError Bool
  | .const value => .ok value
  | .eq left right => sameValue left right scope true
  | .ne left right => sameValue left right scope false
  | .lt left right => compareExpr left right scope Ordering.isLT
  | .le left right => compareExpr left right scope Ordering.isLE
  | .gt left right => compareExpr left right scope Ordering.isGT
  | .ge left right => compareExpr left right scope Ordering.isGE
  | .and items => allTrue scope items
  | .or items => anyTrue scope items
  | .not inner => do
      let value ← evaluate scope inner
      return !value

def allTrue (scope : VarScope) : List Predicate → Except BotError Bool
  | [] => .ok true
  | item :: rest => do
      let value ← evaluate scope item
      if !value then return false else allTrue scope rest

def anyTrue (scope : VarScope) : List Predicate → Except BotError Bool
  | [] => .ok false
  | item :: rest => do
      let value ← evaluate scope item
      if value then return true else anyTrue scope rest

end

end LogicalWorks.Session
