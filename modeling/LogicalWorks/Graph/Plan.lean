import LogicalWorks.Lib.Kahn
import LogicalWorks.Lib.Checks
import Mathlib.Data.List.Sort
import Mathlib.Algebra.Order.Ring.Nat

/-! What `run_graph` makes of a declaration before it starts anything: the checks that refuse
one that cannot run, and the plan of one that can. -/
namespace LogicalWorks.Graph

def maxGraphNodes : Nat := 4096

def maxDepth : Nat := 64

def maxInFlight : Nat := 65536

/-- How many bodies one poll of the graph may poll before it hands the executor back. -/
def pollBudget : Nat := 128

inductive FlowError where
  | graph (reason : String)
  | tooDeep (at_ : String) (limit : Nat)
  deriving DecidableEq, Repr

structure GraphNode where
  name : String
  needs : List String
  work : Nat
  work_pos : 0 < work
  work_lt : work < 2 ^ 64

namespace GraphNode

def new (name : String) (needs : List String) : GraphNode :=
  ⟨name, needs, 1, by decide, by decide⟩

def withWork (node : GraphNode) (work : Nat) (h : work < 2 ^ 64) : GraphNode :=
  { node with work := max work 1, work_pos := by omega, work_lt := by omega }

end GraphNode

structure Scope where
  path : String
  depth : Nat
  deriving DecidableEq, Repr

namespace Scope

def join (scope : Scope) (segment : String) : String :=
  if scope.path.isEmpty then segment else scope.path ++ "/" ++ segment

def enter (scope : Scope) (step : String) : Except FlowError Scope :=
  if maxDepth ≤ scope.depth then .error (.tooDeep scope.path maxDepth)
  else .ok ⟨scope.join step, scope.depth + 1⟩

end Scope

def sortedNames (nodes : List GraphNode) : List String :=
  (nodes.map GraphNode.name).insertionSort (· ≤ ·)

def nameRefusal (seen : List String) : List GraphNode → Option String
  | [] => none
  | node :: rest =>
    if node.name.isEmpty then some "a node is named the empty string"
    else if node.name ∈ seen then some s!"a node is declared twice: {node.name}"
    else nameRefusal (seen ++ [node.name]) rest

def needRefusal (seen : List String) (node : GraphNode) : Option String :=
  node.needs.findSome? fun need =>
    if need ∉ seen then some s!"{node.name} needs {need}, which no node declares"
    else if need = node.name then some s!"{node.name} needs itself"
    else none

def needsNamed (nodes : List GraphNode) (name : String) : List String :=
  ((nodes.find? fun node => node.name = name).map GraphNode.needs).getD []

def waitingFor (nodes : List GraphNode) (name : String) : List String :=
  (nodes.filter fun node => name ∈ node.needs).map GraphNode.name

def outstanding (nodes : List GraphNode) : Index String Nat :=
  Index.empty.insertAll (nodes.map fun node => (node.name, node.needs.length))

def namesPass (nodes : List GraphNode) : Kahn.State String :=
  Kahn.pass Index.erase (waitingFor nodes) (nodes.length + 1)
    ⟨outstanding nodes,
      ((sortedNames nodes).filter fun name => (outstanding nodes).get name = some 0).reverse, []⟩

def refusalReason (nodes : List GraphNode) : Option String :=
  if nodes.isEmpty then some "a graph runs at least one node"
  else if maxGraphNodes < nodes.length then
    some s!"a graph runs at most {maxGraphNodes} nodes, got {nodes.length}"
  else
    (nameRefusal [] nodes).or <|
      (nodes.findSome? (needRefusal (nodes.map GraphNode.name))).or <|
        ((sortedNames nodes).find? fun name => ((namesPass nodes).count.get name).isSome).map
          fun name => s!"the needs cycle through {name}: nothing can start it"

def validate (nodes : List GraphNode) : Except FlowError Unit :=
  match refusalReason nodes with
  | some reason => .error (.graph reason)
  | none => .ok ()

/-- A validated declaration as indices: the needs of each node, its dependants, and its height,
the longest chain of work from it to the end of the graph. -/
structure Plan where
  names : List String
  needs : List (List Nat)
  dependants : List (List Nat)
  height : Index Nat Nat

namespace Plan

def needsOf (plan : Plan) (at_ : Nat) : List Nat := (plan.needs[at_]?).getD []

def below (plan : Plan) (at_ : Nat) : List Nat := (plan.dependants[at_]?).getD []

end Plan

def saturatingAdd (left right : Nat) : Nat := min (left + right) (2 ^ 64 - 1)

def heaviest (height : Index Nat Nat) (nodes : List Nat) : Nat :=
  (nodes.filterMap height.get).foldl max 0

def raise (dependants : Nat → List Nat) (height : Index Nat Nat) (at_ : Nat) : Index Nat Nat :=
  match height.get at_ with
  | none => height
  | some own => height.insert at_ (saturatingAdd own (heaviest height (dependants at_)))

def nameIndex (nodes : List GraphNode) : Index String Nat :=
  Index.empty.insertAll (nodes.zipIdx.map fun entry => (entry.1.name, entry.2))

def resolve (index : Index String Nat) (need : String) : Except FlowError Nat :=
  match index.get need with
  | none => .error (.graph s!"{need} is not a declared node")
  | some at_ => .ok at_

def dependantsOf (needs : List (List Nat)) (of : Nat) : List Nat :=
  (List.range needs.length).flatMap fun at_ =>
    List.replicate (((needs[at_]?).getD []).count of) at_

/-- A topological order of the nodes: Kahn's pass over indices, the counts it is done with kept. -/
def indexPass (needs : List (List Nat)) : Kahn.State Nat :=
  let unmet : Index Nat Nat := fun at_ => (needs[at_]?).map List.length
  Kahn.pass (fun count _ => count) (dependantsOf needs) (needs.length + 1)
    ⟨unmet, ((List.range needs.length).filter fun at_ => unmet.get at_ = some 0).reverse, []⟩

def Plan.of (nodes : List GraphNode) : Except FlowError Plan := do
  let needs ← nodes.mapM fun node => node.needs.mapM (resolve (nameIndex nodes))
  let work : Index Nat Nat := fun at_ => (nodes[at_]?).map GraphNode.work
  return {
    names := nodes.map GraphNode.name
    needs := needs
    dependants := (List.range nodes.length).map (dependantsOf needs)
    height := (indexPass needs).order.reverse.foldl (raise (dependantsOf needs)) work }

end LogicalWorks.Graph
