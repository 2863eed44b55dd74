import LogicalWorks.Approval.Decide
import LogicalWorks.Task.Store.Append
import LogicalWorks.Lib.Table

/-! First visits, resumes, decisions and lapses of parked approvals over a store that records at most
one value for each key of a run.  Any party stands still between two of its steps while others take
theirs, or never goes on. -/
namespace LogicalWorks.Approval
open Journal LogicalWorks.Task

abbrev Place := RunId × Digest

inductive Source where
  | visit (number : Nat)
  | answer (number : Nat)
  | ordinary
  deriving DecidableEq, Repr

structure Commit where
  place : Place
  bytes : Bytes
  source : Source
  deriving DecidableEq, Repr

/-- One visit of an approval step, and how much had been answered when it began. -/
structure Visit where
  run : RunId
  path : String
  name : String
  ttl : Nat
  since : Nat
  deriving DecidableEq, Repr

/-- A party between two of its steps. -/
inductive Call where
  | visiting (visit : Visit)
  | inBlock (visit : Visit)
  | recording (visit : Visit) (pending : PendingRecord) (bytes : Bytes)
  | resuming (visit : Visit) (pending : PendingRecord)
  | undecided (visit : Visit) (pending : PendingRecord)
  | lapsing (visit : Visit) (pending : PendingRecord) (bytes : Bytes)
  | conflicted (visit : Visit) (pending : PendingRecord)
  | asking (tenant : String) (text : List Char) (decision : ApprovalDecision)
  | found (tenant : String) (id : ApprovalId) (decision : ApprovalDecision) (pending : PendingRecord)
  | unblocked (tenant : String) (id : ApprovalId) (decision : ApprovalDecision)
      (pending : PendingRecord)
  | answering (tenant : String) (id : ApprovalId) (pending : PendingRecord)
      (record : DecisionRecord) (bytes : Bytes)
  | confirming (tenant : String) (id : ApprovalId) (pending : PendingRecord)
      (record : DecisionRecord) (bytes : Bytes)
  deriving DecidableEq, Repr

inductive Event where
  | accepted (number : Nat) (id : ApprovalId) (record : DecisionRecord)
  | refused (number : Nat) (id : Option ApprovalId) (cause : DecisionError)
  | ended (number : Nat) (visit : Visit) (outcome : Outcome)
  deriving DecidableEq, Repr

def Event.number : Event → Nat
  | .accepted number _ _ | .refused number _ _ | .ended number _ _ => number

/-- What a party meets at a step: a refusal of the store, which may have written all the same, the
reading of its clock, what its payload block gave, and what the store counts. -/
structure Env where
  refusal : Option Task.StoreError
  written : Bool
  now : Nat
  payload : Option Bytes
  count : Option Nat
  approvalMax : Nat
  deriving DecidableEq, Repr

structure World where
  commits : List Commit
  calls : Table Nat Call
  next : Nat
  log : List Event
  recomputed : List Place

def zeroDeadline : String := "the approval deadline is zero"
def blockFailed : String := "the payload block failed"
def unarchivedPayload : String := "this approval's payload could not be archived"
def unarchivedRecord : String := "this approval's record could not be archived"
def unarchivedLapse : String := "this approval's lapse could not be archived"
def otherRecorded : String :=
  "a different value is already recorded for this step under this run; refusing to overwrite a committed record"

namespace World

def start : World := ⟨[], .empty, 0, [], []⟩

def held (world : World) (place : Place) : Option Bytes :=
  (world.commits.find? fun commit => commit.place = place).map Commit.bytes

def goOn (world : World) (number : Nat) (call : Call) : World :=
  { world with calls := world.calls.insert number call }

def stop (world : World) (number : Nat) (event : Event) : World :=
  { world with calls := world.calls.remove number, log := world.log ++ [event] }

def begin_ (world : World) (call : Call) : World :=
  { world with calls := world.calls.insert world.next call, next := world.next + 1 }

def put (world : World) (commit : Commit) : World :=
  if world.held commit.place = none then { world with commits := world.commits ++ [commit] }
  else world

section

variable (archive : Archive) (owner : RunId → String)

def lookup (world : World) (env : Env) (tenant : String) (run : RunId) (key : Digest) : Found :=
  match env.refusal with
  | some cause => .error cause
  | none =>
    if owner run ≠ tenant then .error (.foreignTenant (owner run) tenant)
    else .ok (world.held (run, key))

def append (world : World) (env : Env) (tenant : String) (commit : Commit) :
    Except Task.StoreError Store.Appended × World :=
  if owner commit.place.1 ≠ tenant then
    (.error (.foreignTenant (owner commit.place.1) tenant), world)
  else
    match env.refusal with
    | some cause => (.error cause, if env.written then world.put commit else world)
    | none =>
      match world.held commit.place with
      | none => (.ok .recorded, world.put commit)
      | some bytes => (.ok (if bytes = commit.bytes then .alreadyRecorded else .conflicting), world)

end

end World

section

variable (archive : Archive) (owner : RunId → String)

def Visit.id (visit : Visit) : ApprovalId :=
  ⟨visit.run, stepKey archive (owner visit.run) visit.path⟩

def Visit.place (visit : Visit) : Place := (visit.run, (visit.id archive owner).key)

def slot (run : RunId) (pending : PendingRecord) : Place :=
  (run, decisionKeyFor archive (owner run) pending.path)

namespace World

def visiting (world : World) (number : Nat) (env : Env) (visit : Visit) : World :=
  let id := visit.id archive owner
  if visit.ttl = 0 then world.stop number (.ended number visit (.failed zeroDeadline))
  else
    match world.lookup owner env (owner visit.run) visit.run id.key with
    | .error cause => world.stop number (.ended number visit (.store cause))
    | .ok (some bytes) =>
      match classifyRecord archive bytes with
      | .pending pending => world.goOn number (.resuming visit pending)
      | .decision _ | .other => world.stop number (.ended number visit (.failed notPending))
    | .ok none =>
      match env.count with
      | some count =>
        if env.approvalMax ≤ count then
          world.stop number (.ended number visit (.limited (count + 1) env.approvalMax))
        else world.goOn number (.inBlock visit)
      | none => world.goOn number (.inBlock visit)

def parkedBy (world : World) (place : Place) : Bool :=
  world.commits.any fun commit => commit.place = place ∧ commit.source matches .visit _

def inBlock (world : World) (number : Nat) (env : Env) (visit : Visit) : World :=
  match env.payload with
  | none => world.stop number (.ended number visit (.failed blockFailed))
  | some payload =>
    let place := visit.place archive owner
    let world :=
      if world.parkedBy place then { world with recomputed := world.recomputed ++ [place] }
      else world
    match archive.payloadToRecord payload with
    | none => world.stop number (.ended number visit (.failed unarchivedPayload))
    | some archived =>
      let pending : PendingRecord := ⟨owner visit.run, visit.run, visit.path, visit.name,
        approvalDigest archive archived, payload, env.now, visit.ttl⟩
      match archive.toRecord (.pending pending) with
      | none => world.stop number (.ended number visit (.failed unarchivedRecord))
      | some bytes => world.goOn number (.recording visit pending bytes)

def recording (world : World) (number : Nat) (env : Env) (visit : Visit)
    (pending : PendingRecord) (bytes : Bytes) : World :=
  let (answer, world) := world.append owner env (owner visit.run)
    ⟨visit.place archive owner, bytes, .visit number⟩
  match answer with
  | .error cause => world.stop number (.ended number visit (.store cause))
  | .ok .conflicting => world.stop number (.ended number visit (.failed otherRecorded))
  | .ok .recorded | .ok .alreadyRecorded =>
    world.stop number (.ended number visit
      (.parked (visit.id archive owner) pending.digest pending.expiresAt))

def resuming (world : World) (number : Nat) (env : Env) (visit : Visit)
    (pending : PendingRecord) : World :=
  let place := slot archive owner visit.run pending
  match world.lookup owner env (owner visit.run) place.1 place.2 with
  | .error cause => world.stop number (.ended number visit (.store cause))
  | .ok (some bytes) =>
    world.stop number (.ended number visit
      (followDecision archive (visit.id archive owner) pending bytes))
  | .ok none => world.goOn number (.undecided visit pending)

def undecided (world : World) (number : Nat) (env : Env) (visit : Visit)
    (pending : PendingRecord) : World :=
  let id := visit.id archive owner
  if pending.expiresAt ≤ env.now then
    match archive.toRecord (.decision (lapseRecord id.key pending)) with
    | none => world.stop number (.ended number visit (.failed unarchivedLapse))
    | some bytes => world.goOn number (.lapsing visit pending bytes)
  else world.stop number (.ended number visit (.parked id pending.digest pending.expiresAt))

def lapsing (world : World) (number : Nat) (env : Env) (visit : Visit)
    (pending : PendingRecord) (bytes : Bytes) : World :=
  let (answer, world) := world.append owner env (owner visit.run)
    ⟨slot archive owner visit.run pending, bytes, .answer number⟩
  match answer with
  | .error cause => world.stop number (.ended number visit (.store cause))
  | .ok .recorded | .ok .alreadyRecorded =>
    world.stop number (.ended number visit (.expired (visit.id archive owner)))
  | .ok .conflicting => world.goOn number (.conflicted visit pending)

def conflicted (world : World) (number : Nat) (env : Env) (visit : Visit)
    (pending : PendingRecord) : World :=
  let id := visit.id archive owner
  let place := slot archive owner visit.run pending
  match world.lookup owner env (owner visit.run) place.1 place.2 with
  | .error cause => world.stop number (.ended number visit (.store cause))
  | .ok (some bytes) =>
    world.stop number (.ended number visit (followDecision archive id pending bytes))
  | .ok none => world.stop number (.ended number visit (.expired id))

def asking (world : World) (number : Nat) (env : Env) (tenant : String) (text : List Char)
    (decision : ApprovalDecision) : World :=
  match ApprovalId.parse text with
  | none => world.stop number (.refused number none (.unknown text))
  | some id =>
    match readPending archive id (world.lookup owner env tenant id.run id.key) with
    | .error cause => world.stop number (.refused number (some id) cause)
    | .ok pending => world.goOn number (.found tenant id decision pending)

def found (world : World) (number : Nat) (env : Env) (tenant : String) (id : ApprovalId)
    (decision : ApprovalDecision) (pending : PendingRecord) : World :=
  let key := decisionKeyFor archive tenant pending.path
  match checkUndecided archive id (world.lookup owner env tenant id.run key) with
  | .error cause => world.stop number (.refused number (some id) cause)
  | .ok () => world.goOn number (.unblocked tenant id decision pending)

def unblocked (world : World) (number : Nat) (env : Env) (tenant : String) (id : ApprovalId)
    (decision : ApprovalDecision) (pending : PendingRecord) : World :=
  match judge id pending decision env.now with
  | .error cause => world.stop number (.refused number (some id) cause)
  | .ok record =>
    match archive.toRecord (.decision record) with
    | none => world.stop number (.refused number (some id) .unarchived)
    | some bytes => world.goOn number (.answering tenant id pending record bytes)

def answering (world : World) (number : Nat) (env : Env) (tenant : String) (id : ApprovalId)
    (pending : PendingRecord) (record : DecisionRecord) (bytes : Bytes) : World :=
  let (answer, world) := world.append owner env tenant
    ⟨(id.run, decisionKeyFor archive tenant pending.path), bytes, .answer number⟩
  match answer with
  | .error cause => world.stop number (.refused number (some id) (.store cause))
  | .ok .conflicting => world.stop number (.refused number (some id) (.alreadyDecided id.toText))
  | .ok .recorded =>
    if record.expired then world.stop number (.refused number (some id) (.expired id.toText))
    else world.goOn number (.confirming tenant id pending record bytes)
  | .ok .alreadyRecorded =>
    if record.expired then world.stop number (.refused number (some id) (.expired id.toText))
    else world.stop number (.refused number (some id) (.alreadyDecided id.toText))

def confirming (world : World) (number : Nat) (env : Env) (tenant : String) (id : ApprovalId)
    (pending : PendingRecord) (record : DecisionRecord) (bytes : Bytes) : World :=
  match world.lookup owner env tenant id.run (decisionKeyFor archive tenant pending.path) with
  | .error cause => world.stop number (.refused number (some id) (.store cause))
  | .ok stored =>
    if stored = some bytes then world.stop number (.accepted number id record)
    else world.stop number (.refused number (some id) (.alreadyDecided id.toText))

inductive Action where
  | visit (run : RunId) (path name : String) (ttl : Nat)
  | decide (tenant : String) (text : List Char) (decision : ApprovalDecision)
  | ordinary (place : Place) (bytes : Bytes)
  | advance (number : Nat) (env : Env)
  | drop (number : Nat)
  deriving DecidableEq, Repr

def advance (world : World) (number : Nat) (env : Env) : World :=
  match world.calls.get number with
  | none => world
  | some (.visiting visit) => world.visiting archive owner number env visit
  | some (.inBlock visit) => world.inBlock archive owner number env visit
  | some (.recording visit pending bytes) =>
    world.recording archive owner number env visit pending bytes
  | some (.resuming visit pending) => world.resuming archive owner number env visit pending
  | some (.undecided visit pending) => world.undecided archive owner number env visit pending
  | some (.lapsing visit pending bytes) =>
    world.lapsing archive owner number env visit pending bytes
  | some (.conflicted visit pending) => world.conflicted archive owner number env visit pending
  | some (.asking tenant text decision) =>
    world.asking archive owner number env tenant text decision
  | some (.found tenant id decision pending) =>
    world.found archive owner number env tenant id decision pending
  | some (.unblocked tenant id decision pending) =>
    world.unblocked archive number env tenant id decision pending
  | some (.answering tenant id pending record bytes) =>
    world.answering archive owner number env tenant id pending record bytes
  | some (.confirming tenant id pending record bytes) =>
    world.confirming archive owner number env tenant id pending record bytes

def act (world : World) : Action → World
  | .visit run path name ttl => world.begin_ (.visiting ⟨run, path, name, ttl, world.log.length⟩)
  | .decide tenant text decision => world.begin_ (.asking tenant text decision)
  | .ordinary place bytes => world.put ⟨place, bytes, .ordinary⟩
  | .advance number env => world.advance archive owner number env
  | .drop number => { world with calls := world.calls.remove number }

def Step (world : World) (action : Action) (next : World) : Prop :=
  world.act archive owner action = next

end World

end

end LogicalWorks.Approval
