import LogicalWorks.Approval.Listing
import Mathlib.Data.Set.Card

/-! Parks under a tenant's ceiling: first visits read the count, run their payload block and append,
beside decisions, lapses and ordinary steps, while the store's owner stages, flushes and settles. -/
namespace LogicalWorks.Approval
open Journal LogicalWorks.Task

def ApprovalRecord.tag : ApprovalRecord → Store.ApprovalRecord
  | .pending _ => .pending
  | .decision _ => .decision

structure Formats where
  archive : Archive
  wire : Store.Wire
  reads : ∀ bytes, wire.approvalFromBytes bytes =
    (archive.fromRecord bytes).map ApprovalRecord.tag

structure Tenancy where
  owner : RunId → String
  approvalMax : String → Nat

structure Park where
  number : Nat
  run : RunId
  path : String
  name : String
  ttl : Nat
  deriving DecidableEq, Repr

/-- A decision or a resume that has read a parked approval, and whether it found the slot free. -/
structure Answering where
  tenant : String
  id : ApprovalId
  pending : PendingRecord
  free : Bool
  deriving DecidableEq, Repr

structure Flow where
  index : Store.Index
  queue : List Store.Staged
  batch : List Store.Staged
  flushed : Bool
  poisoned : Bool
  next : Nat
  running : List Park
  answering : List Answering
  started : List Nat
  refused : List Nat
  wrote : List Nat

inductive Flow.Action where
  | visit (run : RunId) (path name : String) (ttl : Nat)
  | finish (park : Park) (payload : Bytes) (parkedAt : Nat) (definition : Store.StoredDefinition)
  | fail (park : Park)
  | ordinary (run : RunId) (path : String) (definition : Store.StoredDefinition) (value : Bytes)
  | find (tenant : String) (text : List Char)
  | probe (answering : Answering)
  | answer (answering : Answering) (decision : Option ApprovalDecision) (now : Nat)
      (definition : Store.StoredDefinition)
  | stage (write : Option Store.Write)
  | flush (returned : Bool)
  | settle

def pendingCount (index : Store.Index) (tenant : String) : Nat :=
  (index.pending.get tenant).getD 0

def appendOf (run : RunId) (tenant path : String) (key : Digest)
    (definition : Store.StoredDefinition) (value : Bytes) : Store.Staged where
  record := ⟨run, key.bytes, tenant, path, definition, value⟩
  key
  record_key := rfl

section

variable (formats : Formats) (tenancy : Tenancy)

def parkRecord (tenant : String) (park : Park) (payload : Bytes) (parkedAt : Nat) :
    Option Bytes := do
  let archived ← formats.archive.payloadToRecord payload
  formats.archive.toRecord (.pending ⟨tenant, park.run, park.path, park.name,
    approvalDigest formats.archive archived, payload, parkedAt, park.ttl⟩)

def answerRecord (answering : Answering) (decision : Option ApprovalDecision) (now : Nat) :
    Option DecisionRecord :=
  match decision with
  | some decision => (judge answering.id answering.pending decision now).toOption
  | none =>
    if answering.pending.expiresAt ≤ now then
      some (lapseRecord answering.id.key answering.pending)
    else none

namespace Flow

/-- Visit an approval step: resume what is parked, or run the payload block under the ceiling. -/
def visit (flow : Flow) (run : RunId) (path name : String) (ttl : Nat) : Flow :=
  let tenant := tenancy.owner run
  let key := stepKey formats.archive tenant path
  if ttl = 0 then flow
  else
    match lookupOf flow.index tenant run key with
    | .error _ => flow
    | .ok (some bytes) =>
      match classifyRecord formats.archive bytes with
      | .pending pending =>
        { flow with answering := flow.answering ++ [⟨tenant, ⟨run, key⟩, pending, false⟩] }
      | .decision _ | .other => flow
    | .ok none =>
      if tenancy.approvalMax tenant ≤ pendingCount flow.index tenant then
        { flow with next := flow.next + 1, refused := flow.refused ++ [flow.next] }
      else
        { flow with
          next := flow.next + 1
          running := flow.running ++ [⟨flow.next, run, path, name, ttl⟩]
          started := flow.started ++ [flow.next] }

def finish (flow : Flow) (park : Park) (payload : Bytes) (parkedAt : Nat)
    (definition : Store.StoredDefinition) : Flow :=
  let tenant := tenancy.owner park.run
  if park ∈ flow.running then
    let flow := { flow with running := flow.running.erase park }
    match parkRecord formats tenant park payload parkedAt with
    | none => flow
    | some bytes =>
      { flow with
        queue := flow.queue ++ [appendOf park.run tenant park.path
          (stepKey formats.archive tenant park.path) definition bytes]
        wrote := flow.wrote ++ [park.number] }
  else flow

def find (flow : Flow) (tenant : String) (text : List Char) : Flow :=
  match ApprovalId.parse text with
  | none => flow
  | some id =>
    match readPending formats.archive id (lookupOf flow.index tenant id.run id.key) with
    | .error _ => flow
    | .ok pending => { flow with answering := flow.answering ++ [⟨tenant, id, pending, false⟩] }

def probe (flow : Flow) (answering : Answering) : Flow :=
  if answering ∈ flow.answering then
    let others := flow.answering.erase answering
    match checkUndecided formats.archive answering.id (lookupOf flow.index answering.tenant
      answering.id.run (decisionKeyFor formats.archive answering.tenant answering.pending.path)) with
    | .error _ => { flow with answering := others }
    | .ok () => { flow with answering := others ++ [{ answering with free := true }] }
  else flow

def answer (flow : Flow) (answering : Answering) (decision : Option ApprovalDecision) (now : Nat)
    (definition : Store.StoredDefinition) : Flow :=
  let tenant := answering.tenant
  if answering ∈ flow.answering ∧ answering.free = true then
    let flow := { flow with answering := flow.answering.erase answering }
    match (answerRecord answering decision now).bind fun record =>
      formats.archive.toRecord (.decision record) with
    | none => flow
    | some bytes =>
      { flow with queue := flow.queue ++ [appendOf answering.id.run tenant
          (decisionPath answering.pending.path)
          (decisionKeyFor formats.archive tenant answering.pending.path) definition bytes] }
  else flow

def stage (flow : Flow) (write : Option Store.Write) : Flow :=
  match flow.queue with
  | [] => flow
  | request :: rest =>
    if flow.flushed then flow
    else if flow.poisoned then { flow with queue := rest }
    else
      match Store.ownedAnswer flow.index request.record (hexOf request.key.bytes) with
      | .error _ | .ok (some _) => { flow with queue := rest }
      | .ok none =>
        match Store.stagedAnswer flow.index request.record (hexOf request.key.bytes), write with
        | none, some write =>
          { flow with
            queue := rest
            index := flow.index.stage request write
            batch := flow.batch ++ [request] }
        -- answered from the batch, or refused by a ceiling or the device
        | some _, _ | none, none => { flow with queue := rest }

def flush (flow : Flow) (returned : Bool) : Flow :=
  if flow.flushed then flow
  else if returned then { flow with flushed := true }
  else { flow with batch := [], poisoned := true }

def settle (flow : Flow) : Flow :=
  if flow.flushed then
    match flow.batch with
    | [] => { flow with flushed := false }
    | request :: rest =>
      { flow with index := Store.settle formats.wire request.record flow.index, batch := rest }
  else flow

def act (flow : Flow) : Action → Flow
  | .visit run path name ttl => flow.visit formats tenancy run path name ttl
  | .finish park payload parkedAt definition =>
    flow.finish formats tenancy park payload parkedAt definition
  | .fail park => { flow with running := flow.running.erase park }
  | .ordinary run path definition value =>
    { flow with queue := flow.queue ++ [appendOf run (tenancy.owner run) path
        (stepKey formats.archive (tenancy.owner run) path) definition value] }
  | .find tenant text => flow.find formats tenant text
  | .probe answering => flow.probe formats answering
  | .answer answering decision now definition =>
    flow.answer formats answering decision now definition
  | .stage write => flow.stage write
  | .flush returned => flow.flush returned
  | .settle => flow.settle formats

def Step (flow : Flow) (action : Action) (next : Flow) : Prop :=
  flow.act formats tenancy action = next

def start : Flow :=
  ⟨⟨.empty, 0, Store.genesisHead formats.wire, .empty, .empty⟩, [], [], false, false, 0, [], [], [],
    [], []⟩

end Flow

end

end LogicalWorks.Approval
