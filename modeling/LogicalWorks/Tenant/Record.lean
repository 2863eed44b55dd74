import LogicalWorks.Lib.Table
import LogicalWorks.Task.FrameLog
import LogicalWorks.Task.Digests

/-! The tenant store's record, the rows it folds to, and the index over them.  The archive
format, the digest and the snapshot's text form are parameters. -/
namespace LogicalWorks.Tenant

open Journal LogicalWorks.Task

def storeMagic : Bytes := utf8 "lgwks-tstore" ++ [0, 0, 0, 0]

def headerLen : Nat := 16

def versionByte : Nat := 15

def storeFormat : UInt8 := 1

def maxFrameBytes : Nat := 256 * 1024

def kindInitPolicy : UInt8 := 1

def kindBeginRun : UInt8 := 2

def kindLaneDispatched : UInt8 := 3

def kindLaneEnded : UInt8 := 4

def kindFinishRun : UInt8 := 5

def kindAbandonRun : UInt8 := 6

/-- Whether a record is of one of the six kinds this format produces. -/
def isKnownKind (kind : UInt8) : Bool :=
  kind = kindInitPolicy || kind = kindBeginRun || kind = kindLaneDispatched ||
    kind = kindLaneEnded || kind = kindFinishRun || kind = kindAbandonRun

def verdictAbandoned : String := "UNMEASURED"

def reasonAbandoned : String := "abandoned: its coordinator ended before the run finished"

def outcomeUnknown : String := "outcome-unknown"

def detailUnknown : String :=
  "dispatched before its coordinator ended; whether it ran is unknown"

def outcomeUnmeasured : String := "unmeasured"

def detailNeverStarted : String := "never started: its coordinator ended first"

inductive TenantStoreError where
  | notAStore
  | formatVersion (found expected : UInt8)
  | corrupt (place : Nat)
  | encoding
  | limit (requested limit : Nat)
  | alreadyInitialised (tenant : String)
  | duplicateRun (run : String)
  | noSuchRun (tenant run : String)
  | laneLost (runId : String) (lane : UInt64) (step : String)
  deriving DecidableEq, Repr

structure Stored where
  kind : UInt8
  tenant : String
  runId : String
  repo : String
  host : String
  coordinatorPid : UInt32
  coordinatorLock : String
  moment : String
  lanes : List String
  laneIdx : UInt64
  verdict : String
  record : String
  sealed : String
  outcome : String
  detail : String
  tail : Bytes
  gatesJson : String
  hardness : UInt8
  deriving DecidableEq, Repr

structure RunStart where
  runId : String
  tenant : String
  repo : String
  host : String
  coordinatorPid : UInt32
  coordinatorLock : String
  startedAt : String
  deriving DecidableEq, Repr

namespace Stored

def empty (kind : UInt8) (tenant moment gatesJson : String) (hardness : UInt8) : Stored where
  kind
  tenant
  runId := ""
  repo := ""
  host := ""
  coordinatorPid := 0
  coordinatorLock := ""
  moment
  lanes := []
  laneIdx := 0
  verdict := ""
  record := ""
  sealed := ""
  outcome := ""
  detail := ""
  tail := []
  gatesJson
  hardness

def initPolicy (tenant gatesJson : String) (hardness : UInt8) (now : String) : Stored :=
  empty kindInitPolicy tenant now gatesJson hardness

def beginRun (run : RunStart) (lanes : List String) : Stored :=
  { empty kindBeginRun run.tenant run.startedAt "" 0 with
    runId := run.runId
    repo := run.repo
    host := run.host
    coordinatorPid := run.coordinatorPid
    coordinatorLock := run.coordinatorLock
    lanes }

def laneOp (kind : UInt8) (runId : String) (lane : UInt64) : Stored :=
  { empty kind "" "" "" 0 with
    runId
    laneIdx := lane }

def laneEnded (runId : String) (lane : UInt64) (outcome detail : String) (tail : Bytes) :
    Stored :=
  { laneOp kindLaneEnded runId lane with outcome, detail, tail }

def finishRun (runId verdict finishedAt record sealed : String) : Stored :=
  { laneOp kindFinishRun runId 0 with
    moment := finishedAt
    verdict
    record
    sealed }

def abandonRun (runId now : String) : Stored :=
  { laneOp kindAbandonRun runId 0 with moment := now }

end Stored

structure StoredPolicy where
  gatesJson : String
  hardness : UInt8
  createdAt : String
  deriving DecidableEq, Repr

structure StoredClose where
  finishedAt : String
  verdict : String
  reason : Option String
  record : Option String
  sealed : Option String
  deriving DecidableEq, Repr

def StoredClose.finished (moment verdict record sealed : String) : StoredClose :=
  ⟨moment, verdict, none, some record, some sealed⟩

def StoredClose.abandoned (moment : String) : StoredClose :=
  ⟨moment, verdictAbandoned, some reasonAbandoned, none, none⟩

inductive LaneState where
  | pending
  | dispatched
  | ended
  deriving DecidableEq, Repr

structure LaneEntry where
  id : String
  state : LaneState
  outcome : Option String
  detail : Option String
  tail : Option Bytes
  deriving DecidableEq, Repr

structure RunEntry where
  tenant : String
  repo : String
  host : String
  coordinatorPid : UInt32
  coordinatorLock : String
  startedAt : String
  close : Option StoredClose
  lanes : List LaneEntry
  deriving DecidableEq, Repr

structure Index where
  policies : Table String StoredPolicy
  runs : Table String RunEntry
  frames : Nat
  committed : Nat
  tail : Digest
  deriving DecidableEq, Repr

structure SnapshotFile where
  format : UInt8
  committed : Nat
  frames : Nat
  tail : Bytes
  policies : Table String StoredPolicy
  runs : Table String RunEntry
  deriving DecidableEq, Repr

/-- The digest, the archive format of the records, and the text form of the snapshot. -/
structure Wire where
  hash : Bytes → Digest
  toBytes : Stored → Option Bytes
  fromBytes : Bytes → Option Stored
  toVec : SnapshotFile → Bytes
  fromSlice : Bytes → Option SnapshotFile

/-- What the formats document: a record and a snapshot read back as what was written. -/
structure Wire.Lawful (wire : Wire) : Prop where
  record_roundTrip : ∀ {stored bytes}, wire.toBytes stored = some bytes →
    wire.fromBytes bytes = some stored
  snapshot_roundTrip : ∀ stored, wire.fromSlice (wire.toVec stored) = some stored

def genesisHead (wire : Wire) : Digest :=
  hashFramed wire.hash [utf8 "lgwks-tenant-store/genesis"]

def Stored.headFrom (wire : Wire) (record : Stored) (previous : Digest) (_archived : Bytes) :
    Digest :=
  hashFramed wire.hash <|
    [previous.bytes, [record.kind], utf8 record.tenant, utf8 record.runId, utf8 record.repo,
      utf8 record.host, Bytes.littleEndian 4 record.coordinatorPid.toNat,
      utf8 record.coordinatorLock, utf8 record.moment] ++ record.lanes.map utf8 ++
    [u64LE record.laneIdx, utf8 record.verdict, utf8 record.record, utf8 record.sealed,
      utf8 record.outcome, utf8 record.detail, record.tail, utf8 record.gatesJson,
      [record.hardness]]

def pendingLane (id : String) : LaneEntry := ⟨id, .pending, none, none, none⟩

def endLane (slot : LaneEntry) (outcome detail : String) : LaneEntry :=
  { slot with
    state := .ended
    outcome := some outcome
    detail := some detail }

def closeRun (entry : RunEntry) (close : StoredClose) : RunEntry :=
  { entry with close := some close }

def abandonLane (slot : LaneEntry) : LaneEntry :=
  if slot.state = .dispatched then endLane slot outcomeUnknown detailUnknown
  else if slot.state = .pending then endLane slot outcomeUnmeasured detailNeverStarted
  else slot

def laneSlot (entry : RunEntry) (idx : UInt64) (change : LaneEntry → LaneEntry) : RunEntry :=
  { entry with lanes := entry.lanes.modify idx.toNat change }

def foldRun (entry : RunEntry) (stored : Stored) : RunEntry :=
  if stored.kind = kindLaneDispatched then
    laneSlot entry stored.laneIdx fun slot => { slot with state := .dispatched }
  else if stored.kind = kindLaneEnded then
    laneSlot entry stored.laneIdx fun slot =>
      { endLane slot stored.outcome stored.detail with tail := some stored.tail }
  else if stored.kind = kindFinishRun then
    closeRun entry
      (.finished stored.moment stored.verdict stored.record stored.sealed)
  else if stored.kind = kindAbandonRun then
    { closeRun entry (.abandoned stored.moment) with lanes := entry.lanes.map abandonLane }
  else entry

def fold (index : Index) (stored : Stored) : Index :=
  if stored.kind = kindInitPolicy then
    { index with
      policies := index.policies.insert stored.tenant
        ⟨stored.gatesJson, stored.hardness, stored.moment⟩ }
  else if stored.kind = kindBeginRun then
    { index with
      runs := index.runs.insert stored.runId
        { tenant := stored.tenant
          repo := stored.repo
          host := stored.host
          coordinatorPid := stored.coordinatorPid
          coordinatorLock := stored.coordinatorLock
          startedAt := stored.moment
          close := none
          lanes := stored.lanes.map pendingLane } }
  else
    match index.runs.get stored.runId with
    | none => index
    | some entry => { index with runs := index.runs.insert stored.runId (foldRun entry stored) }

def frameOf (wire : Wire) (stored : Stored) (previous : Digest) :
    Except TenantStoreError (Bytes × Digest) :=
  frameRecord stored previous maxFrameBytes
    (fun record =>
      match wire.toBytes record with
      | some bytes => .ok bytes
      | none => .error .encoding)
    (Stored.headFrom wire)
    (fun len => .limit len maxFrameBytes)

def Index.fresh (wire : Wire) : Index := ⟨.empty, .empty, 0, headerLen, genesisHead wire⟩

end LogicalWorks.Tenant
