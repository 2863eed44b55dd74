import LogicalWorks.Lib.Run
import LogicalWorks.Tenant.Snapshot

/-! The tenant store's operations, and the store as its coordinators share it: any number of
handles on one file, each with its own position and index, one step at a time under the host
lock. -/
namespace LogicalWorks.Tenant

open Journal LogicalWorks.Task

def snapshotIntervalFrames : Nat := 256

/-- A closer's whole answer for one run: the frame to commit and whether the run was open. -/
def closeDecision (entry : RunEntry) (stored : Stored) : Option Stored × Bool :=
  if entry.close.isSome then (none, false) else (some stored, true)

def isPending (state : LaneState) : Bool := state = .pending

def isOpenLane (state : LaneState) : Bool := state ≠ .ended

/-- Whether a lane step may act: the lane exists and its state satisfies the step's own
readiness. -/
def laneReady (entry : RunEntry) (runId : String) (lane : UInt64) (step : String)
    (ready : LaneState → Bool) : Except TenantStoreError Unit :=
  match entry.lanes[lane.toNat]? with
  | none => .error (.laneLost runId lane step)
  | some slot => if ready slot.state then .ok () else .error (.laneLost runId lane step)

inductive Answer where
  | done
  | closed (wasOpen : Bool)
  deriving DecidableEq, Repr

/-- What an operation makes of the refreshed index: a refusal, or a record to commit, if
any, and its answer. -/
abbrev Decision := Except TenantStoreError (Option Stored × Answer)

def onRun (index : Index) (runId : String) (update : RunEntry → Decision) : Decision :=
  match index.runs.get runId with
  | none => .error (.noSuchRun "" runId)
  | some entry => update entry

def initPolicy (tenant gatesJson : String) (hardness : UInt8) (now : String) (index : Index) :
    Decision :=
  if (index.policies.get tenant).isSome then .error (.alreadyInitialised tenant)
  else .ok (some (.initPolicy tenant gatesJson hardness now), .done)

def beginRun (run : RunStart) (lanes : List String) (index : Index) : Decision :=
  if (index.runs.get run.runId).isSome then .error (.duplicateRun run.runId)
  else .ok (some (.beginRun run lanes), .done)

def laneDispatched (runId : String) (lane : UInt64) (index : Index) : Decision :=
  onRun index runId fun entry =>
    match laneReady entry runId lane "dispatch" isPending with
    | .error refusal => .error refusal
    | .ok () => .ok (some (.laneOp kindLaneDispatched runId lane), .done)

def laneEnded (runId : String) (lane : UInt64) (outcome detail : String) (tail : Bytes)
    (index : Index) : Decision :=
  onRun index runId fun entry =>
    match laneReady entry runId lane "end" isOpenLane with
    | .error refusal => .error refusal
    | .ok () => .ok (some (.laneEnded runId lane outcome detail tail), .done)

def finishRun (runId verdict finishedAt record sealed : String) (index : Index) : Decision :=
  onRun index runId fun entry =>
    let decision := closeDecision entry (.finishRun runId verdict finishedAt record sealed)
    .ok (decision.1, .closed decision.2)

def abandon (runId now : String) (index : Index) : Decision :=
  onRun index runId fun entry =>
    let decision := closeDecision entry (.abandonRun runId now)
    .ok (decision.1, .closed decision.2)

inductive Operation where
  | initPolicy (tenant gatesJson : String) (hardness : UInt8) (now : String)
  | beginRun (run : RunStart) (lanes : List String)
  | laneDispatched (runId : String) (lane : UInt64)
  | laneEnded (runId : String) (lane : UInt64) (outcome detail : String) (tail : Bytes)
  | finishRun (runId verdict finishedAt record sealed : String)
  | abandon (runId now : String)
  deriving DecidableEq, Repr

def Operation.apply (operation : Operation) (index : Index) : Decision :=
  match operation with
  | .initPolicy tenant gatesJson hardness now =>
    Tenant.initPolicy tenant gatesJson hardness now index
  | .beginRun run lanes => Tenant.beginRun run lanes index
  | .laneDispatched runId lane => Tenant.laneDispatched runId lane index
  | .laneEnded runId lane outcome detail tail =>
    Tenant.laneEnded runId lane outcome detail tail index
  | .finishRun runId verdict finishedAt record sealed =>
    Tenant.finishRun runId verdict finishedAt record sealed index
  | .abandon runId now => Tenant.abandon runId now index

/-- The records an operation can bring about on an index, each with what was checked for
it. -/
inductive Brings (index : Index) : Stored → Prop where
  | initPolicy (tenant gatesJson : String) (hardness : UInt8) (now : String)
      (hnew : index.policies.get tenant = none) :
      Brings index (.initPolicy tenant gatesJson hardness now)
  | beginRun (run : RunStart) (lanes : List String) (hnew : index.runs.get run.runId = none) :
      Brings index (.beginRun run lanes)
  | laneDispatched (runId : String) (lane : UInt64) (entry : RunEntry) (slot : LaneEntry)
      (hrun : index.runs.get runId = some entry) (hslot : entry.lanes[lane.toNat]? = some slot)
      (hpending : slot.state = .pending) :
      Brings index (.laneOp kindLaneDispatched runId lane)
  | laneEnded (runId : String) (lane : UInt64) (outcome detail : String) (tail : Bytes)
      (entry : RunEntry) (slot : LaneEntry) (hrun : index.runs.get runId = some entry)
      (hslot : entry.lanes[lane.toNat]? = some slot) (hopen : slot.state ≠ .ended) :
      Brings index (.laneEnded runId lane outcome detail tail)
  | finishRun (runId verdict finishedAt record sealed : String) (entry : RunEntry)
      (hrun : index.runs.get runId = some entry) (hopen : entry.close = none) :
      Brings index (.finishRun runId verdict finishedAt record sealed)
  | abandon (runId now : String) (entry : RunEntry)
      (hrun : index.runs.get runId = some entry) (hopen : entry.close = none) :
      Brings index (.abandonRun runId now)

theorem onRun_ok {index : Index} {runId : String} {update : RunEntry → Decision}
    {decided : Option Stored × Answer} (h : onRun index runId update = .ok decided) :
    ∃ entry, index.runs.get runId = some entry ∧ update entry = .ok decided := by
  unfold onRun at h
  cases hrun : index.runs.get runId with
  | none =>
    rw [hrun] at h
    cases h
  | some entry =>
    rw [hrun] at h
    exact ⟨entry, rfl, h⟩

theorem laneReady_ok {entry : RunEntry} {runId : String} {lane : UInt64} {step : String}
    {ready : LaneState → Bool} (h : laneReady entry runId lane step ready = .ok ()) :
    ∃ slot, entry.lanes[lane.toNat]? = some slot ∧ ready slot.state = true := by
  unfold laneReady at h
  cases hslot : entry.lanes[lane.toNat]? with
  | none =>
    rw [hslot] at h
    cases h
  | some slot =>
    rw [hslot] at h
    simp only [] at h
    split at h
    · rename_i hready
      exact ⟨slot, rfl, hready⟩
    · cases h

theorem closeDecision_some {entry : RunEntry} {stored committed : Stored}
    (h : (closeDecision entry stored).1 = some committed) :
    entry.close = none ∧ stored = committed := by
  unfold closeDecision at h
  split at h
  · cases h
  · rename_i hopen
    cases h
    rw [Bool.not_eq_true, Option.isSome_eq_false_iff, Option.isNone_iff_eq_none] at hopen
    exact ⟨hopen, rfl⟩

theorem apply_some {operation : Operation} {index : Index} {stored : Stored} {answer : Answer}
    (h : operation.apply index = .ok (some stored, answer)) : Brings index stored := by
  cases operation with
  | initPolicy tenant gatesJson hardness now =>
    simp only [Operation.apply, initPolicy] at h
    split at h
    · cases h
    · rename_i hnew
      cases h
      rw [Bool.not_eq_true, Option.isSome_eq_false_iff, Option.isNone_iff_eq_none] at hnew
      exact .initPolicy _ _ _ _ hnew
  | beginRun run lanes =>
    simp only [Operation.apply, beginRun] at h
    split at h
    · cases h
    · rename_i hnew
      cases h
      rw [Bool.not_eq_true, Option.isSome_eq_false_iff, Option.isNone_iff_eq_none] at hnew
      exact .beginRun _ _ hnew
  | laneDispatched runId lane =>
    obtain ⟨entry, hrun, h⟩ := onRun_ok h
    cases hready : laneReady entry runId lane "dispatch" isPending with
    | error refusal =>
      rw [hready] at h
      cases h
    | ok _ =>
      rw [hready] at h
      cases h
      obtain ⟨slot, hslot, hpending⟩ := laneReady_ok hready
      exact .laneDispatched _ _ entry slot hrun hslot (of_decide_eq_true hpending)
  | laneEnded runId lane outcome detail tail =>
    obtain ⟨entry, hrun, h⟩ := onRun_ok h
    cases hready : laneReady entry runId lane "end" isOpenLane with
    | error refusal =>
      rw [hready] at h
      cases h
    | ok _ =>
      rw [hready] at h
      cases h
      obtain ⟨slot, hslot, hopen⟩ := laneReady_ok hready
      exact .laneEnded _ _ _ _ _ entry slot hrun hslot (of_decide_eq_true hopen)
  | finishRun runId verdict finishedAt record sealed =>
    obtain ⟨entry, hrun, h⟩ := onRun_ok h
    obtain ⟨hdecision, -⟩ := Prod.mk.inj (Except.ok.inj h)
    obtain ⟨hopen, rfl⟩ := closeDecision_some hdecision
    exact .finishRun _ _ _ _ _ entry hrun hopen
  | abandon runId now =>
    obtain ⟨entry, hrun, h⟩ := onRun_ok h
    obtain ⟨hdecision, -⟩ := Prod.mk.inj (Except.ok.inj h)
    obtain ⟨hopen, rfl⟩ := closeDecision_some hdecision
    exact .abandon _ _ entry hrun hopen

theorem Brings.known {index : Index} {stored : Stored} (h : Brings index stored) :
    isKnownKind stored.kind = true := by
  cases h with
  | initPolicy | beginRun | laneDispatched | laneEnded | finishRun | abandon => rfl

structure Write where
  stored : Stored
  framed : Bytes
  head : Digest
  deriving DecidableEq, Repr

def prepare (wire : Wire) (file : PositionedFile) (index : Index) (operation : Operation) :
    Except TenantStoreError (Option Write × Answer) × PositionedFile × Index :=
  match refresh wire file index with
  | (.error refusal, file, index) => (.error refusal, file, index)
  | (.ok (), file, index) =>
    match operation.apply index with
    | .error refusal => (.error refusal, file, index)
    | .ok (none, answer) => (.ok (none, answer), file, index)
    | .ok (some stored, answer) =>
      match frameOf wire stored index.tail with
      | .error refusal => (.error refusal, file, index)
      | .ok (framed, head) => (.ok (some ⟨stored, framed, head⟩, answer), file, index)

def Index.commit (index : Index) (write : Write) : Index :=
  fold
    { index with
      committed := index.committed + write.framed.length
      tail := write.head
      frames := index.frames + 1 } write.stored

/-- The snapshot and the frames it accounts for, rewritten when the index moved far enough
past it. -/
def maybeSnapshot (wire : Wire) (index : Index) (snapshotFrames : Nat)
    (snapshot : Option Bytes) : Option Bytes × Nat :=
  if index.frames - snapshotFrames < snapshotIntervalFrames then (snapshot, snapshotFrames)
  else (some (Snapshot.write wire index), index.frames)

def openHeaderFile (bytes : Bytes) : PositionedFile :=
  if bytes.length = 0 then (⟨bytes, 0⟩ : PositionedFile).writeAll header else ⟨bytes, 0⟩

/-- One open handle: where it stands, what it has folded, and the frames of the snapshot it
knows of. -/
structure Held where
  position : Nat
  index : Index
  snapshotFrames : Nat
  deriving DecidableEq, Repr

def openHandle (wire : Wire) (bytes : Bytes) (snapshot : Option Bytes) :
    Except TenantStoreError Held × Bytes × Option Bytes :=
  match loadIndex wire (openHeaderFile bytes) snapshot with
  | (.error refusal, file, _) => (.error refusal, file.bytes, snapshot)
  | (.ok (), file, index) =>
    let file := trimToCommitted file index
    let loaded := ((Snapshot.read wire snapshot).map Snapshot.frames).getD 0
    let (snapshot, frames) := maybeSnapshot wire index loaded snapshot
    (.ok ⟨file.position, index, frames⟩, file.bytes, snapshot)

/-- The directory, its open handles, and every record whose whole frame was written. -/
structure Store where
  bytes : Bytes
  snapshot : Option Bytes
  handles : Table Nat Held
  written : List Stored
  deriving DecidableEq, Repr

/-- What happens to a store: a handle is opened, transacts or observes; a process dies while it
writes a new file's header or a record's frame; the snapshot is lost. -/
inductive Action where
  | opens (id : Nat)
  | transact (id : Nat) (operation : Operation)
  | observe (id : Nat)
  | crashOpen (id moved : Nat)
  | crashTransact (id : Nat) (operation : Operation) (moved : Nat)
  | loseSnapshot
  deriving DecidableEq, Repr

namespace Store

def empty : Store := ⟨[], none, .empty, []⟩

def opens (wire : Wire) (store : Store) (id : Nat) : Store :=
  match openHandle wire store.bytes store.snapshot with
  | (.error _, bytes, snapshot) =>
    { store with bytes, snapshot, handles := store.handles.remove id }
  | (.ok held, bytes, snapshot) =>
    { store with bytes, snapshot, handles := store.handles.insert id held }

def transact (wire : Wire) (store : Store) (id : Nat) (held : Held) (operation : Operation) :
    Store :=
  match prepare wire ⟨store.bytes, held.position⟩ held.index operation with
  | (.ok (some write, _), file, index) =>
    let file := file.writeAll write.framed
    let index := index.commit write
    let (snapshot, frames) := maybeSnapshot wire index held.snapshotFrames store.snapshot
    { bytes := file.bytes
      snapshot
      handles := store.handles.insert id ⟨file.position, index, frames⟩
      written := store.written ++ [write.stored] }
  | (_, file, index) =>
    { store with
      bytes := file.bytes
      handles := store.handles.insert id ⟨file.position, index, held.snapshotFrames⟩ }

def observe (wire : Wire) (store : Store) (id : Nat) (held : Held) : Store :=
  match refresh wire ⟨store.bytes, held.position⟩ held.index with
  | (_, file, index) =>
    { store with
      bytes := file.bytes
      handles := store.handles.insert id ⟨file.position, index, held.snapshotFrames⟩ }

/-- The process behind a handle dies after so many bytes of its record's frame. -/
def crashTransact (wire : Wire) (store : Store) (id : Nat) (held : Held) (operation : Operation)
    (moved : Nat) : Store :=
  match prepare wire ⟨store.bytes, held.position⟩ held.index operation with
  | (.ok (some write, _), file, _) =>
    { store with
      bytes := (file.writeAll (write.framed.take moved)).bytes
      handles := store.handles.remove id
      written := store.written ++ if write.framed.length ≤ moved then [write.stored] else [] }
  | (_, file, _) => { store with bytes := file.bytes, handles := store.handles.remove id }

def act (wire : Wire) (store : Store) : Action → Store
  | .opens id => store.opens wire id
  | .transact id operation =>
    match store.handles.get id with
    | none => store
    | some held => store.transact wire id held operation
  | .observe id =>
    match store.handles.get id with
    | none => store
    | some held => store.observe wire id held
  | .crashOpen id moved =>
    { store with
      bytes := if store.bytes.length = 0 then header.take moved else store.bytes
      handles := store.handles.remove id }
  | .crashTransact id operation moved =>
    match store.handles.get id with
    | none => store
    | some held => store.crashTransact wire id held operation moved
  | .loseSnapshot => { store with snapshot := none }

def Step (wire : Wire) (store : Store) (action : Action) (next : Store) : Prop :=
  store.act wire action = next

end Store

end LogicalWorks.Tenant
