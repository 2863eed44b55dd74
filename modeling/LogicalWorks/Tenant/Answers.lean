import LogicalWorks.Tenant.Overwrite

/-! What a mutation answers when a device refuses.  The commit point is the sync of the frame,
and one step of the mutation comes behind it: the snapshot. -/
namespace LogicalWorks.Tenant

open Journal LogicalWorks.Task

inductive Refusal where
  | busy
  | storage
  | store (cause : TenantStoreError)
  deriving DecidableEq, Repr

inductive SnapshotWrite where
  | written
  | refused (renamed : Bool)
  deriving DecidableEq, Repr

/-- How the devices take one mutation: whether the lock is taken, what a refused refresh left,
how much of the frame a refused write moved, whether the sync went well, and the snapshot. -/
structure Devices where
  lock : Bool
  refresh : Option (PositionedFile × Index)
  write : Option Nat
  sync : Bool
  snapshot : SnapshotWrite
  deriving DecidableEq, Repr

structure Standing where
  file : PositionedFile
  index : Index
  snapshotFrames : Nat
  snapshot : Option Bytes
  deriving DecidableEq, Repr

def maybeSnapshotOn (wire : Wire) (device : SnapshotWrite) (standing : Standing) :
    Except Refusal Unit × Standing :=
  if standing.index.frames - standing.snapshotFrames < snapshotIntervalFrames then
    (.ok (), standing)
  else
    let rewritten := { standing with snapshot := some (Snapshot.write wire standing.index) }
    match device with
    | .refused renamed => (.error .storage, if renamed then rewritten else standing)
    | .written => (.ok (), { rewritten with snapshotFrames := standing.index.frames })

def transactOn (wire : Wire) (devices : Devices) (standing : Standing) (operation : Operation) :
    Except Refusal Answer × Standing :=
  if devices.lock = false then (.error .busy, standing)
  else
    match devices.refresh with
    | some (file, index) => (.error .storage, { standing with file, index })
    | none =>
      match prepare wire standing.file standing.index operation with
      | (.error cause, file, index) => (.error (.store cause), { standing with file, index })
      | (.ok (none, answer), file, index) => (.ok answer, { standing with file, index })
      | (.ok (some write, answer), file, index) =>
        match devices.write with
        | some moved =>
          (.error .storage,
            { standing with file := file.writeAll (write.framed.take moved), index })
        | none =>
          let file := file.writeAll write.framed
          if devices.sync = false then (.error .storage, { standing with file, index })
          else
            match maybeSnapshotOn wire devices.snapshot
                { standing with file, index := index.commit write } with
            | (.error refusal, standing) => (.error refusal, standing)
            | (.ok (), standing) => (.ok answer, standing)

structure Commits (wire : Wire) (devices : Devices) (standing : Standing)
    (operation : Operation) (answer : Answer) : Prop where
  locked : devices.lock = true
  refreshed : devices.refresh = none
  prepared : ∃ write file index, prepare wire standing.file standing.index operation =
    (.ok (some write, answer), file, index)
  written : devices.write = none
  synced : devices.sync = true

def SnapshotDue (wire : Wire) (standing : Standing) : Prop :=
  snapshotIntervalFrames ≤
    (refresh wire standing.file standing.index).2.2.frames + 1 - standing.snapshotFrames

def Operation.found : Operation → Decision
  | .initPolicy tenant _ _ _ => .error (.alreadyInitialised tenant)
  | .beginRun run _ => .error (.duplicateRun run.runId)
  | .laneDispatched runId lane => .error (.laneLost runId lane "dispatch")
  | .laneEnded runId lane _ _ _ => .error (.laneLost runId lane "end")
  | .finishRun _ _ _ _ _ => .ok (none, .closed false)
  | .abandon _ _ => .ok (none, .closed false)

/-- A committed mutation is answered as committed, a refused one wrote nothing, and a retry
behind a refusal does not find its own frame. -/
structure AnswersCommitted (wire : Wire) (devices : Devices) (standing : Standing)
    (operation : Operation) : Prop where
  committed : ∀ answer, Commits wire devices standing operation answer →
    (transactOn wire devices standing operation).1 = .ok answer
  refused : ∀ file index cause,
    refresh wire standing.file standing.index = (.ok (), file, index) →
      operation.apply index = .error cause →
      (transactOn wire devices standing operation).1 = .error (.store cause) →
      (transactOn wire devices standing operation).2 = { standing with file, index }
  retried : ∀ refusal answer, (transactOn wire devices standing operation).1 = .error refusal →
    Commits wire devices standing operation answer →
      operation.apply (transactOn wire devices standing operation).2.index ≠ operation.found

section

variable {wire : Wire} {devices : Devices} {standing : Standing} {operation : Operation}

@[simp] theorem maybeSnapshotOn_index (device : SnapshotWrite) (standing : Standing) :
    (maybeSnapshotOn wire device standing).2.index = standing.index := by
  unfold maybeSnapshotOn
  split
  · rfl
  · cases device with
    | written => rfl
    | refused renamed => cases renamed <;> rfl

theorem maybeSnapshotOn_error_iff {device : SnapshotWrite} :
    (∃ refusal, (maybeSnapshotOn wire device standing).1 = .error refusal) ↔
      snapshotIntervalFrames ≤ standing.index.frames - standing.snapshotFrames ∧
        device ≠ .written := by
  unfold maybeSnapshotOn
  split
  · rename_i hsoon
    constructor
    · rintro ⟨refusal, h⟩
      cases h
    · rintro ⟨hdue, -⟩
      omega
  · rename_i hdue
    cases device with
    | written =>
      constructor
      · rintro ⟨refusal, h⟩
        cases h
      · rintro ⟨-, h⟩
        exact absurd rfl h
    | refused renamed =>
      constructor
      · intro _
        exact ⟨Nat.le_of_not_lt hdue, SnapshotWrite.noConfusion⟩
      · intro _
        exact ⟨.storage, rfl⟩

theorem onRun_absorb (kind : UInt8) {index : Index} {stored : Stored} {entry : RunEntry}
    {runId : String} (update : RunEntry → Decision) (hkind : stored.kind = kind)
    (hpolicy : kind ≠ kindInitPolicy) (hbegin : kind ≠ kindBeginRun) (hid : stored.runId = runId)
    (hrun : index.runs.get runId = some entry) :
    onRun (absorb wire index stored) runId update = update (foldRun entry stored) := by
  rw [← hkind] at hpolicy hbegin
  have hnext : (absorb wire index stored).runs.get runId = some (foldRun entry stored) := by
    change (fold index stored).runs.get runId = _
    rw [← hid] at hrun ⊢
    rw [fold_onRun hpolicy hbegin hrun]
    exact Table.get_insert_self _ _ _
  unfold onRun
  rw [hnext]

theorem laneReady_moved {entry : RunEntry} {runId step : String} {lane : UInt64}
    {slot : LaneEntry} {ready : LaneState → Bool} {change : LaneEntry → LaneEntry}
    (hslot : entry.lanes[lane.toNat]? = some slot) (hmoved : ready (change slot).state = false) :
    laneReady (laneSlot entry lane change) runId lane step ready =
      .error (.laneLost runId lane step) := by
  have hget : (laneSlot entry lane change).lanes[lane.toNat]? = some (change slot) := by
    rw [laneSlot, List.getElem?_modify_eq, hslot, Option.map_eq_map, Option.map_some]
  unfold laneReady
  rw [hget]
  simp only [hmoved, Bool.false_eq_true, if_false]

theorem apply_absorb {index : Index} {stored : Stored} {answer : Answer}
    (h : operation.apply index = .ok (some stored, answer)) :
    operation.apply (absorb wire index stored) = operation.found := by
  cases operation with
  | initPolicy tenant gatesJson hardness now =>
    simp only [Operation.apply, initPolicy] at h
    split at h
    · cases h
    · cases h
      have hpolicy : (absorb wire index (.initPolicy tenant gatesJson hardness now)).policies.get
          tenant = some ⟨gatesJson, hardness, now⟩ := Table.get_insert_self _ _ _
      simp only [Operation.apply, initPolicy, hpolicy, Option.isSome_some, if_true,
        Operation.found]
  | beginRun run lanes =>
    simp only [Operation.apply, beginRun] at h
    split at h
    · cases h
    · cases h
      have hrun : ((absorb wire index (.beginRun run lanes)).runs.get run.runId).isSome = true :=
        congrArg Option.isSome (Table.get_insert_self _ _ _)
      simp only [Operation.apply, beginRun, hrun, if_true, Operation.found]
  | laneDispatched runId lane =>
    obtain ⟨entry, hrun, h⟩ := onRun_ok h
    cases hready : laneReady entry runId lane "dispatch" isPending with
    | error refusal =>
      rw [hready] at h
      cases h
    | ok _ =>
      rw [hready] at h
      cases h
      obtain ⟨slot, hslot, -⟩ := laneReady_ok hready
      have hlost : laneReady (foldRun entry (.laneOp kindLaneDispatched runId lane)) runId lane
          "dispatch" isPending = .error (.laneLost runId lane "dispatch") :=
        laneReady_moved hslot rfl
      refine (onRun_absorb kindLaneDispatched _ rfl (by decide) (by decide) rfl hrun).trans ?_
      simp only [hlost, Operation.found]
  | laneEnded runId lane outcome detail tail =>
    obtain ⟨entry, hrun, h⟩ := onRun_ok h
    cases hready : laneReady entry runId lane "end" isOpenLane with
    | error refusal =>
      rw [hready] at h
      cases h
    | ok _ =>
      rw [hready] at h
      cases h
      obtain ⟨slot, hslot, -⟩ := laneReady_ok hready
      have hlost : laneReady (foldRun entry (.laneEnded runId lane outcome detail tail)) runId
          lane "end" isOpenLane = .error (.laneLost runId lane "end") :=
        laneReady_moved hslot rfl
      refine (onRun_absorb kindLaneEnded _ rfl (by decide) (by decide) rfl hrun).trans ?_
      simp only [hlost, Operation.found]
  | finishRun runId verdict finishedAt record sealed =>
    obtain ⟨entry, hrun, h⟩ := onRun_ok h
    obtain ⟨hdecision, -⟩ := Prod.mk.inj (Except.ok.inj h)
    obtain ⟨hopen, rfl⟩ := closeDecision_some hdecision
    exact onRun_absorb kindFinishRun _ rfl (by decide) (by decide) rfl hrun
  | abandon runId now =>
    obtain ⟨entry, hrun, h⟩ := onRun_ok h
    obtain ⟨hdecision, -⟩ := Prod.mk.inj (Except.ok.inj h)
    obtain ⟨hopen, rfl⟩ := closeDecision_some hdecision
    exact onRun_absorb kindAbandonRun _ rfl (by decide) (by decide) rfl hrun

/-- A committed mutation is refused exactly where a snapshot is due that its device refuses,
and its record is folded either way. -/
theorem transactOn_commits {answer : Answer} (h : Commits wire devices standing operation answer) :
    ((transactOn wire devices standing operation).1 = .ok answer ↔
        (SnapshotDue wire standing → devices.snapshot = .written)) ∧
      operation.apply (transactOn wire devices standing operation).2.index = operation.found := by
  obtain ⟨hlocked, hrefreshed, ⟨write, file, index, hprepare⟩, hwritten, hsynced⟩ := h
  obtain ⟨hrefresh, happly, -, -, hcommit⟩ := prepare_some hprepare
  generalize hsnapshot : maybeSnapshotOn wire devices.snapshot
    { standing with file := file.writeAll write.framed, index := index.commit write } = outcome
  have hindex : outcome.2.index = absorb wire index write.stored := by
    rw [← hsnapshot, maybeSnapshotOn_index, hcommit]
  have herror := @maybeSnapshotOn_error_iff wire
    { standing with file := file.writeAll write.framed, index := index.commit write }
    devices.snapshot
  have hdue : SnapshotDue wire standing ↔ snapshotIntervalFrames ≤
      (index.commit write).frames - standing.snapshotFrames := by
    rw [SnapshotDue, hrefresh, hcommit]
    rfl
  rw [hsnapshot, ← hdue] at herror
  obtain ⟨answered, last⟩ := outcome
  have hfound : operation.apply last.index = operation.found := by
    rw [hindex, apply_absorb happly]
  unfold transactOn
  simp only [hlocked, hrefreshed, hprepare, hwritten, hsynced, hsnapshot, Bool.true_eq_false,
    if_false]
  cases answered with
  | error refusal =>
    obtain ⟨hmust, hrefused⟩ := herror.mp ⟨refusal, rfl⟩
    refine ⟨iff_of_false (fun h => by cases h) (fun hall => hrefused (hall hmust)), hfound⟩
  | ok _ =>
    refine ⟨iff_of_true rfl ?_, hfound⟩
    intro hmust
    by_contra hrefused
    obtain ⟨refusal, h⟩ := herror.mpr ⟨hmust, hrefused⟩
    cases h

theorem transactOn_refused {file : PositionedFile} {index : Index} {cause : TenantStoreError}
    (hrefresh : refresh wire standing.file standing.index = (.ok (), file, index))
    (happly : operation.apply index = .error cause)
    (h : (transactOn wire devices standing operation).1 = .error (.store cause)) :
    (transactOn wire devices standing operation).2 = { standing with file, index } := by
  have hprepare : prepare wire standing.file standing.index operation =
      (.error cause, file, index) := by
    unfold prepare
    rw [hrefresh]
    simp only [happly]
  unfold transactOn at h ⊢
  split
  · rename_i hbusy
    rw [if_pos hbusy] at h
    cases h
  · rename_i hlocked
    rw [if_neg hlocked] at h
    split
    · rename_i hrefused
      rw [hrefused] at h
      cases h
    · rw [hprepare]

theorem transact_eq_transactOn {store : Store} {id : Nat} {held : Held} {last : Standing}
    {answered : Except Refusal Answer} (hlock : devices.lock = true)
    (hrefresh : devices.refresh = none) (hwrite : devices.write = none)
    (hsync : devices.sync = true) (hsnapshot : devices.snapshot = .written)
    (h : transactOn wire devices
      ⟨⟨store.bytes, held.position⟩, held.index, held.snapshotFrames, store.snapshot⟩ operation =
        (answered, last)) :
    ∃ written, store.transact wire id held operation =
      { bytes := last.file.bytes
        snapshot := last.snapshot
        handles := store.handles.insert id ⟨last.file.position, last.index, last.snapshotFrames⟩
        written := store.written ++ written } := by
  unfold transactOn at h
  simp only [hlock, hrefresh, hwrite, hsync, hsnapshot, Bool.true_eq_false, if_false] at h
  unfold Store.transact
  cases hprepare : prepare wire ⟨store.bytes, held.position⟩ held.index operation with
  | mk outcome rest =>
    rw [hprepare] at h
    cases outcome with
    | error cause =>
      cases h
      exact ⟨[], by rw [List.append_nil]⟩
    | ok decided =>
      obtain ⟨frame, answer⟩ := decided
      cases frame with
      | none =>
        cases h
        exact ⟨[], by rw [List.append_nil]⟩
      | some write =>
        refine ⟨[write.stored], ?_⟩
        simp only [maybeSnapshotOn] at h
        simp only [maybeSnapshot]
        by_cases hsoon : (rest.2.commit write).frames - held.snapshotFrames <
          snapshotIntervalFrames
        · simp only [hsoon, if_true] at h ⊢
          cases h
          rfl
        · simp only [hsoon, if_false] at h ⊢
          cases h
          rfl

/-- A mutation is answered as it was committed exactly where it commits nothing, no snapshot is
due behind it, or the snapshot's device does not refuse. -/
theorem answers_committed_iff :
    AnswersCommitted wire devices standing operation ↔
      ∀ answer, Commits wire devices standing operation answer → SnapshotDue wire standing →
        devices.snapshot = .written := by
  constructor
  · intro h answer hcommits
    exact (transactOn_commits hcommits).1.mp (h.committed answer hcommits)
  · intro h
    have hcommitted : ∀ answer, Commits wire devices standing operation answer →
        (transactOn wire devices standing operation).1 = .ok answer :=
      fun answer hcommits => (transactOn_commits hcommits).1.mpr (h answer hcommits)
    refine ⟨hcommitted, fun file index cause => transactOn_refused, ?_⟩
    intro refusal answer hrefused hcommits
    cases hrefused.symm.trans (hcommitted answer hcommits)

theorem commits_of_whole {stored : Stored} {answer : Answer} (hlock : devices.lock = true)
    (hrefresh : devices.refresh = none) (hwrite : devices.write = none)
    (hsync : devices.sync = true) (hwhole : standing.file.len = standing.index.committed)
    (happly : operation.apply standing.index = .ok (some stored, answer))
    (hwritable : Writable wire stored) : Commits wire devices standing operation answer := by
  refine ⟨hlock, hrefresh, ?_, hwrite, hsync⟩
  unfold prepare
  rw [refresh_whole hwhole]
  simp only [happly, frameOf_writable hwritable]
  exact ⟨_, _, _, rfl⟩

end

namespace PlainWire

open StreamCodec

/-- A store one frame short of its snapshot, and a handle at its end. -/
def dueStanding : Standing :=
  ⟨⟨fileOf plain (busyRecords 255), (fileOf plain (busyRecords 255)).length⟩,
    indexFor plain (busyRecords 255), 0, none⟩

def snapshotRefused : Devices := ⟨true, none, none, true, .refused false⟩

/-- The frame is written and synced, the mutation is answered as a failure, and its retry is told
that the tenant is initialised already. -/
theorem snapshot_refusal_answered :
    Commits plain snapshotRefused dueStanding (.initPolicy "x" "" 0 "") .done ∧
      (transactOn plain snapshotRefused dueStanding (.initPolicy "x" "" 0 "")).1 ≠ .ok .done ∧
      (Operation.initPolicy "x" "" 0 "").apply
          (transactOn plain snapshotRefused dueStanding (.initPolicy "x" "" 0 "")).2.index =
        .error (.alreadyInitialised "x") ∧
      ¬ AnswersCommitted plain snapshotRefused dueStanding (.initPolicy "x" "" 0 "") := by
  have hother : ∀ earlier, tenantName earlier ≠ "x" := by
    intro earlier hsame
    have hletters := congrArg String.toList hsame
    rw [tenantName, String.toList_ofList] at hletters
    have hmem : 'x' ∈ List.replicate earlier 'a' := by
      rw [hletters]
      decide
    exact absurd (List.eq_of_mem_replicate hmem) (by decide)
  have hnew : dueStanding.index.policies.get "x" = none :=
    policies_get_of_countP (busy_filled 255 (by decide)).1
      (countP_busyRecords fun earlier _ => hother earlier)
  have happly : (Operation.initPolicy "x" "" 0 "").apply dueStanding.index =
      .ok (some (.initPolicy "x" "" 0 ""), .done) := by
    simp [Operation.apply, initPolicy, hnew]
  have hwritable : Writable plain (.initPolicy "x" "" 0 "") := by
    refine writable_policy ?_
    decide +kernel
  have hwhole : dueStanding.file.len = dueStanding.index.committed := (committed_indexFor _).symm
  have hcommits : Commits plain snapshotRefused dueStanding (.initPolicy "x" "" 0 "") .done :=
    commits_of_whole rfl rfl rfl rfl hwhole happly hwritable
  have hdue : SnapshotDue plain dueStanding := by
    unfold SnapshotDue
    rw [refresh_whole hwhole]
    simp only [dueStanding, frames_indexFor, busyRecords, List.length_map, List.length_range]
    decide
  obtain ⟨hanswer, hfound⟩ := transactOn_commits hcommits
  have hrefused : (transactOn plain snapshotRefused dueStanding
      (.initPolicy "x" "" 0 "")).1 ≠ .ok .done := by
    intro hok
    cases hanswer.mp hok hdue
  exact ⟨hcommits, hrefused, hfound, fun h => hrefused (h.committed .done hcommits)⟩

end PlainWire

end LogicalWorks.Tenant
