import LogicalWorks.Owner.Batch
import LogicalWorks.Task.Store.Record

/-! The run store's ordered append, and the store behind its owner: callers submit, the
owner's thread runs batches, and the device may fail a write or a sync. -/
namespace LogicalWorks.Task.Store

open Journal Owner.Batch

structure Staged where
  record : Stored
  key : Digest
  record_key : record.key = key.bytes
  deriving DecidableEq, Repr

structure Disk where
  file : PositionedFile
  synced : Bytes
  deriving DecidableEq, Repr

def Disk.syncAll (disk : Disk) : Disk := { disk with synced := disk.file.bytes }

inductive Appended where
  | recorded
  | alreadyRecorded
  | conflicting
  deriving DecidableEq, Repr

inductive IoError where
  | store (cause : StoreError)
  | other (text : String)
  deriving DecidableEq, Repr

/-- What the device does to one ordered step: nothing, refuse it before it runs, or fail its
write after so many bytes. -/
inductive Fault where
  | none
  | refused
  | torn (moved : Nat)
  deriving DecidableEq, Repr

def storeFull (requested : Nat) : StoreError := .limit .storeBytes requested maxStoreBytes

def ownedAnswer (index : Index) (stored : Stored) (key : String) :
    Except StoreError (Option Appended) :=
  match index.runs.get stored.run with
  | none => .ok none
  | some owned =>
    if owned.tenant ≠ stored.tenant then .error (.foreignTenant owned.tenant stored.tenant)
    else
      match owned.steps.get key with
      | some step =>
        .ok (some (if step.bytes = stored.value then .alreadyRecorded else .conflicting))
      | none =>
        if maxRecordsPerRun ≤ owned.steps.size then
          .error (.limit .records (owned.steps.size + 1) maxRecordsPerRun)
        else .ok none

def stagedAnswer (index : Index) (stored : Stored) (key : String) : Option Appended :=
  (index.staged.get (stored.run, key)).map fun bytes =>
    if bytes = stored.value then .alreadyRecorded else .conflicting

structure Write where
  framed : Bytes
  head : Digest
  next : Nat

def prepareWrite (wire : Wire) (onDisk : Nat) (index : Index) (stored : Stored) :
    Except StoreError Write :=
  match (format wire).frame stored index.tail with
  | .error refusal => .error refusal
  | .ok (framed, head) =>
    let next := index.committed + framed.length
    if u64Max < next then .error (storeFull u64Max)
    else if maxStoreBytes < next then .error (storeFull next)
    else if onDisk ≠ index.committed then
      let held :=
        match index.runs.get stored.run with
        | some run => run.steps.size
        | none => 0
      .error (.corrupt held)
    else .ok ⟨framed, head, next⟩

def settle (wire : Wire) (stored : Stored) (index : Index) : Index :=
  { index with
    staged := index.staged.remove (stored.run, hexOf stored.key)
    pending := countApproval wire index.pending stored.tenant stored.value
    runs := insertStep index.runs stored }

def Index.stage (index : Index) (staged : Staged) (write : Write) : Index :=
  { index with
    committed := write.next
    tail := write.head
    staged := index.staged.insert (staged.record.run, hexOf staged.key.bytes)
      staged.record.value }

def decideAndWrite (wire : Wire) (staged : Staged) (fault : Fault) :
    Job Disk Index Appended IoError := fun disk index =>
  let stored := staged.record
  let key := hexOf staged.key.bytes
  match ownedAnswer index stored key with
  | .error refusal => (.error (.store refusal), disk, index)
  | .ok (some answer) => (.ok (.settled (.ok answer)), disk, index)
  | .ok none =>
    match stagedAnswer index stored key with
    | some answer => (.ok (.settled (.ok answer)), disk, index)
    | none =>
      match prepareWrite wire disk.file.len index stored with
      | .error refusal => (.error (.store refusal), disk, index)
      | .ok write =>
        let index := index.stage staged write
        match fault with
        | .torn moved =>
          -- the index already names the record when its write fails
          (.error (.store (.storage "the write failed")),
            { disk with file := disk.file.writeAll (write.framed.take moved) }, index)
        | .none | .refused =>
          (.ok (.unsynced .recorded write.framed.length (settle wire stored)),
            { disk with file := disk.file.writeAll write.framed }, index)

def appendOnOwner (wire : Wire) (staged : Staged) (fault : Fault) :
    Job Disk Index Appended IoError := fun disk index =>
  match fault with
  | .refused => (.error (.other "the injected device refusal"), disk, index)
  | fault => decideAndWrite wire staged fault disk index

abbrev RunStore := Handle Disk Index Staged Appended IoError

def flushRefusal : IoError :=
  .other "the batch's flush failed, so this record's outcome is unknown"

namespace RunStore

def opened (wire : Wire) (synced bytes : Bytes) : Except StoreError RunStore :=
  match openImpl wire bytes with
  | .error refusal => .error refusal
  | .ok (index, file) =>
    -- a header that was written and a tail that was trimmed are synced at once
    .ok (.spawn ⟨file, if file.bytes = bytes then synced else file.bytes⟩ index)

def created (wire : Wire) : RunStore :=
  .spawn ⟨⟨storeHeader, storeHeader.length⟩, storeHeader⟩
    (indexOf ((format wire).replayOf (foldStored wire) noRecords []))

theorem opened_nil {wire : Wire} (lawful : wire.Lawful) (synced : Bytes) :
    opened wire synced [] = .ok (created wire) := by
  have hfile : (format wire).fileOf [] = storeHeader := List.append_nil _
  unfold opened openImpl
  rw [Format.openLog_nil (format_lawful lawful), hfile]
  simp only [if_neg storeHeader_ne_nil]
  rfl

/-- What a party does: a caller submits, or the owner's thread runs a batch on a device with
the given faults. -/
inductive Action where
  | submit (request : Staged)
  | batch (served : List (Handle.Served Fault)) (flushed : Bool)
  deriving DecidableEq, Repr

def act (wire : Wire) (store : RunStore) : Action → RunStore
  | .submit request => store.submit request
  | .batch served flushed =>
    store.batch (appendOnOwner wire) Disk.syncAll flushRefusal served flushed

def Step (wire : Wire) (store : RunStore) (action : Action) (next : RunStore) : Prop :=
  store.act wire action = next

end RunStore

inductive AppendStep (wire : Wire) (staged : Staged) (fault : Fault) (disk : Disk)
    (index : Index) : Except IoError (Stage Index Appended IoError) × Disk × Index → Prop where
  | refused (cause : IoError) : AppendStep wire staged fault disk index (.error cause, disk, index)
  | owned (answer : Appended)
      (howned : ownedAnswer index staged.record (hexOf staged.key.bytes) = .ok (some answer))
      (hfault : fault ≠ .refused) :
      AppendStep wire staged fault disk index (.ok (.settled (.ok answer)), disk, index)
  | repeated (answer : Appended)
      (howned : ownedAnswer index staged.record (hexOf staged.key.bytes) = .ok none)
      (hstaged : stagedAnswer index staged.record (hexOf staged.key.bytes) = some answer)
      (hfault : fault ≠ .refused) :
      AppendStep wire staged fault disk index (.ok (.settled (.ok answer)), disk, index)
  | torn (write : Write) (moved : Nat) (cause : IoError)
      (howned : ownedAnswer index staged.record (hexOf staged.key.bytes) = .ok none)
      (hstaged : stagedAnswer index staged.record (hexOf staged.key.bytes) = none)
      (hwrite : prepareWrite wire disk.file.len index staged.record = .ok write)
      (hfault : fault = .torn moved) :
      AppendStep wire staged fault disk index
        (.error cause, { disk with file := disk.file.writeAll (write.framed.take moved) },
          index.stage staged write)
  | written (write : Write)
      (howned : ownedAnswer index staged.record (hexOf staged.key.bytes) = .ok none)
      (hstaged : stagedAnswer index staged.record (hexOf staged.key.bytes) = none)
      (hwrite : prepareWrite wire disk.file.len index staged.record = .ok write)
      (hfault : fault = .none) :
      AppendStep wire staged fault disk index
        (.ok (.unsynced .recorded write.framed.length (settle wire staged.record)),
          { disk with file := disk.file.writeAll write.framed }, index.stage staged write)

theorem appendStep (wire : Wire) (staged : Staged) (fault : Fault) (disk : Disk)
    (index : Index) :
    AppendStep wire staged fault disk index (appendOnOwner wire staged fault disk index) := by
  by_cases hrefused : fault = .refused
  · rw [hrefused]
    exact .refused _
  · have hdecide : appendOnOwner wire staged fault disk index =
        decideAndWrite wire staged fault disk index := by
      cases fault with
      | refused => exact absurd rfl hrefused
      | none => rfl
      | torn moved => rfl
    rw [hdecide]
    unfold decideAndWrite
    cases howned : ownedAnswer index staged.record (hexOf staged.key.bytes) with
    | error refusal =>
      simp only [howned]
      exact .refused _
    | ok owned =>
      cases owned with
      | some answer =>
        simp only [howned]
        exact .owned answer howned hrefused
      | none =>
        cases hstaged : stagedAnswer index staged.record (hexOf staged.key.bytes) with
        | some answer =>
          simp only [howned, hstaged]
          exact .repeated answer howned hstaged hrefused
        | none =>
          cases hwrite : prepareWrite wire disk.file.len index staged.record with
          | error refusal =>
            simp only [howned, hstaged, hwrite]
            exact .refused _
          | ok write =>
            simp only [howned, hstaged, hwrite]
            cases fault with
            | refused => exact absurd rfl hrefused
            | none => exact .written write howned hstaged hwrite rfl
            | torn moved => exact .torn write moved _ howned hstaged hwrite rfl

theorem prepareWrite_ok {wire : Wire} {onDisk : Nat} {index : Index} {stored : Stored}
    {write : Write} (h : prepareWrite wire onDisk index stored = .ok write) :
    (format wire).frame stored index.tail = .ok (write.framed, write.head) ∧
      write.next = index.committed + write.framed.length ∧ write.next ≤ maxStoreBytes ∧
      onDisk = index.committed := by
  unfold prepareWrite at h
  cases hframe : (format wire).frame stored index.tail with
  | error refusal =>
    rw [hframe] at h
    cases h
  | ok pair =>
    rw [hframe] at h
    simp only [] at h
    split at h
    · cases h
    · split at h
      · cases h
      · rename_i hroom
        split at h
        · cases h
        · rename_i hfence
          cases h
          exact ⟨rfl, rfl, Nat.le_of_not_lt hroom, not_not.mp hfence⟩

theorem prepareWrite_framed {wire : Wire} (lawful : wire.Lawful) {onDisk : Nat} {index : Index}
    {stored : Stored} {write : Write} (h : prepareWrite wire onDisk index stored = .ok write) :
    ∃ read : Framed Stored, read.record = stored ∧ write.framed = read.frame.bytes ∧
      write.head = read.frame.head ∧ (format wire).Chained index.tail [read] :=
  Format.frame_ok (format_lawful lawful) (prepareWrite_ok h).1

theorem ownedAnswer_some {index : Index} {stored : Stored} {key : String} {answer : Appended}
    (h : ownedAnswer index stored key = .ok (some answer)) :
    ∃ held, stepOf index.runs stored.run key = some held ∧
      answer = if held.bytes = stored.value then .alreadyRecorded else .conflicting := by
  unfold ownedAnswer at h
  unfold stepOf
  cases hrun : index.runs.get stored.run with
  | none =>
    simp only [hrun] at h
    cases h
  | some owned =>
    simp only [hrun] at h
    split at h
    · cases h
    · cases hstep : owned.steps.get key with
      | none =>
        simp only [hstep] at h
        split at h
        · cases h
        · cases h
      | some held =>
        simp only [hstep] at h
        cases h
        exact ⟨held, hstep, rfl⟩

theorem ownedAnswer_ne_recorded {index : Index} {stored : Stored} {key : String}
    {answer : Appended} (h : ownedAnswer index stored key = .ok (some answer)) :
    answer ≠ .recorded := by
  obtain ⟨held, -, rfl⟩ := ownedAnswer_some h
  split <;> simp

theorem stagedAnswer_ne_recorded {index : Index} {stored : Stored} {key : String}
    {answer : Appended} (h : stagedAnswer index stored key = some answer) :
    answer ≠ .recorded := by
  unfold stagedAnswer at h
  obtain ⟨value, -, rfl⟩ := Option.map_eq_some_iff.mp h
  split <;> simp

/-- A record the settled index leaves open is not in it, and its run is its tenant's or
nobody's. -/
theorem ownedAnswer_none {index : Index} {stored : Stored} {key : String}
    (h : ownedAnswer index stored key = .ok none) :
    stepOf index.runs stored.run key = none ∧
      ∀ tenant, tenantOf index.runs stored.run = some tenant → tenant = stored.tenant := by
  unfold ownedAnswer at h
  unfold stepOf tenantOf
  cases hrun : index.runs.get stored.run with
  | none =>
    refine ⟨rfl, ?_⟩
    intro tenant htenant
    cases htenant
  | some owned =>
    simp only [hrun] at h
    split at h
    · cases h
    · rename_i htenant
      cases hstep : owned.steps.get key with
      | none =>
        refine ⟨hstep, ?_⟩
        intro tenant hmine
        cases hmine
        exact not_not.mp htenant
      | some held =>
        simp only [hstep] at h
        cases h

theorem ownedAnswer_of_fresh {index : Index} {stored : Stored} {key : String}
    (hstep : stepOf index.runs stored.run key = none)
    (htenant : ∀ tenant, tenantOf index.runs stored.run = some tenant → tenant = stored.tenant)
    (hroom : ∀ held, index.runs.get stored.run = some held → held.steps.size < maxRecordsPerRun) :
    ownedAnswer index stored key = .ok none := by
  unfold stepOf at hstep
  unfold tenantOf at htenant
  unfold ownedAnswer
  cases hrun : index.runs.get stored.run with
  | none => rfl
  | some owned =>
    rw [hrun] at hstep htenant
    have hmine := htenant owned.tenant rfl
    have hless := hroom owned hrun
    simp only [Option.bind_some] at hstep
    simp only [hstep]
    rw [if_neg (not_not.mpr hmine), if_neg (by omega)]

/-- A record of an allowed size goes behind a file that holds what the index accounts for. -/
theorem prepareWrite_of_fits {wire : Wire} {index : Index} {stored : Stored} {payload : Bytes}
    (harchive : wire.storedToBytes stored = some payload)
    (hfits : (⟨payload, stored.headFrom wire index.tail⟩ : Frame).Fits maxRecordBytes)
    (hroom : index.committed + framedLen payload.length ≤ maxStoreBytes) :
    prepareWrite wire index.committed index stored = .ok
      ⟨(⟨payload, stored.headFrom wire index.tail⟩ : Frame).bytes, stored.headFrom wire index.tail,
        index.committed + framedLen payload.length⟩ := by
  have hframe : (format wire).frame stored index.tail = .ok
      ((⟨payload, stored.headFrom wire index.tail⟩ : Frame).bytes,
        stored.headFrom wire index.tail) := by
    refine @frameRecord_of_fits _ _ _ _ _ _
      (fun (record : Stored) previous _ => record.headFrom wire previous) _ _ ?_ hfits
    simp only [format, harchive]
  have hbelow : maxStoreBytes ≤ u64Max := by decide
  unfold prepareWrite
  rw [hframe]
  simp only [Frame.length_bytes]
  rw [if_neg (by omega), if_neg (by omega), if_neg (not_not.mpr rfl)]

end LogicalWorks.Task.Store
