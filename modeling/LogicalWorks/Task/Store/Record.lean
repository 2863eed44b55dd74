import LogicalWorks.Lib.Table
import LogicalWorks.Task.Digests
import LogicalWorks.Task.FrameLog

/-! The run store's record, the index its records fold to, and the replay that rebuilds the
index from the file.  The archive format and the digest are parameters. -/
namespace LogicalWorks.Task.Store

open Journal

def maxRecordBytes : Nat := 256 * 1024

def maxRecordsPerRun : Nat := 65536

def maxStoreBytes : Nat := 64 * 1024 * 1024

def u64Max : Nat := 2 ^ 64 - 1

def storeFormat : UInt8 := 2

/-- The constant prefix of every run store's file, whose last byte is the version. -/
def storeMagic : Bytes := utf8 "lgwks-runstore" ++ [0, 0]

def versionByte : Nat := storeMagic.length - 1

def storeHeader : Bytes := storeMagic.set versionByte storeFormat

def checkFormatVersion (header : Bytes) : Except StoreError Unit :=
  if header.take versionByte ≠ storeMagic.take versionByte then .error .notAStore
  else
    let found := header.getD versionByte 0
    if found = storeFormat then .ok () else .error (.formatVersion found storeFormat)

structure DefinitionIdentity where
  name : String
  revision : UInt64
  input : Digest
  steps : UInt64
  codec : String
  deriving DecidableEq, Repr

structure StoredDefinition where
  name : String
  revision : UInt64
  input : Bytes
  steps : UInt64
  codec : String
  deriving DecidableEq, Repr

def StoredDefinition.of (identity : DefinitionIdentity) : StoredDefinition :=
  ⟨identity.name, identity.revision, identity.input.bytes, identity.steps, identity.codec⟩

def StoredDefinition.toIdentity (definition : StoredDefinition) : DefinitionIdentity :=
  ⟨definition.name, definition.revision, Digest.fromBytes definition.input, definition.steps,
    definition.codec⟩

structure Stored where
  run : RunId
  key : Bytes
  tenant : String
  path : String
  definition : StoredDefinition
  value : Bytes
  deriving DecidableEq, Repr

inductive ApprovalRecord where
  | pending
  | decision
  deriving DecidableEq, Repr

structure Wire where
  hash : Bytes → Digest
  storedToBytes : Stored → Option Bytes
  storedFromBytes : Bytes → Option Stored
  approvalFromBytes : Bytes → Option ApprovalRecord

/-- What the archive format documents: a record reads back as what was archived. -/
structure Wire.Lawful (wire : Wire) : Prop where
  stored_roundTrip : ∀ {stored bytes}, wire.storedToBytes stored = some bytes →
    wire.storedFromBytes bytes = some stored

structure Held where
  path : String
  bytes : Bytes
  deriving DecidableEq, Repr

/-- One run's records: the tenant that minted it, the definition it runs, and its steps by
the hex of their keys. -/
structure RunIndex where
  tenant : String
  definition : DefinitionIdentity
  steps : Table String Held
  deriving DecidableEq, Repr

/-- The index, the committed length it accounts for, and the records of the batch now
flushing. -/
structure Index where
  runs : Table RunId RunIndex
  committed : Nat
  tail : Digest
  pending : Table String Nat
  staged : Table (RunId × String) Bytes
  deriving DecidableEq, Repr

section

variable (wire : Wire)

def genesisHead : Digest := hashFramed wire.hash [utf8 "lgwks-runstore/genesis"]

def Stored.headFrom (stored : Stored) (previous : Digest) : Digest :=
  hashFramed wire.hash
    [previous.bytes, utf8 (hexOf (u128BE stored.run)), stored.key, utf8 stored.tenant,
      utf8 stored.path, utf8 stored.definition.name, u64LE stored.definition.revision,
      stored.definition.input, u64LE stored.definition.steps, utf8 stored.definition.codec,
      stored.value]

def format : Format Stored where
  header := storeHeader
  checkHeader
    | none => .error .notAStore
    | some header => checkFormatVersion header
  genesis := genesisHead wire
  archive := wire.storedToBytes
  decode := wire.storedFromBytes
  headFrom stored previous := stored.headFrom wire previous
  maxFrame := maxRecordBytes
  maxRecords := maxRecordsPerRun

/-- What the bytes under an approval step key hold. -/
inductive RecordClass where
  | pending
  | decision
  | other
  deriving DecidableEq, Repr

def classifyRecord (bytes : Bytes) : RecordClass :=
  match wire.approvalFromBytes bytes with
  | some .pending => .pending
  | some .decision => .decision
  | none => .other

def countApproval (pending : Table String Nat) (tenant : String) (bytes : Bytes) :
    Table String Nat :=
  match classifyRecord wire bytes with
  | .pending =>
    match pending.get tenant with
    | some held => pending.insert tenant (held + 1)
    | none => pending.insert tenant 1
  | .decision =>
    match pending.get tenant with
    | some held => pending.insert tenant (held - 1)
    | none => pending
  | .other => pending

structure Records where
  runs : Table RunId RunIndex
  pending : Table String Nat
  deriving DecidableEq, Repr

def noRecords : Records := ⟨.empty, .empty⟩

def insertStep (runs : Table RunId RunIndex) (stored : Stored) : Table RunId RunIndex :=
  let entry := (runs.get stored.run).getD
    ⟨stored.tenant, stored.definition.toIdentity, .empty⟩
  runs.insert stored.run
    { entry with steps := entry.steps.insert (hexOf stored.key) ⟨stored.path, stored.value⟩ }

def foldStored (records : Records) (read : Framed Stored) : Records where
  runs := insertStep records.runs read.record
  pending := countApproval wire records.pending read.record.tenant read.record.value

def indexOf (log : Replayed Records) : Index where
  runs := log.state.runs
  committed := log.committed
  tail := log.tail
  pending := log.state.pending
  staged := .empty

def replay (file : PositionedFile) : Except StoreError (Index × PositionedFile) :=
  match (format wire).replayLog (foldStored wire) noRecords file with
  | .error refusal => .error refusal
  | .ok (log, file) => .ok (indexOf log, file)

def openImpl (bytes : Bytes) : Except StoreError (Index × PositionedFile) :=
  match (format wire).openLog (foldStored wire) noRecords bytes with
  | .error refusal => .error refusal
  | .ok (log, file) => .ok (indexOf log, file)

end

/-- The archived bytes committed for a key under a run.  A run another tenant owns is a
refusal. -/
def lookup (index : Index) (tenant : String) (run : RunId) (key : Bytes) :
    Except StoreError (Option Held) :=
  match index.runs.get run with
  | none => .ok none
  | some held =>
    if held.tenant ≠ tenant then .error (.foreignTenant held.tenant tenant)
    else .ok (held.steps.get (hexOf key))

def stepOf (runs : Table RunId RunIndex) (run : RunId) (key : String) : Option Held :=
  (runs.get run).bind fun held => held.steps.get key

def tenantOf (runs : Table RunId RunIndex) (run : RunId) : Option String :=
  (runs.get run).map RunIndex.tenant

theorem stepOf_insertStep (runs : Table RunId RunIndex) (stored : Stored) (run : RunId)
    (key : String) : stepOf (insertStep runs stored) run key =
      if run = stored.run ∧ key = hexOf stored.key then some ⟨stored.path, stored.value⟩
      else stepOf runs run key := by
  unfold stepOf insertStep
  simp only [Table.get_insert]
  by_cases hrun : run = stored.run
  · rw [if_pos hrun, Option.bind_some, Table.get_insert, hrun]
    by_cases hkey : key = hexOf stored.key
    · rw [if_pos hkey, if_pos ⟨rfl, hkey⟩]
    · rw [if_neg hkey, if_neg (fun h => hkey h.2)]
      cases runs.get stored.run with
      | none => simp
      | some held => rfl
  · rw [if_neg hrun, if_neg (fun h => hrun h.1)]

theorem tenantOf_insertStep (runs : Table RunId RunIndex) (stored : Stored) (run : RunId) :
    tenantOf (insertStep runs stored) run =
      if run = stored.run then some ((tenantOf runs run).getD stored.tenant)
      else tenantOf runs run := by
  unfold tenantOf insertStep
  simp only [Table.get_insert]
  by_cases hrun : run = stored.run
  · rw [if_pos hrun, if_pos hrun, hrun]
    cases runs.get stored.run with
    | none => rfl
    | some held => rfl
  · rw [if_neg hrun, if_neg hrun]

theorem stepOf_foldl {wire : Wire} {run : RunId} {key : String} {held : Held}
    (frames : List (Framed Stored)) : ∀ {records : Records},
      stepOf (frames.foldl (foldStored wire) records).runs run key = some held →
      stepOf records.runs run key = some held ∨ ∃ read ∈ frames, read.record.run = run ∧
        hexOf read.record.key = key ∧ read.record.value = held.bytes := by
  induction frames with
  | nil =>
    intro records h
    exact .inl h
  | cons read rest ih =>
    intro records h
    rcases ih h with hbefore | ⟨later, hlater, hread⟩
    · change stepOf (insertStep records.runs read.record) run key = some held at hbefore
      rw [stepOf_insertStep] at hbefore
      split at hbefore
      · rename_i hplace
        cases hbefore
        exact .inr ⟨read, List.mem_cons_self, hplace.1.symm, hplace.2.symm, rfl⟩
      · exact .inl hbefore
    · exact .inr ⟨later, List.mem_cons_of_mem _ hlater, hread⟩

theorem tenantOf_foldl {wire : Wire} {run : RunId} {tenant : String}
    (frames : List (Framed Stored)) : ∀ {records : Records},
      tenantOf (frames.foldl (foldStored wire) records).runs run = some tenant →
      tenantOf records.runs run = some tenant ∨
        ∃ read ∈ frames, read.record.run = run ∧ read.record.tenant = tenant := by
  induction frames with
  | nil =>
    intro records h
    exact .inl h
  | cons read rest ih =>
    intro records h
    rcases ih h with hbefore | ⟨later, hlater, hread⟩
    · change tenantOf (insertStep records.runs read.record) run = some tenant at hbefore
      rw [tenantOf_insertStep] at hbefore
      split at hbefore
      · rename_i hrun
        cases htenant : tenantOf records.runs run with
        | none =>
          rw [htenant] at hbefore
          cases hbefore
          exact .inr ⟨read, List.mem_cons_self, hrun.symm, rfl⟩
        | some owner =>
          rw [htenant] at hbefore
          exact .inl hbefore
      · exact .inl hbefore
    · exact .inr ⟨later, List.mem_cons_of_mem _ hlater, hread⟩

theorem size_steps_foldl_le {wire : Wire} {run : RunId} (frames : List (Framed Stored)) :
    ∀ {records : Records} {bound : Nat},
      (∀ held, records.runs.get run = some held → held.steps.size ≤ bound) →
      ∀ held, (frames.foldl (foldStored wire) records).runs.get run = some held →
        held.steps.size ≤ bound + frames.length := by
  induction frames with
  | nil =>
    intro records bound h
    exact h
  | cons read rest ih =>
    intro records bound h held hheld
    rw [List.length_cons, ← Nat.add_assoc, Nat.add_right_comm]
    refine @ih (foldStored wire records read) (bound + 1) ?_ held hheld
    intro next hnext
    change (insertStep records.runs read.record).get run = some next at hnext
    unfold insertStep at hnext
    rw [Table.get_insert] at hnext
    split at hnext
    · rename_i hrun
      cases hnext
      refine Nat.le_trans (Table.size_insert_le _ _ _) (Nat.succ_le_succ ?_)
      cases hentry : records.runs.get read.record.run with
      | none => exact Nat.zero_le _
      | some entry => exact h entry (by rw [hrun, hentry])
    · exact Nat.le_succ_of_le (h next hnext)

theorem storeHeader_ne_nil : storeHeader ≠ [] := by
  decide +kernel

theorem checkFormatVersion_storeHeader : checkFormatVersion storeHeader = .ok () := by
  decide +kernel

theorem format_lawful {wire : Wire} (lawful : wire.Lawful) : (format wire).Lawful where
  header_ne_nil := storeHeader_ne_nil
  checkHeader_header := checkFormatVersion_storeHeader
  checkHeader_none := fun h => by cases h
  decode_archive := lawful.stored_roundTrip

end LogicalWorks.Task.Store
