import LogicalWorks.Journal.PlainWire
import LogicalWorks.Tenant.Record
import LogicalWorks.Tenant.Replay

/-! The tenant store on formats that behave as the real ones are documented to, plain enough
to be evaluated. -/
namespace LogicalWorks.Tenant.PlainWire

open Journal StreamCodec
open Journal.PlainWire (byte word)

def processId : StreamCodec UInt32 :=
  number.map UInt32.ofNat UInt32.toNat (fun _ => UInt32.ofNat_toNat)

def digest : StreamCodec Digest :=
  bytes.map Digest.fromBytes Digest.bytes (fun value => Digest.fromBytes_bytes value)

def stored : StreamCodec Stored :=
  ((byte.pair (text.pair (text.pair (text.pair (text.pair (processId.pair (text.pair
      (text.pair (list text)))))))) ).pair
    (word.pair (text.pair (text.pair (text.pair (text.pair (text.pair (bytes.pair
      (text.pair byte))))))))).map
    (fun parts =>
      { kind := parts.1.1
        tenant := parts.1.2.1
        runId := parts.1.2.2.1
        repo := parts.1.2.2.2.1
        host := parts.1.2.2.2.2.1
        coordinatorPid := parts.1.2.2.2.2.2.1
        coordinatorLock := parts.1.2.2.2.2.2.2.1
        moment := parts.1.2.2.2.2.2.2.2.1
        lanes := parts.1.2.2.2.2.2.2.2.2
        laneIdx := parts.2.1
        verdict := parts.2.2.1
        record := parts.2.2.2.1
        sealed := parts.2.2.2.2.1
        outcome := parts.2.2.2.2.2.1
        detail := parts.2.2.2.2.2.2.1
        tail := parts.2.2.2.2.2.2.2.1
        gatesJson := parts.2.2.2.2.2.2.2.2.1
        hardness := parts.2.2.2.2.2.2.2.2.2 })
    (fun value =>
      ((value.kind, value.tenant, value.runId, value.repo, value.host, value.coordinatorPid,
          value.coordinatorLock, value.moment, value.lanes),
        value.laneIdx, value.verdict, value.record, value.sealed, value.outcome, value.detail,
        value.tail, value.gatesJson, value.hardness))
    (fun _ => rfl)

def table {α : Type} (codec : StreamCodec α) : StreamCodec (Table String α) :=
  (list (text.pair codec)).map Table.mk Table.rows (fun _ => rfl)

def policy : StreamCodec StoredPolicy :=
  (text.pair (byte.pair text)).map (fun parts => ⟨parts.1, parts.2.1, parts.2.2⟩)
    (fun value => (value.gatesJson, value.hardness, value.createdAt)) (fun _ => rfl)

def close : StreamCodec StoredClose :=
  (text.pair (text.pair (text.option.pair (text.option.pair text.option)))).map
    (fun parts => ⟨parts.1, parts.2.1, parts.2.2.1, parts.2.2.2.1, parts.2.2.2.2⟩)
    (fun value => (value.finishedAt, value.verdict, value.reason, value.record, value.sealed))
    (fun _ => rfl)

def laneState : StreamCodec LaneState :=
  byte.map (fun code => if code = 0 then .pending else if code = 1 then .dispatched else .ended)
    (fun
      | .pending => 0
      | .dispatched => 1
      | .ended => 2)
    (fun value => by cases value <;> rfl)

def lane : StreamCodec LaneEntry :=
  (text.pair (laneState.pair (text.option.pair (text.option.pair bytes.option)))).map
    (fun parts => ⟨parts.1, parts.2.1, parts.2.2.1, parts.2.2.2.1, parts.2.2.2.2⟩)
    (fun value => (value.id, value.state, value.outcome, value.detail, value.tail))
    (fun _ => rfl)

def run : StreamCodec RunEntry :=
  (text.pair (text.pair (text.pair (processId.pair (text.pair (text.pair
    (close.option.pair (list lane)))))))).map
    (fun parts =>
      { tenant := parts.1
        repo := parts.2.1
        host := parts.2.2.1
        coordinatorPid := parts.2.2.2.1
        coordinatorLock := parts.2.2.2.2.1
        startedAt := parts.2.2.2.2.2.1
        close := parts.2.2.2.2.2.2.1
        lanes := parts.2.2.2.2.2.2.2 })
    (fun value =>
      (value.tenant, value.repo, value.host, value.coordinatorPid, value.coordinatorLock,
        value.startedAt, value.close, value.lanes))
    (fun _ => rfl)

def snapshot : StreamCodec SnapshotFile :=
  (byte.pair (number.pair (number.pair (bytes.pair ((table policy).pair (table run)))))).map
    (fun parts => ⟨parts.1, parts.2.1, parts.2.2.1, parts.2.2.2.1, parts.2.2.2.2.1,
      parts.2.2.2.2.2⟩)
    (fun value => (value.format, value.committed, value.frames, value.tail, value.policies,
      value.runs))
    (fun _ => rfl)

def plain : Wire where
  hash := Journal.PlainWire.checksum 1
  toBytes value := some (stored.encode value)
  fromBytes := stored.decodeAll
  toVec := snapshot.encode
  fromSlice := snapshot.decodeAll

theorem lawful : plain.Lawful where
  record_roundTrip := by
    intro value encoded h
    cases h
    exact stored.decodeAll_encode value
  snapshot_roundTrip := snapshot.decodeAll_encode

end LogicalWorks.Tenant.PlainWire

/-! The snapshot beside the store: the folded index and the length it accounts for.  The file
stays the truth, and the snapshot only the shortcut. -/
namespace LogicalWorks.Tenant

open Journal LogicalWorks.Task

def snapshotFormat : UInt8 := 1

structure Snapshot where
  policies : Table String StoredPolicy
  runs : Table String RunEntry
  frames : Nat
  committed : Nat
  tail : Bytes
  deriving DecidableEq, Repr

namespace Snapshot

variable {wire : Wire}

def read (wire : Wire) : Option Bytes → Option Snapshot
  | none => none
  | some bytes =>
    match wire.fromSlice bytes with
    | none => none
    | some stored =>
      if stored.format ≠ snapshotFormat then none
      else if stored.tail.length ≠ headBytes then none
      else if stored.committed < headerLen then none
      else some ⟨stored.policies, stored.runs, stored.frames, stored.committed, stored.tail⟩

def write (wire : Wire) (index : Index) : Bytes :=
  wire.toVec
    ⟨snapshotFormat, index.committed, index.frames, index.tail.bytes, index.policies, index.runs⟩

def toIndex (snapshot : Snapshot) : Index :=
  ⟨snapshot.policies, snapshot.runs, snapshot.frames, snapshot.committed,
    .fromBytes snapshot.tail⟩

theorem read_write (lawful : wire.Lawful) {index : Index} (h : headerLen ≤ index.committed) :
    ∃ loaded, read wire (some (write wire index)) = some loaded ∧ loaded.toIndex = index := by
  refine ⟨⟨index.policies, index.runs, index.frames, index.committed, index.tail.bytes⟩, ?_, ?_⟩
  · unfold read write
    simp only [lawful.snapshot_roundTrip]
    rw [if_neg (not_not.mpr rfl), if_neg (not_not.mpr index.tail.length_bytes),
      if_neg (Nat.not_lt_of_le h)]
  · simp only [toIndex, Digest.fromBytes_bytes]

end Snapshot

def loadIndex (wire : Wire) (file : PositionedFile) (snapshot : Option Bytes) :
    Except TenantStoreError Unit × PositionedFile × Index :=
  match Snapshot.read wire snapshot with
  | some loaded =>
    if headerLen ≤ loaded.committed then refresh wire file loaded.toIndex
    else fullReplay wire file (.fresh wire)
  | none => fullReplay wire file (.fresh wire)

variable {wire : Wire}

theorem headerLen_le_committed (records : List Stored) :
    headerLen ≤ (indexFor wire records).committed := by
  rw [committed_indexFor, fileOf, List.length_append, length_header]
  omega

theorem loadIndex_write (lawful : wire.Lawful) (records : List Stored) (file : PositionedFile) :
    loadIndex wire file (some (Snapshot.write wire (indexFor wire records))) =
      refresh wire file (indexFor wire records) := by
  obtain ⟨loaded, hread, hindex⟩ :=
    Snapshot.read_write lawful (@headerLen_le_committed wire records)
  have hroom : headerLen ≤ loaded.committed := by
    have hcommitted : loaded.committed = (indexFor wire records).committed :=
      congrArg Index.committed hindex
    rw [hcommitted]
    exact headerLen_le_committed records
  unfold loadIndex
  rw [hread]
  simp only []
  rw [if_pos hroom, hindex]

/-- An open from a snapshot taken of this file at an earlier moment, whether the file has grown
since or was cut below it, builds the index of a full replay. -/
theorem loadIndex_eq_fullReplay (lawful : wire.Lawful) {taken now : List Stored} {cut : Bytes}
    {file : PositionedFile} (hwritable : ∀ stored ∈ now, Writable wire stored)
    (hcut : Format.Cut maxFrameBytes cut) (hbytes : file.bytes = fileOf wire now ++ cut)
    (hearlier : taken <+: now ∨ file.len < (indexFor wire taken).committed) :
    ∃ loaded, Snapshot.read wire (some (Snapshot.write wire (indexFor wire taken))) =
        some loaded ∧ loaded.toIndex = indexFor wire taken ∧
      (refresh wire file loaded.toIndex).1 = .ok () ∧
      (fullReplay wire file (.fresh wire)).1 = .ok () ∧
      (refresh wire file loaded.toIndex).2.2 = (fullReplay wire file (.fresh wire)).2.2 := by
  obtain ⟨loaded, hread, hindex⟩ :=
    Snapshot.read_write lawful (@headerLen_le_committed wire taken)
  have hreplay : ∀ index, fullReplay wire file index =
      (.ok (), file.seek file.len, indexFor wire now) :=
    fun index => fullReplay_file lawful hwritable hcut hbytes
  refine ⟨loaded, hread, hindex, ?_⟩
  rw [hindex, hreplay]
  rcases hearlier with ⟨later, rfl⟩ | hshort
  · rw [refresh_file lawful hwritable hcut hbytes]
    exact ⟨rfl, rfl, rfl⟩
  · -- the file was cut below the snapshot, and is read from the start
    have hrefresh : refresh wire file (indexFor wire taken) =
        fullReplay wire file (indexFor wire taken) := by
      unfold refresh
      simp only []
      rw [if_pos hshort]
    rw [hrefresh, hreplay]
    exact ⟨rfl, rfl, rfl⟩

namespace PlainWire

def policyRecord : Stored := .initPolicy "t" "" 0 ""

def beginRecord : Stored := .beginRun ⟨"r", "t", "", "", 0, "", ""⟩ ["l"]

theorem writable_record {stored : Stored} (hkind : isKnownKind stored.kind = true)
    (hsize : isPossibleLength (archived plain stored).length maxFrameBytes = true)
    (hroom : (archived plain stored).length < 2 ^ 32) : Writable plain stored :=
  ⟨hkind, _, rfl, hsize, hroom⟩

theorem writable_two : ∀ stored ∈ [policyRecord, beginRecord], Writable plain stored := by
  intro stored hstored
  rcases List.mem_cons.mp hstored with rfl | hstored
  · exact writable_record (by decide +kernel) (by decide +kernel) (by decide +kernel)
  · rw [List.mem_singleton.mp hstored]
    exact writable_record (by decide +kernel) (by decide +kernel) (by decide +kernel)

/-- A store of two records, opened from the snapshot of the first. -/
theorem loadIndex_of_policy :
    (refresh plain ⟨fileOf plain [policyRecord, beginRecord], 0⟩
        (indexFor plain [policyRecord])).2.2 =
      (fullReplay plain ⟨fileOf plain [policyRecord, beginRecord], 0⟩ (.fresh plain)).2.2 := by
  obtain ⟨loaded, -, hindex, -, -, hsame⟩ := @loadIndex_eq_fullReplay plain lawful [policyRecord]
    [policyRecord, beginRecord] [] ⟨fileOf plain [policyRecord, beginRecord], 0⟩ writable_two
    (Format.cut_nil (by decide)) (List.append_nil _).symm (.inl ⟨[beginRecord], rfl⟩)
  rw [hindex] at hsame
  exact hsame

end PlainWire

end LogicalWorks.Tenant
