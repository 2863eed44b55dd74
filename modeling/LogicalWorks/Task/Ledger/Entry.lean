import LogicalWorks.Lib.Table
import LogicalWorks.Task.Digests
import LogicalWorks.Task.FrameLog

/-! The repair ledger's entry, the control state its entries fold to, and the replay that
rebuilds the index from the file. -/
namespace LogicalWorks.Task.Ledger

open Journal

def ledgerMagic : Bytes := utf8 "lgwks-runledger" ++ [0, 1]

def maxLedgerRecordBytes : Nat := 16 * 1024

def maxLedgerRecordsPerRun : Nat := 65536

def u64Max : Nat := 2 ^ 64 - 1

def saturatingAdd (left right : UInt64) : UInt64 :=
  if left.toNat + right.toNat ≤ u64Max then left + right else UInt64.ofNat u64Max

/-- One durable entry: the run, and the absolute control state it leaves behind. -/
structure Entry where
  run : RunId
  tenant : String
  attempts : UInt64
  spend : UInt64
  epoch : UInt64
  applied : Option Bytes
  deriving DecidableEq, Repr

structure Control where
  tenant : String
  attempts : UInt64
  spend : UInt64
  epoch : UInt64
  applied : List Bytes
  deriving DecidableEq, Repr

def Control.fresh (tenant : String) : Control := ⟨tenant, 0, 0, 0, []⟩

structure Index where
  runs : Table RunId Control
  committed : Nat
  tail : Digest
  deriving DecidableEq, Repr

structure Wire where
  hash : Bytes → Digest
  entryToBytes : Entry → Option Bytes
  entryFromBytes : Bytes → Option Entry

/-- What the archive format documents: an entry reads back as what was archived. -/
structure Wire.Lawful (wire : Wire) : Prop where
  entry_roundTrip : ∀ {entry bytes}, wire.entryToBytes entry = some bytes →
    wire.entryFromBytes bytes = some entry

section

variable (wire : Wire)

def genesisHead : Digest := hashFramed wire.hash [utf8 "lgwks-runledger/genesis"]

def Entry.headFrom (entry : Entry) (previous : Digest) : Digest :=
  hashFramed wire.hash
    [previous.bytes, utf8 (hexOf (u128BE entry.run)), utf8 entry.tenant, u64LE entry.attempts,
      u64LE entry.spend, u64LE entry.epoch, entry.applied.getD []]

def format : Format Entry where
  header := ledgerMagic
  checkHeader header := if header = some ledgerMagic then .ok () else .error .notAStore
  genesis := genesisHead wire
  archive := wire.entryToBytes
  decode := wire.entryFromBytes
  headFrom entry previous := entry.headFrom wire previous
  maxFrame := maxLedgerRecordBytes
  maxRecords := maxLedgerRecordsPerRun

end

/-- The control state behind an entry: the counters are assigned, the ticket joins the
applied ones. -/
def Control.assign (control : Control) (entry : Entry) : Control where
  tenant := entry.tenant
  attempts := entry.attempts
  spend := entry.spend
  epoch := entry.epoch
  applied :=
    match entry.applied with
    | some ticket =>
      if ticket ∈ control.applied then control.applied else control.applied ++ [ticket]
    | none => control.applied

/-- Fold one entry's control state into its run's slot, which the first entry of a run
creates. -/
def fold (runs : Table RunId Control) (entry : Entry) : Table RunId Control :=
  runs.insert entry.run
    (((runs.get entry.run).getD (Control.fresh entry.tenant)).assign entry)

def foldEntry (runs : Table RunId Control) (read : Framed Entry) : Table RunId Control :=
  fold runs read.record

def indexOf (log : Replayed (Table RunId Control)) : Index := ⟨log.state, log.committed, log.tail⟩

def replay (wire : Wire) (file : PositionedFile) : Except StoreError (Index × PositionedFile) :=
  match (format wire).replayLog foldEntry .empty file with
  | .error refusal => .error refusal
  | .ok (log, file) => .ok (indexOf log, file)

def openLedger (wire : Wire) (bytes : Bytes) : Except StoreError (Index × PositionedFile) :=
  match (format wire).openLog foldEntry .empty bytes with
  | .error refusal => .error refusal
  | .ok (log, file) => .ok (indexOf log, file)

theorem format_lawful {wire : Wire} (lawful : wire.Lawful) : (format wire).Lawful where
  header_ne_nil := by
    change ledgerMagic ≠ []
    decide +kernel
  checkHeader_header := if_pos rfl
  checkHeader_none := fun h => by cases h
  decode_archive := lawful.entry_roundTrip

def indexFor (wire : Wire) (frames : List (Framed Entry)) : Index :=
  indexOf ((format wire).replayOf foldEntry .empty frames)

section

variable {wire : Wire} (lawful : wire.Lawful) {frames : List (Framed Entry)}
include lawful

theorem replay_fileOf {file : PositionedFile}
    (hchain : (format wire).Chained (format wire).genesis frames)
    (hfew : frames.length ≤ maxLedgerRecordsPerRun) (hbytes : file.bytes = (format wire).fileOf frames) :
    replay wire ⟨file.bytes, 0⟩ = .ok (indexFor wire frames, ⟨file.bytes, file.bytes.length⟩) := by
  unfold replay
  rw [@Format.replayLog_fileOf _ _ (format wire) _ (format_lawful lawful) _ frames
    ⟨file.bytes, 0⟩ hchain hfew hbytes]
  rfl

theorem openLedger_nil : openLedger wire [] = .ok (indexFor wire [],
    ⟨(format wire).fileOf [], ((format wire).fileOf []).length⟩) := by
  unfold openLedger
  rw [Format.openLog_nil (format_lawful lawful)]
  rfl

/-- A ledger that ends in a cut entry is refused, or trimmed with the handle left where the
cut ended. -/
theorem openLedger_cut {cut : Bytes} (hchain : (format wire).Chained (format wire).genesis frames)
    (hfew : frames.length ≤ maxLedgerRecordsPerRun) (hcut : Format.Cut maxLedgerRecordBytes cut) :
    (∃ refusal, openLedger wire ((format wire).fileOf frames ++ cut) = .error refusal) ∨
      openLedger wire ((format wire).fileOf frames ++ cut) = .ok (indexFor wire frames,
        ⟨(format wire).fileOf frames, ((format wire).fileOf frames).length + cut.length⟩) := by
  obtain ⟨frame, hfits, hahead, hshort⟩ := hcut
  unfold openLedger
  rcases @Format.openLog_cut _ _ (format wire) foldEntry (format_lawful lawful) .empty frames frame
    cut hchain hfew hfits hahead hshort with ⟨refusal, hrefused⟩ | hopened
  · rw [hrefused]
    exact .inl ⟨refusal, rfl⟩
  · rw [hopened]
    exact .inr rfl

end

end LogicalWorks.Task.Ledger
