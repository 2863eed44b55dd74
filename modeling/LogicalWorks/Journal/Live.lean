import LogicalWorks.Journal.ScanFrames
import LogicalWorks.Journal.PlainWire

/-! What opening and appending do, said once: an accepted open mirrors the whole frames its
file starts with, and an accepted append puts one frame behind them. -/
namespace LogicalWorks.Journal

namespace Disk

variable (disk : Disk) (path : JournalPath) (bytes : Bytes)

@[simp] theorem files_write_self : (disk.write path bytes).files path = some bytes := by
  simp [write]

theorem files_write_of_ne {other : JournalPath} (h : other ≠ path) :
    (disk.write path bytes).files other = disk.files other := by
  simp [write, h]

@[simp] theorem file_write_self : (disk.write path bytes).file path = bytes := by
  simp [file]

theorem file_of_files {disk : Disk} {path : JournalPath} {bytes : Bytes}
    (h : disk.files path = some bytes) : disk.file path = bytes := by
  simp [file, h]

theorem file_write_of_ne {other : JournalPath} (h : other ≠ path) :
    (disk.write path bytes).file other = disk.file other := by
  unfold file
  rw [files_write_of_ne disk path bytes h]

@[simp] theorem locked_write (other : JournalPath) :
    (disk.write path bytes).locked other = disk.locked other := rfl

@[simp] theorem files_lock : (disk.lock path).files = disk.files := rfl

@[simp] theorem file_lock (other : JournalPath) :
    (disk.lock path).file other = disk.file other := rfl

@[simp] theorem locked_lock_self : (disk.lock path).locked path = true := by
  simp [lock]

@[simp] theorem files_release : (disk.release path).files = disk.files := rfl

@[simp] theorem file_release (other : JournalPath) :
    (disk.release path).file other = disk.file other := rfl

@[simp] theorem locked_release_self : (disk.release path).locked path = false := by
  simp [release]

@[simp] theorem files_releaseAll : disk.releaseAll.files = disk.files := rfl

@[simp] theorem locked_releaseAll (other : JournalPath) :
    disk.releaseAll.locked other = false := rfl

@[simp] theorem file_create : (disk.create path).file path = disk.file path := by
  simp [create]

@[simp] theorem locked_create (other : JournalPath) :
    (disk.create path).locked other = disk.locked other := rfl

@[simp] theorem write_write (first second : Bytes) :
    (disk.write path first).write path second = disk.write path second := by
  unfold write
  congr 1
  funext asked
  simp only
  split <;> rfl

@[simp] theorem write_create : (disk.create path).write path bytes = disk.write path bytes :=
  disk.write_write path _ bytes

end Disk

variable {wire : Wire} {disk after : Disk} {path : JournalPath} {kind : OpenKind}
  {frames : List Frame} {state : ScanState}

def FileJournal.ofState (wire : Wire) (path : JournalPath) (kind : OpenKind) (state : ScanState)
    (repaired : Bool) : FileJournal :=
  .ofScanned wire path kind (state.scanned .complete) state.offset repaired

def Continuation.heldRung (checkpoint : Continuation) (key : EffectKey) : Option EventKind :=
  ((Index.empty : Index EffectKey EventKind).insertAll checkpoint.heldRungs).get key

theorem ladder_ofState (path : JournalPath) (repaired : Bool) (key : EffectKey) :
    (FileJournal.ofState wire path kind state repaired).ladder.get key =
      ((Index.empty.insertAll (heldRungs state.carried)).get key).or
        ((Index.empty.insertAll (rungs (state.entries.map JournalEntry.event))).get key) :=
  Index.get_insertAll _ _ key

structure Openable (wire : Wire) (disk : Disk) (path : JournalPath) (frames : List Frame)
    (state : ScanState) : Prop where
  named : ambiguousBase path = none
  unlocked : disk.locked path = false
  bounded : (disk.file path).length ≤ maxJournalBytes
  sized : ∀ frame ∈ frames, frame.Sized
  scanned : scanFrames wire maxJournalEvents (.start wire) frames = .ok state
  authoritative : superseding wire (disk.create path) path state.ownSeal = none

theorem length_framesBytes_single {frame : Frame} (h : frame.Sized) :
    (framesBytes [frame]).length ≤ maxJournalBytes := by
  have hbound := ((Frame.sized_iff frame).mp h).2
  rw [framesBytes_cons, framesBytes_nil, List.append_nil, Frame.length_bytes, framedLen,
    lengthBytes, headBytes, maxJournalBytes]
  unfold maxFrameBytes at hbound
  omega

theorem offset_of_scanFrames
    (h : scanFrames wire maxJournalEvents (.start wire) frames = .ok state) :
    state.offset = (framesBytes frames).length := by
  rw [scanFrames_offset h]
  exact Nat.zero_add _

theorem repairTail_ok {file : Bytes} {halt : Halt} {ackedLen : Nat} {repaired : Bool}
    (hscan : scanFrames wire maxJournalEvents (.start wire) frames = .ok state)
    (h : repairTail wire file (state.scanned halt) = .ok (ackedLen, repaired)) :
    ackedLen = (framesBytes frames).length := by
  rw [← offset_of_scanFrames hscan]
  unfold repairTail at h
  cases halt with
  | complete =>
    cases h
    rfl
  | torn =>
    cases h
    rfl
  | ambiguous =>
    simp only [ScanState.scanned, Halt.stopAt, bind_eq_ok, pure_eq_ok] at h
    obtain ⟨offset, htail, hpair⟩ := h
    cases hpair
    unfold resolveAmbiguousTail at htail
    split at htail
    · cases htail
    · cases htail
    · exact (Except.ok.inj htail).symm

theorem openImpl_accepts {journal : FileJournal}
    (h : openImpl wire disk path kind = (.ok journal, after)) :
    ∃ scanned ackedLen repaired, ambiguousBase path = none ∧ disk.locked path = false ∧
      (disk.file path).length ≤ maxJournalBytes ∧
      scan wire (disk.file path) maxJournalEvents = .ok scanned ∧
      superseding wire (disk.create path) path scanned.ownSeal = none ∧
      repairTail wire (disk.file path) scanned = .ok (ackedLen, repaired) ∧
      journal = .ofScanned wire path kind scanned ackedLen repaired ∧
      after = (disk.write path ((disk.file path).take ackedLen)).lock path := by
  unfold openImpl at h
  split at h
  · cases h
  · rename_i hnamed
    simp only [Disk.file_create, Disk.locked_create, Disk.write_create] at h
    split at h
    · cases h
    · rename_i hlocked
      split at h
      · cases h
      · rename_i hbounded
        split at h
        · cases h
        · rename_i scanned hscan
          split at h
          · cases h
          · rename_i hauthority
            split at h
            · cases h
            · rename_i ackedLen repaired hrepair
              cases h
              exact ⟨scanned, ackedLen, repaired, hnamed, by simpa using hlocked, by omega, hscan,
                hauthority, hrepair, rfl, rfl⟩

theorem openImpl_ok {journal : FileJournal}
    (h : openImpl wire disk path kind = (.ok journal, after)) :
    ∃ frames state left repaired, Openable wire disk path frames state ∧
      disk.file path = framesBytes frames ++ left ∧
      journal = .ofState wire path kind state repaired ∧
      after = (disk.write path (framesBytes frames)).lock path := by
  obtain ⟨scanned, ackedLen, repaired, hnamed, hlocked, hbounded, hscan, hauthority, hrepair, rfl,
    rfl⟩ := openImpl_accepts h
  obtain ⟨frames, left, state, halt, hfile, hsized, hframes, -, rfl⟩ := scan_ok hscan
  have hlength := repairTail_ok hframes hrepair
  refine ⟨frames, state, left, repaired, ⟨hnamed, hlocked, hbounded, hsized, hframes, hauthority⟩,
    hfile, ?_, ?_⟩
  · rw [hlength, ← offset_of_scanFrames hframes]
    rfl
  · rw [hlength, hfile, List.take_left]

theorem openable_of_openImpl {journal : FileJournal}
    (h : openImpl wire disk path kind = (.ok journal, after))
    (hsized : ∀ frame ∈ frames, frame.Sized) (hfile : disk.file path = framesBytes frames) :
    ∃ state, Openable wire disk path frames state := by
  obtain ⟨scanned, ackedLen, repaired, hnamed, hlocked, hbounded, hscan, hauthority, -⟩ :=
    openImpl_accepts h
  rw [hfile, scan_framesBytes hsized] at hscan
  split at hscan
  · cases hscan
  · rename_i state hstate
    cases hscan
    exact ⟨state, hnamed, hlocked, hbounded, hsized, hstate, hauthority⟩

theorem repairTail_ne_superseded (file : Bytes) (scanned : Scanned) (next : JournalPath) :
    repairTail wire file scanned ≠ .error (.superseded next) := by
  unfold repairTail resolveAmbiguousTail cutHoldsAcknowledged
  intro h
  split at h
  · cases h
  · cases h
  · dsimp only at h
    split_ifs at h
    · cases h
    · split at h
      · rename_i hheld
        cases hheld
      · cases h
      · cases h

/-- An open that names a successor has read a seal whose successor is complete. -/
theorem openImpl_superseded {next : JournalPath}
    (h : openImpl wire disk path kind = (.error (.superseded next), after)) :
    (disk.file path).length ≤ maxJournalBytes ∧
      ∃ scanned, scan wire (disk.file path) maxJournalEvents = .ok scanned ∧
        superseding wire (disk.create path) path scanned.ownSeal = some next := by
  unfold openImpl at h
  split at h
  · cases h
  · simp only [Disk.file_create, Disk.locked_create] at h
    split at h
    · cases h
    · split at h
      · cases h
      · rename_i hbounded
        split at h
        · rename_i hscan
          cases h
          exact absurd hscan (scan_ne_superseded _ _)
        · rename_i scanned hscan
          split at h
          · rename_i hauthority
            cases h
            exact ⟨by omega, scanned, hscan, hauthority⟩
          · split at h
            · rename_i hrepair
              cases h
              exact absurd hrepair (repairTail_ne_superseded _ _ _)
            · cases h

theorem openImpl_of_superseding {next : JournalPath} (kind : OpenKind)
    (hnamed : ambiguousBase path = none) (hunlocked : disk.locked path = false)
    (hbounded : (disk.file path).length ≤ maxJournalBytes) (hsized : ∀ frame ∈ frames, frame.Sized)
    (hscanned : scanFrames wire maxJournalEvents (.start wire) frames = .ok state)
    (hfile : disk.file path = framesBytes frames)
    (hauthority : superseding wire (disk.create path) path state.ownSeal = some next) :
    openImpl wire disk path kind = (.error (.superseded next), disk.create path) := by
  have hscan : scan wire (framesBytes frames) maxJournalEvents =
      .ok (state.scanned .complete) := by
    rw [scan_framesBytes hsized, hscanned]
  have hlength : ¬ maxJournalBytes < (framesBytes frames).length := by
    rw [← hfile]
    exact Nat.not_lt.mpr hbounded
  have hsuperseding : superseding wire (disk.create path) path
      (state.scanned .complete).ownSeal = some next := hauthority
  unfold openImpl
  rw [hnamed]
  simp only [Disk.file_create, Disk.locked_create, hunlocked, hfile, hlength, hscan,
    Bool.false_eq_true, if_false, hsuperseding]

theorem openImpl_framesBytes (h : Openable wire disk path frames state) (kind : OpenKind)
    (hfile : disk.file path = framesBytes frames) :
    openImpl wire disk path kind =
      (.ok (.ofState wire path kind state false),
        (disk.write path (framesBytes frames)).lock path) := by
  have hscan : scan wire (framesBytes frames) maxJournalEvents =
      .ok (state.scanned .complete) := by
    rw [scan_framesBytes h.sized, h.scanned]
  have hbounded : ¬ maxJournalBytes < (framesBytes frames).length := by
    rw [← hfile]
    exact Nat.not_lt.mpr h.bounded
  unfold openImpl
  rw [h.named]
  simp only [Disk.file_create, Disk.locked_create, h.unlocked, hfile, hbounded, hscan,
    Bool.false_eq_true, if_false]
  have hauthority : superseding wire (disk.create path) path
      (state.scanned .complete).ownSeal = none := h.authoritative
  rw [hauthority]
  simp only [repairTail, ScanState.scanned, Halt.stopAt, Disk.write_create]
  rw [offset_of_scanFrames h.scanned, List.take_length, ← offset_of_scanFrames h.scanned]
  rfl

/-- When a successor reads complete: what follows its length prefix is taken for a payload
and a head, with zeros where the file ends. -/
theorem successorIsComplete_iff {frame : Frame} (hsized : frame.Sized) (left : Bytes)
    (ownSeal : Continuation) :
    successorIsComplete wire
        (some (Bytes.u32BE (UInt32.ofNat frame.payload.length) ++ left)) ownSeal = true ↔
      ∃ carried, wire.fromPayload (Bytes.fill frame.payload.length left) = some (.ok carried) ∧
        carried.predecessor = ownSeal.predecessor ∧
        wire.chainOverBytes ownSeal.predecessor.head (Bytes.fill frame.payload.length left) =
          Digest.fromBytes (left.drop frame.payload.length) := by
  unfold successorIsComplete
  simp only [readPrefix_u32BE, fill_u32BE, drop_u32BE, Frame.declaredLength_bytes hsized]
  unfold Frame.Sized at hsized
  rw [if_pos hsized]
  cases wire.fromPayload (Bytes.fill frame.payload.length left) with
  | none => simp
  | some decoded =>
    cases decoded with
    | error cause => simp
    | ok carried => simp

theorem successorIsComplete_frame {frame : Frame} (hsized : frame.Sized) (left : Bytes)
    (ownSeal : Continuation) :
    successorIsComplete wire (some (frame.bytes ++ left)) ownSeal = true ↔
      ∃ carried, wire.fromPayload frame.payload = some (.ok carried) ∧
        carried.predecessor = ownSeal.predecessor ∧
        wire.chainOverBytes ownSeal.predecessor.head frame.payload = frame.head := by
  unfold Frame.bytes encode
  rw [List.append_assoc, List.append_assoc, successorIsComplete_iff hsized, Bytes.fill_append,
    List.drop_left, frame.fromBytes_head]

theorem superseding_of_open {left : Bytes} (h : Openable wire disk path frames state)
    (hfile : disk.file path = framesBytes frames ++ left) :
    superseding wire (disk.write path (framesBytes frames)) path state.ownSeal = none := by
  have hauthority := h.authoritative
  cases hseal : state.ownSeal with
  | none => rfl
  | some ownSeal =>
    rw [hseal] at hauthority
    by_cases hsame : successorPath path = path
    · cases frames with
      | nil =>
        have hstart : state = .start wire := (Except.ok.inj h.scanned).symm
        rw [hstart] at hseal
        cases hseal
      | cons frame rest =>
        have hsized := h.sized frame List.mem_cons_self
        have hfirst : successorIsComplete wire
            (some (frame.bytes ++ (framesBytes rest ++ left))) ownSeal =
              successorIsComplete wire (some (frame.bytes ++ framesBytes rest)) ownSeal := by
          rw [Bool.eq_iff_iff, successorIsComplete_frame hsized,
            successorIsComplete_frame hsized]
        unfold superseding Disk.create at hauthority
        rw [hsame, Disk.files_write_self, hfile, framesBytes_cons, List.append_assoc] at hauthority
        unfold superseding
        rw [hsame, Disk.files_write_self, framesBytes_cons]
        dsimp only at hauthority ⊢
        rw [hfirst] at hauthority
        exact hauthority
    · unfold superseding Disk.create at hauthority
      unfold superseding
      rw [Disk.files_write_of_ne _ _ _ hsame] at hauthority ⊢
      exact hauthority

theorem fence_ok {handle : Handle} :
    handle.fence = .ok () ↔ handle.journal.sealedBy = none ∧
      handle.journal.poisoned = false ∧ handle.file.length = handle.journal.diskLen := by
  unfold Handle.fence FileJournal.refuseSealed
  cases hsealed : handle.journal.sealedBy with
  | some next => simp
  | none => simp

theorem refuseWalked_ok {journal : FileJournal} {event : EffectEvent} :
    journal.refuseWalked event = .ok () ↔
      (journal.ladder.get event.key = none →
        ∀ entry ∈ journal.folded, entry.alreadyWalked event.key = false) := by
  unfold FileJournal.refuseWalked
  cases hladder : journal.ladder.get event.key with
  | some kind => simp
  | none =>
    simp only [Option.isSome_none, Bool.false_eq_true, if_false, forall_const]
    cases hfind : journal.folded.find? fun entry => entry.alreadyWalked event.key with
    | some entry =>
      have hwalked := List.find?_some hfind
      have hmem := List.mem_of_find?_eq_some hfind
      constructor
      · intro h
        cases h
      · intro h
        rw [h entry hmem] at hwalked
        cases hwalked
    | none =>
      have hnone := List.find?_eq_none.mp hfind
      simpa using hnone

def Wire.frameAt (wire : Wire) (position : JournalPosition) (payload : Bytes) : Frame :=
  ⟨payload, wire.chainOverBytes position.head payload⟩

/-- What an event archived as `payload` has to find behind a journal's own history: the rung
below it, and room for one more frame. -/
structure Climbable (wire : Wire) (journal : FileJournal) (event : EffectEvent)
    (payload : Bytes) : Prop where
  ladder : nextAllowedOf (journal.ladder.get event.key) = some event.kind
  room : journal.committed.length < maxJournalEvents
  archived : wire.eventToBytes event = some payload
  advances : journal.position.sequence.toNat + 1 < 2 ^ 64
  sized : (wire.frameAt journal.position payload).Sized
  fits : journal.diskLen + (wire.frameAt journal.position payload).bytes.length ≤
    maxJournalBytes

structure Admits (wire : Wire) (handle : Handle) (event : EffectEvent) (payload : Bytes) :
    Prop extends Climbable wire handle.journal event payload where
  fenced : handle.fence = .ok ()
  walked : handle.journal.refuseWalked event = .ok ()

def FileJournal.accepted (wire : Wire) (journal : FileJournal) (event : EffectEvent)
    (payload : Bytes) : FileJournal :=
  journal.accept event (wire.after journal.position payload)
    (wire.frameAt journal.position payload).bytes.length

def Handle.appended (wire : Wire) (handle : Handle) (event : EffectEvent) (payload : Bytes) :
    Handle :=
  ⟨handle.disk.write handle.journal.path
      (handle.file ++ (wire.frameAt handle.journal.position payload).bytes),
    handle.journal.accepted wire event payload⟩

theorem frame_ok {event : EffectEvent} {start position : JournalPosition} {framed : Bytes} :
    FileJournal.frame wire event start = .ok (position, framed) ↔
      ∃ payload, wire.eventToBytes event = some payload ∧ start.sequence.toNat + 1 < 2 ^ 64 ∧
        (wire.frameAt start payload).Sized ∧ position = wire.after start payload ∧
        framed = (wire.frameAt start payload).bytes := by
  unfold FileJournal.frame Wire.after saturatingSucc checkedSucc
  by_cases hroom : start.sequence.toNat + 1 < 2 ^ 64
  · simp only [hroom, if_true]
    constructor
    · intro h
      simp only [bind_eq_ok, pure_eq_ok, Prod.exists, Prod.mk.injEq] at h
      obtain ⟨framed', head, hframe, hposition, rfl⟩ := h
      obtain ⟨payload, harchive, hhead, hsized, hbytes⟩ := frameRecord_ok hframe
      have harchived : wire.eventToBytes event = some payload := by
        split at harchive
        · rename_i archived hsome
          rw [hsome, Except.ok.inj harchive]
        · cases harchive
      subst hhead
      exact ⟨payload, harchived, trivial, hsized, hposition.symm, hbytes⟩
    · rintro ⟨payload, harchived, -, hsized, rfl, rfl⟩
      have hwritable := writableLength_of_sized hsized
      unfold Wire.frameAt at hwritable
      simp only [frameRecord, harchived, hwritable]
      rfl
  · simp only [hroom, if_false]
    constructor
    · intro h
      cases h
    · rintro ⟨payload, -, hbound, -⟩
      exact hbound.elim

theorem checkAppendOrder_ok {expectedTail actual : JournalPosition} {event : EffectEvent}
    {last : Option EventKind} :
    FileJournal.checkAppendOrder expectedTail actual event last = .ok () ↔
      expectedTail = actual ∧ nextAllowedOf last = some event.kind := by
  simp [FileJournal.checkAppendOrder]

theorem prepareAppend_ok {handle : Handle} {tail position : JournalPosition}
    {event : EffectEvent} {framed : Bytes} :
    handle.prepareAppend wire tail event = .ok (position, framed) ↔
      tail = handle.journal.position ∧ ∃ payload, Admits wire handle event payload ∧
        position = wire.after handle.journal.position payload ∧
        framed = (wire.frameAt handle.journal.position payload).bytes := by
  unfold Handle.prepareAppend
  simp only [bind_eq_ok, pure_eq_ok, Prod.exists, Prod.mk.injEq, FileJournal.boundEvents,
    FileJournal.boundBytes, require_eq_ok]
  constructor
  · rintro ⟨_, -, _, horder, _, hwalked, _, hfence, _, hroom, position', framed', hframe, _, hfits,
      rfl, rfl⟩
    obtain ⟨rfl, hladder⟩ := checkAppendOrder_ok.mp horder
    obtain ⟨payload, harchived, hadvances, hsized, rfl, rfl⟩ := frame_ok.mp hframe
    exact ⟨rfl, payload, ⟨⟨hladder, hroom, harchived, hadvances, hsized, hfits⟩, hfence, hwalked⟩,
      rfl, rfl⟩
  · rintro ⟨rfl, payload, h, rfl, rfl⟩
    have hsealed : handle.journal.refuseSealed = .ok () := by
      unfold FileJournal.refuseSealed
      rw [(fence_ok.mp h.fenced).1]
    exact ⟨(), hsealed, (), checkAppendOrder_ok.mpr ⟨rfl, h.ladder⟩, (), h.walked, (), h.fenced,
      (), h.room, _, _, frame_ok.mpr ⟨payload, h.archived, h.advances, h.sized, rfl, rfl⟩, (),
      h.fits, rfl, rfl⟩

theorem writeAndSync_of_fence {handle : Handle} (h : handle.fence = .ok ()) (framed : Bytes) :
    handle.writeAndSync framed = (.ok (), { handle with
      disk := handle.disk.write handle.journal.path (handle.file ++ framed) }) := by
  obtain ⟨-, hpoison, hlength⟩ := fence_ok.mp h
  unfold Handle.writeAndSync
  rw [if_neg (by simp [hpoison]), if_neg (by simp [hlength])]

theorem compareAndAppend_ok {handle next : Handle} {tail : JournalPosition} {event : EffectEvent}
    {ack : DurableAck} :
    handle.compareAndAppend wire tail event = (.ok ack, next) ↔
      tail = handle.journal.position ∧ ∃ payload, Admits wire handle event payload ∧
        ack = ⟨wire.after handle.journal.position payload, .processCrash⟩ ∧
        next = handle.appended wire event payload := by
  unfold Handle.compareAndAppend
  cases hprepare : handle.prepareAppend wire tail event with
  | error cause =>
    constructor
    · intro h
      cases h
    · rintro ⟨htail, payload, hadmits, -, -⟩
      have hok := prepareAppend_ok.mpr ⟨htail, payload, hadmits, rfl, rfl⟩
      rw [hprepare] at hok
      cases hok
  | ok prepared =>
    obtain ⟨position, framed⟩ := prepared
    obtain ⟨htail, payload, hadmits, rfl, rfl⟩ := prepareAppend_ok.mp hprepare
    simp only [writeAndSync_of_fence hadmits.fenced]
    constructor
    · intro h
      cases h
      exact ⟨htail, payload, hadmits, rfl, rfl⟩
    · rintro ⟨-, other, hother, rfl, rfl⟩
      have hsame := hadmits.archived.symm.trans hother.archived
      cases hsame
      rfl

theorem compareAndAppend_error {handle next : Handle} {tail : JournalPosition}
    {event : EffectEvent} {cause : JournalError}
    (h : handle.compareAndAppend wire tail event = (.error cause, next)) : next = handle := by
  unfold Handle.compareAndAppend at h
  cases hprepare : handle.prepareAppend wire tail event with
  | error refusal =>
    simp only [hprepare] at h
    cases h
    rfl
  | ok prepared =>
    obtain ⟨position, framed⟩ := prepared
    obtain ⟨-, payload, hadmits, -, -⟩ := prepareAppend_ok.mp hprepare
    simp only [hprepare, writeAndSync_of_fence hadmits.fenced] at h
    cases h

structure Mirrors (wire : Wire) (handle : Handle) (kind : OpenKind) (repaired : Bool)
    (frames : List Frame) (state : ScanState) : Prop where
  file : handle.disk.files handle.journal.path = some (framesBytes frames)
  named : ambiguousBase handle.journal.path = none
  bounded : (framesBytes frames).length ≤ maxJournalBytes
  sized : ∀ frame ∈ frames, frame.Sized
  scanned : scanFrames wire maxJournalEvents (.start wire) frames = .ok state
  journal : handle.journal =
    { FileJournal.ofState wire handle.journal.path kind state repaired with
      ladder := handle.journal.ladder }

theorem Openable.mirrors {left : Bytes} (h : Openable wire disk path frames state)
    (hfile : disk.file path = framesBytes frames ++ left) (kind : OpenKind) (repaired : Bool) :
    Mirrors wire ⟨(disk.write path (framesBytes frames)).lock path,
      .ofState wire path kind state repaired⟩ kind repaired frames state := by
  refine ⟨disk.files_write_self path (framesBytes frames), h.named, ?_, h.sized, h.scanned, rfl⟩
  have hbounded := h.bounded
  rw [hfile, List.length_append] at hbounded
  omega

theorem mirrors_of_open {journal : FileJournal}
    (h : openImpl wire disk path kind = (.ok journal, after)) :
    ∃ frames state left repaired, Openable wire disk path frames state ∧
      disk.file path = framesBytes frames ++ left ∧
      journal = .ofState wire path kind state repaired ∧
      after = (disk.write path (framesBytes frames)).lock path ∧
      Mirrors wire ⟨after, journal⟩ kind repaired frames state := by
  obtain ⟨frames, state, left, repaired, hopen, hfile, rfl, rfl⟩ := openImpl_ok h
  exact ⟨frames, state, left, repaired, hopen, hfile, rfl, rfl,
    hopen.mirrors hfile kind repaired⟩

theorem frameStep_of_admits (lawful : wire.Lawful) {event : EffectEvent} {payload : Bytes}
    (hseal : state.ownSeal = none) (harchived : wire.eventToBytes event = some payload) :
    FrameStep wire state (wire.frameAt state.position payload)
      (state.afterEvent (wire.frameAt state.position payload)
        (wire.after state.position payload) event) :=
  .event event (Wire.fromPayload_eventToBytes lawful harchived)
    (Wire.isSealed_eventToBytes lawful harchived) hseal (lawful.event_roundTrip harchived) rfl

/-- An accepted append keeps the handle a mirror of its file, unless the file is closed. -/
theorem Mirrors.appended {handle : Handle} {repaired : Bool} (lawful : wire.Lawful)
    (h : Mirrors wire handle kind repaired frames state) (hseal : state.ownSeal = none)
    {event : EffectEvent} {payload : Bytes} (hadmits : Admits wire handle event payload) :
    Mirrors wire (handle.appended wire event payload) kind repaired
      (frames ++ [wire.frameAt state.position payload])
      (state.afterEvent (wire.frameAt state.position payload)
        (wire.after state.position payload) event) := by
  have hposition : handle.journal.position = state.position := by
    rw [h.journal]
    rfl
  have hcommitted : handle.journal.committed = state.entries := by
    rw [h.journal]
    rfl
  have hlength : handle.journal.diskLen = (framesBytes frames).length := by
    rw [h.journal, ← offset_of_scanFrames h.scanned]
    rfl
  have hsized := hadmits.sized
  have hfits := hadmits.fits
  have hroom := hadmits.room
  rw [hposition] at hsized hfits
  rw [hlength] at hfits
  rw [hcommitted] at hroom
  refine ⟨?_, h.named, ?_, ?_, ?_, ?_⟩
  · have hfile := Disk.file_of_files h.file
    simp only [Handle.appended, FileJournal.accepted, FileJournal.accept,
      Disk.files_write_self, Handle.file, hfile,
      hposition, framesBytes_append, framesBytes_cons, framesBytes_nil, List.append_nil]
  · simpa using hfits
  · intro frame hframe
    rcases List.mem_append.mp hframe with hframe | hframe
    · exact h.sized frame hframe
    · rw [List.mem_singleton.mp hframe]
      exact hsized
  · apply scanFrames_append.mpr
    refine ⟨state, h.scanned, ?_⟩
    rw [scanFrames_single]
    exact ⟨hroom, frameStep_of_admits lawful hseal hadmits.archived⟩
  · have hjournal := h.journal
    unfold Handle.appended FileJournal.accepted FileJournal.accept
    simp only [hposition]
    rw [hjournal]
    simp only [FileJournal.ofState, FileJournal.ofScanned, ScanState.scanned, ScanState.afterEvent,
      ScanState.pass, Frame.length_bytes]
    congr 1
    rw [List.filterMap_append, Index.insertAll_append]
    cases event <;> rfl

theorem Mirrors.reopen_on {handle : Handle} {repaired : Bool}
    (h : Mirrors wire handle kind repaired frames state)
    (hauthority : superseding wire handle.disk handle.journal.path state.ownSeal = none)
    {free : Disk} (hfiles : free.files = handle.disk.files)
    (hunlocked : free.locked handle.journal.path = false) (other : OpenKind) :
    openImpl wire free handle.journal.path other =
      (.ok (.ofState wire handle.journal.path other state false),
        (free.write handle.journal.path (framesBytes frames)).lock handle.journal.path) := by
  have hfile : free.file handle.journal.path = framesBytes frames := by
    apply Disk.file_of_files
    rw [hfiles]
    exact h.file
  have hopen : Openable wire free handle.journal.path frames state := by
    refine ⟨h.named, hunlocked, ?_, h.sized, h.scanned, ?_⟩
    · rw [hfile]
      exact h.bounded
    · have hsame : (free.create handle.journal.path).files = handle.disk.files := by
        funext asked
        unfold Disk.create Disk.write
        simp only [hfile, hfiles]
        split
        · rename_i hasked
          rw [hasked, h.file]
        · rfl
      unfold superseding at hauthority ⊢
      rw [hsame]
      exact hauthority
  exact openImpl_framesBytes hopen other hfile

theorem Mirrors.reopen {handle : Handle} {repaired : Bool}
    (h : Mirrors wire handle kind repaired frames state)
    (hauthority : superseding wire handle.disk handle.journal.path state.ownSeal = none)
    (other : OpenKind) :
    openImpl wire (handle.disk.release handle.journal.path) handle.journal.path other =
      (.ok (.ofState wire handle.journal.path other state false),
        ((handle.disk.release handle.journal.path).write handle.journal.path
          (framesBytes frames)).lock handle.journal.path) :=
  h.reopen_on hauthority (handle.disk.files_release _) (handle.disk.locked_release_self _) other

namespace PlainWire

/-- What the scan reads of a successor that holds its carried seal and nothing else. -/
def carriedState (value : Continuation) : ScanState :=
  (ScanState.start plain).afterCarried (carry value)
    (plain.after value.predecessor (carry value).payload) value

def carriedDisk (value : Continuation) : Disk :=
  diskOf (successorPath base) (framesBytes [carry value])

def carriedHandle (value : Continuation) : Handle :=
  ⟨((carriedDisk value).write (successorPath base) (framesBytes [carry value])).lock
      (successorPath base),
    .ofState plain (successorPath base) .plain (carriedState value) false⟩

theorem openable_carried {value : Continuation} (hsized : (carry value).Sized) :
    Openable plain (carriedDisk value) (successorPath base) [carry value]
      (carriedState value) := by
  have hfile : (carriedDisk value).file (successorPath base) = framesBytes [carry value] := by
    simp [carriedDisk, diskOf, Disk.file]
  refine ⟨by decide, rfl, ?_, List.forall_mem_singleton.mpr hsized, ?_, rfl⟩
  · rw [hfile]
    exact length_framesBytes_single hsized
  · rw [scanFrames_single]
    refine ⟨by decide, .carried value ?_ rfl rfl rfl⟩
    apply Wire.fromPayload_toPayload lawful_plain
    rfl

theorem open_carried {value : Continuation} (hsized : (carry value).Sized) :
    openImpl plain (carriedDisk value) (successorPath base) .plain =
      (.ok (carriedHandle value).journal, (carriedHandle value).disk) := by
  apply openImpl_framesBytes (openable_carried hsized)
  simp [carriedDisk, diskOf, Disk.file]

end PlainWire

end LogicalWorks.Journal
