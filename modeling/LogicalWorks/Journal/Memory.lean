import LogicalWorks.Journal.Batch

/-! The in-memory journal beside the file's: what each answers to the same calls. -/
namespace LogicalWorks.Journal

structure MemoryJournal where
  committed : List JournalEntry
  ladder : Index EffectKey EventKind
  outcomes : Index EffectKey (JournalPosition × EffectEvidence)
  committedBytes : Nat

/-- Refuse taking a journal of so many events past the ceiling by so many more. -/
def boundHeld (held additional : Nat) : Except JournalError Unit :=
  require (held + additional ≤ maxJournalEvents)
    (.capacityExceeded .events maxJournalEvents (held + additional))

def Wire.chain (wire : Wire) (previous : JournalPosition) (event : EffectEvent) :
    Except JournalError Digest :=
  match wire.eventToBytes event with
  | none => .error .encoding
  | some archived => .ok (wire.chainOverBytes previous.head archived)

def readEntry (committed : List JournalEntry) (chainBase : Nat) (position : JournalPosition) :
    Option JournalEntry :=
  if position.sequence.toNat ≤ chainBase then none
  else
    (committed[position.sequence.toNat - chainBase - 1]?).filter fun entry =>
      entry.position = position

namespace MemoryJournal

def new : MemoryJournal := ⟨[], .empty, .empty, 0⟩

def tail (wire : Wire) (journal : MemoryJournal) : JournalPosition :=
  match journal.committed.getLast? with
  | some entry => entry.position
  | none => wire.genesis

def chainBase (journal : MemoryJournal) : Nat :=
  match journal.committed.head? with
  | some entry => entry.position.sequence.toNat - 1
  | none => 0

def committedEntry (journal : MemoryJournal) (position : JournalPosition) : Option JournalEntry :=
  readEntry journal.committed journal.chainBase position

def outcomeAt (journal : MemoryJournal) (key : EffectKey) :
    Option (JournalPosition × EffectEvidence) :=
  journal.outcomes.get key

def prepareAppend (wire : Wire) (journal : MemoryJournal) (expectedTail : JournalPosition)
    (event : EffectEvent) : Except JournalError (JournalPosition × Nat) := do
  let actual := journal.tail wire
  FileJournal.checkAppendOrder expectedTail actual event (journal.ladder.get event.key)
  boundHeld journal.committed.length 1
  match wire.eventToBytes event with
  | none => .error .encoding
  | some archived => do
    let requested := journal.committedBytes + archived.length + 36
    require (requested ≤ maxJournalBytes)
      (.capacityExceeded .bytes maxJournalBytes requested)
    match checkedSucc actual.sequence with
    | none => .error .exhausted
    | some sequence => do
      let head ← wire.chain actual event
      return (⟨sequence, head⟩, requested)

def accept (journal : MemoryJournal) (event : EffectEvent) (position : JournalPosition)
    (requested : Nat) : MemoryJournal where
  committed := journal.committed ++ [⟨position, event⟩]
  committedBytes := requested
  ladder := journal.ladder.insert event.key event.kind
  outcomes := match event with
    | .outcomeObserved key evidence => journal.outcomes.insert key (position, evidence)
    | _ => journal.outcomes

def compareAndAppend (wire : Wire) (journal : MemoryJournal) (expectedTail : JournalPosition)
    (event : EffectEvent) : Except JournalError DurableAck × MemoryJournal :=
  match journal.prepareAppend wire expectedTail event with
  | .error cause => (.error cause, journal)
  | .ok (position, requested) =>
    (.ok ⟨position, .ephemeral⟩, journal.accept event position requested)

def appendAll (wire : Wire) (journal : MemoryJournal) :
    List (JournalPosition × EffectEvent) →
      List (Except JournalError JournalPosition) × MemoryJournal
  | [] => ([], journal)
  | (expectedTail, event) :: rest =>
    let (answer, next) := journal.compareAndAppend wire expectedTail event
    let (answers, last) := next.appendAll wire rest
    (answer.map DurableAck.position :: answers, last)

end MemoryJournal

def FileJournal.committedEntry (journal : FileJournal) (position : JournalPosition) :
    Option JournalEntry :=
  readEntry journal.committed journal.chainFrom.sequence.toNat position

def FileJournal.outcomeAt (journal : FileJournal) (key : EffectKey) :
    Option (JournalPosition × EffectEvidence) :=
  journal.outcomes.get key

def Handle.appendAll (wire : Wire) (handle : Handle) :
    List (JournalPosition × EffectEvent) →
      List (Except JournalError JournalPosition) × Handle
  | [] => ([], handle)
  | (expectedTail, event) :: rest =>
    let (answer, next) := handle.compareAndAppend wire expectedTail event
    let (answers, last) := next.appendAll wire rest
    (answer.map DurableAck.position :: answers, last)

section Agreement

variable {wire : Wire} {memory : MemoryJournal} {handle : Handle} {expectedTail : JournalPosition}
  {event : EffectEvent}

/-- The file's journal holds what the in-memory one does, at the same positions and lengths, and
nothing sealed stands before it. -/
structure Agree (wire : Wire) (memory : MemoryJournal) (handle : Handle) : Prop where
  committed : handle.journal.committed = memory.committed
  ladder : handle.journal.ladder = memory.ladder
  outcomes : handle.journal.outcomes = memory.outcomes
  bytes : handle.journal.diskLen = memory.committedBytes
  tail : handle.journal.position = memory.tail wire
  sequence : (memory.tail wire).sequence.toNat = memory.committed.length
  base : memory.chainBase = 0
  chainFrom : handle.journal.chainFrom.sequence.toNat = 0
  folded : handle.journal.folded = []
  fenced : handle.fence = .ok ()
  held : memory.committed.length ≤ maxJournalEvents

def Wire.Small (wire : Wire) : Prop :=
  ∀ event archived, wire.eventToBytes event = some archived → archived.length ≤ maxFrameBytes

theorem sized_archived (lawful : wire.Lawful) (hsmall : wire.Small) {archived : Bytes}
    (h : wire.eventToBytes event = some archived) (position : JournalPosition) :
    (wire.frameAt position archived).Sized := by
  obtain ⟨tag, rest, rfl, -⟩ := lawful.event_tag h
  exact (Frame.sized_iff _).mpr ⟨Nat.succ_pos _, hsmall event _ h⟩

theorem Agree.unsealed (h : Agree wire memory handle) : handle.journal.refuseSealed = .ok () := by
  unfold FileJournal.refuseSealed
  rw [(fence_ok.mp h.fenced).1]

theorem Agree.walked (h : Agree wire memory handle) (event : EffectEvent) :
    handle.journal.refuseWalked event = .ok () := by
  rw [refuseWalked_ok, h.folded]
  intro _ entry hmem
  cases hmem

theorem Agree.advances (h : Agree wire memory handle) :
    (memory.tail wire).sequence.toNat + 1 < 2 ^ 64 := by
  have hheld := h.held
  rw [h.sequence]
  unfold maxJournalEvents at hheld
  omega

theorem Agree.prepareAppend_eq (h : Agree wire memory handle)
    (horder : FileJournal.checkAppendOrder expectedTail (memory.tail wire) event
      (memory.ladder.get event.key) = .ok ()) :
    handle.prepareAppend wire expectedTail event = do
      boundHeld memory.committed.length 1
      let (position, frame) ← FileJournal.frame wire event (memory.tail wire)
      handle.journal.boundBytes frame.length
      return (position, frame) := by
  unfold Handle.prepareAppend
  simp only [h.unsealed, h.tail, h.ladder, horder, h.walked, h.fenced, ok_bind]
  unfold FileJournal.boundEvents boundHeld
  rw [h.committed]

theorem Agree.prepare (lawful : wire.Lawful) (hsmall : wire.Small) (h : Agree wire memory handle)
    (expectedTail : JournalPosition) (event : EffectEvent) :
    (∃ cause, handle.prepareAppend wire expectedTail event = .error cause ∧
        memory.prepareAppend wire expectedTail event = .error cause) ∨
      ∃ archived, expectedTail = handle.journal.position ∧ Admits wire handle event archived ∧
        memory.prepareAppend wire expectedTail event =
          .ok (wire.after (memory.tail wire) archived,
            memory.committedBytes + archived.length + 36) := by
  cases horder : FileJournal.checkAppendOrder expectedTail (memory.tail wire) event
      (memory.ladder.get event.key) with
  | error cause =>
    refine .inl ⟨cause, ?_, ?_⟩
    · unfold Handle.prepareAppend
      simp only [h.unsealed, h.tail, h.ladder, horder, ok_bind, error_bind]
    · unfold MemoryJournal.prepareAppend
      simp only [horder, error_bind]
  | ok value =>
    obtain ⟨hexpected, hnext⟩ := checkAppendOrder_ok.mp horder
    rw [h.prepareAppend_eq horder]
    unfold MemoryJournal.prepareAppend boundHeld
    simp only [horder, ok_bind]
    by_cases hroom : memory.committed.length + 1 ≤ maxJournalEvents
    · simp only [require, if_pos hroom, ok_bind]
      have hsucc : checkedSucc (memory.tail wire).sequence =
          some ((memory.tail wire).sequence + 1) := if_pos h.advances
      cases harchived : wire.eventToBytes event with
      | none =>
        refine .inl ⟨.encoding, ?_, rfl⟩
        simp only [FileJournal.frame, hsucc, frameRecord, harchived, error_bind]
      | some archived =>
        have hsized := sized_archived lawful hsmall harchived (memory.tail wire)
        have hframe := frame_ok.mpr ⟨archived, harchived, h.advances, hsized, rfl, rfl⟩
        have hlength : (wire.frameAt (memory.tail wire) archived).bytes.length =
            archived.length + 36 := by
          rw [Frame.length_bytes]
          show lengthBytes + archived.length + headBytes = archived.length + 36
          unfold lengthBytes headBytes
          omega
        simp only [hframe, ok_bind, FileJournal.boundBytes, hlength, h.bytes, ← Nat.add_assoc,
          Wire.chain, harchived, hsucc]
        by_cases hfits : memory.committedBytes + archived.length + 36 ≤ maxJournalBytes
        · refine .inr ⟨archived, hexpected.trans h.tail.symm, ⟨⟨?_, ?_, harchived, ?_, ?_, ?_⟩,
            h.fenced, h.walked event⟩, ?_⟩
          · rw [h.ladder]
            exact hnext
          · rw [h.committed]
            exact hroom
          · rw [h.tail]
            exact h.advances
          · rw [h.tail]
            exact hsized
          · rw [h.tail, h.bytes, hlength]
            omega
          · simp only [if_pos hfits, ok_bind]
            unfold Wire.after saturatingSucc
            rw [if_pos h.advances]
            rfl
        · refine .inl ⟨.capacityExceeded .bytes maxJournalBytes
            (memory.committedBytes + archived.length + 36), ?_, ?_⟩
          · simp only [require, if_neg hfits, error_bind]
          · simp only [if_neg hfits, error_bind]
    · refine .inl ⟨.capacityExceeded .events maxJournalEvents (memory.committed.length + 1),
        ?_, ?_⟩
      · simp only [require, if_neg hroom, error_bind]
      · simp only [require, if_neg hroom, error_bind]

theorem tail_accept (position : JournalPosition) (requested : Nat) :
    (memory.accept event position requested).tail wire = position := by
  simp [MemoryJournal.tail, MemoryJournal.accept]

theorem toNat_after (h : (memory.tail wire).sequence.toNat + 1 < 2 ^ 64) (archived : Bytes) :
    (wire.after (memory.tail wire) archived).sequence.toNat =
      (memory.tail wire).sequence.toNat + 1 := by
  show (saturatingSucc _).toNat = _
  rw [toNat_saturatingSucc]
  omega

theorem Agree.base_accept (h : Agree wire memory handle) (archived : Bytes) (requested : Nat) :
    (memory.accept event (wire.after (memory.tail wire) archived) requested).chainBase = 0 := by
  have hbase := h.base
  unfold MemoryJournal.chainBase at hbase ⊢
  unfold MemoryJournal.accept
  cases hcommitted : memory.committed with
  | nil =>
    have hsequence := h.sequence
    rw [hcommitted] at hsequence
    show (wire.after (memory.tail wire) archived).sequence.toNat - 1 = 0
    rw [toNat_after h.advances, hsequence]
    rfl
  | cons first rest =>
    rw [hcommitted] at hbase
    exact hbase

theorem Agree.step (lawful : wire.Lawful) (hsmall : wire.Small) (h : Agree wire memory handle)
    (expectedTail : JournalPosition) (event : EffectEvent) :
    (memory.compareAndAppend wire expectedTail event).1.map DurableAck.position =
        (handle.compareAndAppend wire expectedTail event).1.map DurableAck.position ∧
      Agree wire (memory.compareAndAppend wire expectedTail event).2
        (handle.compareAndAppend wire expectedTail event).2 := by
  rcases h.prepare lawful hsmall expectedTail event with
    ⟨cause, hfile, hmemory⟩ | ⟨archived, htail, hadmits, hmemory⟩
  · have hrefused : handle.compareAndAppend wire expectedTail event = (.error cause, handle) := by
      unfold Handle.compareAndAppend
      rw [hfile]
    unfold MemoryJournal.compareAndAppend
    rw [hrefused, hmemory]
    exact ⟨rfl, h⟩
  · have haccepted := compareAndAppend_ok.mpr ⟨htail, archived, hadmits, rfl, rfl⟩
    have hlength : (wire.frameAt handle.journal.position archived).bytes.length =
        archived.length + 36 := by
      rw [Frame.length_bytes]
      show lengthBytes + archived.length + headBytes = archived.length + 36
      unfold lengthBytes headBytes
      omega
    have hroom := hadmits.room
    rw [h.committed] at hroom
    unfold MemoryJournal.compareAndAppend
    rw [haccepted, hmemory]
    dsimp only
    refine ⟨by rw [h.tail]; rfl, ⟨?_, ?_, ?_, ?_, ?_, ?_, h.base_accept archived _, h.chainFrom,
      h.folded, fence_appended h.fenced, ?_⟩⟩
    · show handle.journal.committed ++ [_] = memory.committed ++ [_]
      rw [h.committed, h.tail]
    · show handle.journal.ladder.insert _ _ = memory.ladder.insert _ _
      rw [h.ladder]
    · unfold MemoryJournal.accept Handle.appended FileJournal.accepted FileJournal.accept
      rw [h.outcomes, h.tail]
      all_goals cases event <;> rfl
    · show handle.journal.diskLen + (wire.frameAt handle.journal.position archived).bytes.length =
        memory.committedBytes + archived.length + 36
      rw [hlength, h.bytes, Nat.add_assoc]
    · rw [tail_accept, ← h.tail]
      rfl
    · rw [tail_accept, toNat_after h.advances, h.sequence]
      show _ = (memory.committed ++ [_]).length
      rw [List.length_append]
      rfl
    · show (memory.committed ++ [_]).length ≤ maxJournalEvents
      rw [List.length_append]
      exact hroom

theorem Agree.run (lawful : wire.Lawful) (hsmall : wire.Small) (h : Agree wire memory handle)
    (calls : List (JournalPosition × EffectEvent)) :
    (memory.appendAll wire calls).1 = (handle.appendAll wire calls).1 ∧
      Agree wire (memory.appendAll wire calls).2 (handle.appendAll wire calls).2 := by
  induction calls generalizing memory handle with
  | nil => exact ⟨rfl, h⟩
  | cons call rest ih =>
    obtain ⟨expectedTail, event⟩ := call
    obtain ⟨hanswer, hnext⟩ := h.step lawful hsmall expectedTail event
    obtain ⟨hanswers, hlast⟩ := ih hnext
    exact ⟨congrArg₂ (· :: ·) hanswer hanswers, hlast⟩

theorem fresh_agrees {disk after : Disk} {path : JournalPath} {kind : OpenKind}
    {journal : FileJournal} (hopen : openImpl wire disk path kind = (.ok journal, after))
    (hfile : disk.file path = []) : Agree wire .new ⟨after, journal⟩ := by
  obtain ⟨frames, state, left, repaired, hopenable, hframes, rfl, rfl, hmirrors⟩ :=
    mirrors_of_open hopen
  have hempty : frames = [] := by
    cases frames with
    | nil => rfl
    | cons frame rest =>
      rw [hfile, framesBytes_cons, List.append_assoc] at hframes
      exact absurd (List.append_eq_nil_iff.mp hframes.symm).1 frame.bytes_ne_nil
  subst hempty
  have hstate : state = .start wire := (Except.ok.inj hopenable.scanned).symm
  subst hstate
  refine ⟨rfl, rfl, rfl, rfl, rfl, rfl, rfl, rfl, rfl, ?_, Nat.zero_le _⟩
  apply fence_ok.mpr
  refine ⟨rfl, rfl, ?_⟩
  show (((disk.write path (framesBytes [])).lock path).file path).length = 0
  rw [Disk.file_lock, Disk.file_write_self]
  rfl

end Agreement

/-- The in-memory journal and the file's, both fresh, answer any calls alike, and behind them hold
the same entries, the same outcomes and the same tail. -/
theorem journals_agree {wire : Wire} {disk after : Disk} {path : JournalPath} {kind : OpenKind}
    {journal : FileJournal} (lawful : wire.Lawful) (hsmall : wire.Small)
    (hopen : openImpl wire disk path kind = (.ok journal, after)) (hfile : disk.file path = [])
    (calls : List (JournalPosition × EffectEvent)) :
    (MemoryJournal.new.appendAll wire calls).1 = (Handle.appendAll wire ⟨after, journal⟩ calls).1 ∧
      (∀ position, (MemoryJournal.new.appendAll wire calls).2.committedEntry position =
        (Handle.appendAll wire ⟨after, journal⟩ calls).2.journal.committedEntry position) ∧
      (∀ key, (MemoryJournal.new.appendAll wire calls).2.outcomeAt key =
        (Handle.appendAll wire ⟨after, journal⟩ calls).2.journal.outcomeAt key) ∧
      (MemoryJournal.new.appendAll wire calls).2.committed =
        (Handle.appendAll wire ⟨after, journal⟩ calls).2.journal.committed ∧
      (MemoryJournal.new.appendAll wire calls).2.tail wire =
        (Handle.appendAll wire ⟨after, journal⟩ calls).2.journal.position := by
  obtain ⟨hanswers, hagree⟩ := (fresh_agrees hopen hfile).run lawful hsmall calls
  refine ⟨hanswers, fun position => ?_, fun key => ?_, hagree.committed.symm, hagree.tail.symm⟩
  · unfold MemoryJournal.committedEntry FileJournal.committedEntry
    rw [hagree.committed, hagree.base, hagree.chainFrom]
  · unfold MemoryJournal.outcomeAt FileJournal.outcomeAt
    rw [hagree.outcomes]

namespace PlainWire

def small : Wire :=
  { plain with
    eventToBytes := fun event =>
      if (eventToBytes event).length ≤ maxFrameBytes then some (eventToBytes event) else none }

theorem small_some {event : EffectEvent} {archived : Bytes}
    (h : small.eventToBytes event = some archived) :
    plain.eventToBytes event = some archived ∧ archived.length ≤ maxFrameBytes := by
  have hsome : (if (eventToBytes event).length ≤ maxFrameBytes then some (eventToBytes event)
      else none) = some archived := h
  split at hsome
  · rename_i hle
    cases hsome
    exact ⟨rfl, hle⟩
  · cases hsome

theorem lawful_small : small.Lawful where
  event_roundTrip h := lawful_plain.event_roundTrip (small_some h).1
  event_tag h := lawful_plain.event_tag (small_some h).1
  checkpoint_roundTrip h := lawful_plain.checkpoint_roundTrip h

def emptyDisk : Disk := ⟨fun _ => none, fun _ => false⟩

def freshJournal : FileJournal := .ofState small base .plain (.start small) false

theorem open_fresh : openImpl small emptyDisk base .plain =
    (.ok freshJournal, (emptyDisk.write base (framesBytes [])).lock base) := by
  have hopenable : Openable small emptyDisk base [] (.start small) :=
    ⟨by decide, rfl, Nat.zero_le _, fun _ hmem => (by cases hmem), rfl, rfl⟩
  exact openImpl_framesBytes hopenable .plain rfl

def fourCalls : List (JournalPosition × EffectEvent) :=
  let key := subject 1 1
  let first := small.after small.genesis (eventToBytes (.intentAdmitted key))
  [(first, .intentAdmitted key), (small.genesis, .intentAdmitted key),
    (first, .intentAdmitted key), (first, .dispatchPrepared key)]

theorem four_calls_agree :
    (MemoryJournal.new.appendAll small fourCalls).1 =
      (Handle.appendAll small ⟨(emptyDisk.write base (framesBytes [])).lock base, freshJournal⟩
        fourCalls).1 :=
  (journals_agree lawful_small (fun _ _ h => (small_some h).2) open_fresh rfl fourCalls).1

end PlainWire

end LogicalWorks.Journal
