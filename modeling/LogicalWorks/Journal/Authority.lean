import LogicalWorks.Journal.Chain

/-! Who answers for a journal after a crash inside a continuation.  The successor is asked
for its first frame, and a buffer the file ends inside of keeps its zeros. -/
namespace LogicalWorks.Journal

inductive CrashState (file framed : Bytes) : Bytes → Option Bytes → Prop where
  | torn (count : Nat) (h : count < framed.length) :
      CrashState file framed (file ++ framed.take count) none
  | absent : CrashState file framed (file ++ framed) none
  | short (count : Nat) (h : count < framed.length) :
      CrashState file framed (file ++ framed) (some (framed.take count))
  | whole : CrashState file framed (file ++ framed) (some framed)

def Handle.crashed (handle : Handle) (written : Bytes) (successor : Option Bytes) : Disk where
  files asked :=
    if asked = successorPath handle.journal.path then
      successor.or (if asked = handle.journal.path then some written else none)
    else if asked = handle.journal.path then some written
    else handle.disk.files asked
  locked _ := false

/-- One journal answers at every crash point: the predecessor is refused exactly when the
successor holds the whole frame, and the successor then continues from it. -/
structure OneAuthority (wire : Wire) (handle : Handle) (checkpoint : Continuation)
    (framed : Bytes) : Prop where
  decided : ∀ written successor, CrashState handle.file framed written successor → ∀ kind,
    (∃ next after, openImpl wire (handle.crashed written successor) handle.journal.path kind =
      (.error (.superseded next), after)) ↔ successor = some framed
  handedOver : ∀ written successor, CrashState handle.file framed written successor →
    ∀ kind next after, openImpl wire (handle.crashed written successor) handle.journal.path kind =
      (.error (.superseded next), after) →
    ∀ other, ∃ journal last, openImpl wire after next other = (.ok journal, last) ∧
      journal.checkpoint = some checkpoint ∧ journal.base = checkpoint.predecessor
  incomplete : ∀ count < framed.length,
    successorIsComplete wire (some (framed.take count)) checkpoint = false

/-- What is missing of a seal frame reads as if it were zeros: its head ends in one, or a
part of its payload with zeros behind it is a checkpoint of the same position whose head is
all zeros. -/
def ZerosPass (wire : Wire) (checkpoint : Continuation) (payload : Bytes) : Prop :=
  (wire.chainOverBytes checkpoint.predecessor.head payload).bytes.getLast? = some 0 ∨
    ∃ count < payload.length, ∃ carried,
      wire.fromPayload (Bytes.fill payload.length (payload.take count)) = some (.ok carried) ∧
        carried.predecessor = checkpoint.predecessor ∧
        (wire.chainOverBytes checkpoint.predecessor.head
          (Bytes.fill payload.length (payload.take count))).bytes = List.replicate headBytes 0

/-- A predecessor whose file the seal can still close: it holds a frame, no seal of its own,
and room for one more frame, and its successor has another name. -/
structure Closable (handle : Handle) (framed : Bytes) : Prop where
  begun : handle.file ≠ []
  unclosed : handle.journal.ownSeal = none
  room : handle.journal.committed.length < maxJournalEvents
  fits : handle.file.length + framed.length ≤ maxJournalBytes
  named : successorPath handle.journal.path ≠ handle.journal.path

variable {wire : Wire} {handle : Handle} {checkpoint : Continuation} {payload : Bytes}

section Torn

/-- A head read short is the head itself only when the zeros in its place were its own. -/
theorem getLast_of_fromBytes_take {head : Digest} {count : Nat} (h : count < headBytes)
    (hsame : Digest.fromBytes (head.bytes.take count) = head) :
    head.bytes.getLast? = some 0 := by
  have hbytes : Bytes.fill headBytes (head.bytes.take count) = head.bytes :=
    congrArg Digest.bytes hsame
  have hlength : (head.bytes.take count).length = count := by
    rw [List.length_take, head.length_bytes]
    omega
  rw [Bytes.fill_of_length_le (by omega), hlength] at hbytes
  rw [← hbytes, List.getLast?_append, List.getLast?_replicate, if_neg (by omega)]
  rfl

theorem fromBytes_take_of_getLast {head : Digest} (h : head.bytes.getLast? = some 0) :
    Digest.fromBytes (head.bytes.take 31) = head := by
  apply Digest.ext
  change Bytes.fill headBytes (head.bytes.take 31) = head.bytes
  have hlength : (head.bytes.take 31).length = 31 := by
    rw [List.length_take, head.length_bytes]
    rfl
  have hlast : head.bytes.dropLast ++ [0] = head.bytes := List.dropLast_append_getLast? 0 h
  have hdrop : head.bytes.dropLast = head.bytes.take 31 := by
    rw [List.dropLast_eq_take, head.length_bytes]
    rfl
  rw [hdrop] at hlast
  rw [Bytes.fill_of_length_le (by rw [hlength]; decide), hlength]
  exact hlast

theorem successorIsComplete_short {file : Bytes} (h : file.length < lengthBytes)
    (ownSeal : Continuation) : successorIsComplete wire (some file) ownSeal = false := by
  have hshort : readPrefix file ≠ .full := by
    unfold readPrefix
    split
    · simp
    · rw [if_pos h]
      simp
  unfold successorIsComplete
  dsimp only
  split
  · rfl
  · rfl
  · rename_i hfull
    exact absurd hfull hshort

theorem take_bytes (frame : Frame) (count : Nat) :
    frame.bytes.take (lengthBytes + count) =
      Bytes.u32BE (UInt32.ofNat frame.payload.length) ++
        (frame.payload ++ frame.head.bytes).take count := by
  unfold Frame.bytes encode
  rw [List.append_assoc]
  exact @List.take_length_add_append _ (Bytes.u32BE _) _ count

theorem successorIsComplete_take {frame : Frame} (hsized : frame.Sized) (count : Nat)
    (ownSeal : Continuation) :
    successorIsComplete wire (some (frame.bytes.take (lengthBytes + count))) ownSeal = true ↔
      ∃ carried, wire.fromPayload (Bytes.fill frame.payload.length
          ((frame.payload ++ frame.head.bytes).take count)) = some (.ok carried) ∧
        carried.predecessor = ownSeal.predecessor ∧
        wire.chainOverBytes ownSeal.predecessor.head (Bytes.fill frame.payload.length
            ((frame.payload ++ frame.head.bytes).take count)) =
          Digest.fromBytes
            (((frame.payload ++ frame.head.bytes).take count).drop frame.payload.length) := by
  rw [take_bytes, successorIsComplete_iff hsized]

theorem torn_reads_whole_iff (hpayload : wire.fromPayload payload = some (.ok checkpoint))
    (hsized : (wire.frameAt checkpoint.predecessor payload).Sized) :
    (∃ count < (wire.frameAt checkpoint.predecessor payload).bytes.length,
      successorIsComplete wire
        (some ((wire.frameAt checkpoint.predecessor payload).bytes.take count)) checkpoint = true) ↔
      ZerosPass wire checkpoint payload := by
  have htake := fun count => @successorIsComplete_take wire _ hsized count checkpoint
  unfold Wire.frameAt at htake ⊢
  simp only [Frame.length_bytes, framedLen] at htake ⊢
  have hlengthHead := (wire.chainOverBytes checkpoint.predecessor.head payload).length_bytes
  constructor
  · rintro ⟨count, hcount, hcomplete⟩
    by_cases hshort : count < lengthBytes
    · rw [successorIsComplete_short] at hcomplete
      · cases hcomplete
      · rw [List.length_take]
        omega
    · obtain ⟨behind, rfl⟩ := Nat.exists_eq_add_of_le (Nat.not_lt.mp hshort)
      obtain ⟨carried, hcarried, hposition, hhead⟩ := (htake behind).mp hcomplete
      rcases Nat.lt_or_ge behind payload.length with hlt | hge
      · right
        rw [List.take_append_of_le_length (by omega)] at hcarried hhead
        refine ⟨behind, hlt, carried, hcarried, hposition, ?_⟩
        rw [hhead, List.drop_eq_nil_of_le (by rw [List.length_take]; omega)]
        rfl
      · left
        rw [List.take_append, List.take_of_length_le hge, Bytes.fill_append,
          List.drop_left] at hhead
        exact getLast_of_fromBytes_take (by omega) hhead.symm
  · rintro (hlast | ⟨count, hcount, carried, hcarried, hposition, hzero⟩)
    · refine ⟨lengthBytes + (payload.length + 31), ?_, ?_⟩
      · unfold headBytes
        omega
      · apply (htake _).mpr
        rw [List.take_append, List.take_of_length_le (by omega), Nat.add_sub_cancel_left,
          Bytes.fill_append, List.drop_left, fromBytes_take_of_getLast hlast]
        exact ⟨checkpoint, hpayload, rfl, rfl⟩
    · refine ⟨lengthBytes + count, by omega, ?_⟩
      apply (htake _).mpr
      rw [List.take_append_of_le_length (by omega)]
      refine ⟨carried, hcarried, hposition, ?_⟩
      rw [List.drop_eq_nil_of_le (by rw [List.length_take]; omega)]
      apply Digest.ext
      exact hzero

end Torn

section Crash

variable {kind other : OpenKind} {repaired : Bool} {frames : List Frame} {state : ScanState}
  {written : Bytes} {successor : Option Bytes} {next : JournalPath} {after : Disk}

theorem files_crashed_successor (hnamed : successorPath handle.journal.path ≠ handle.journal.path) :
    (handle.crashed written successor).files (successorPath handle.journal.path) = successor := by
  simp [Handle.crashed, hnamed]

theorem file_crashed (hnamed : successorPath handle.journal.path ≠ handle.journal.path) :
    (handle.crashed written successor).file handle.journal.path = written := by
  simp [Handle.crashed, Disk.file, Ne.symm hnamed]

theorem superseding_crashed
    (hnamed : successorPath handle.journal.path ≠ handle.journal.path) (ownSeal : Continuation) :
    superseding wire ((handle.crashed written successor).create handle.journal.path)
        handle.journal.path (some ownSeal) =
      if successorIsComplete wire successor ownSeal then some (successorPath handle.journal.path)
      else none := by
  unfold superseding Disk.create
  rw [Disk.files_write_of_ne _ _ _ hnamed, files_crashed_successor hnamed]

theorem not_superseded_alone
    (hnamed : successorPath handle.journal.path ≠ handle.journal.path) :
    openImpl wire (handle.crashed written none) handle.journal.path kind ≠
      (.error (.superseded next), after) := by
  intro h
  obtain ⟨-, scanned, -, hauthority⟩ := openImpl_superseded h
  cases hseal : scanned.ownSeal with
  | none =>
    rw [hseal] at hauthority
    cases hauthority
  | some ownSeal =>
    rw [hseal, superseding_crashed hnamed] at hauthority
    cases hauthority

theorem scanFrames_closed (hmirrors : Mirrors wire handle kind repaired frames state)
    (hseals : Seals wire handle checkpoint payload) (lawful : wire.Lawful)
    {framed : Bytes} (hclosable : Closable handle framed) :
    scanFrames wire maxJournalEvents (.start wire)
        (frames ++ [wire.frameAt handle.journal.position payload]) =
      .ok (state.afterSeal (wire.frameAt handle.journal.position payload)
        (wire.after checkpoint.predecessor payload) checkpoint) := by
  apply scanFrames_append.mpr
  refine ⟨state, hmirrors.scanned, ?_⟩
  have hroom := hclosable.room
  have hunclosed := hclosable.unclosed
  rw [hmirrors.journal] at hroom hunclosed
  have hbegun : state.index ≠ 0 := by
    rw [scanFrames_index hmirrors.scanned]
    intro hindex
    have hnil : frames = [] := by
      apply List.length_eq_zero_iff.mp
      change 0 + frames.length = 0 at hindex
      omega
    apply hclosable.begun
    rw [Handle.file, Disk.file_of_files hmirrors.file, hnil]
    rfl
  rw [scanFrames_single]
  refine ⟨hroom, .closing checkpoint (Wire.fromPayload_toPayload lawful hseals.archived)
    hunclosed hbegun ?_⟩
  rw [hseals.carries]
  rfl

/-- A predecessor refused over the whole successor is one the seal could still close. -/
theorem closable_of_superseded (lawful : wire.Lawful) (htracked : Tracked wire handle)
    (hseals : Seals wire handle checkpoint payload)
    (h : openImpl wire (handle.crashed
        (handle.file ++ (wire.frameAt handle.journal.position payload).bytes)
        (some (wire.frameAt handle.journal.position payload).bytes)) handle.journal.path kind =
      (.error (.superseded next), after)) :
    Closable handle (wire.frameAt handle.journal.position payload).bytes := by
  obtain ⟨hbounded, scanned, hscan, hauthority⟩ := openImpl_superseded h
  have hclosed : scanned.ownSeal ≠ none := by
    intro hnone
    rw [hnone] at hauthority
    cases hauthority
  have hnamed : successorPath handle.journal.path ≠ handle.journal.path := by
    intro hsame
    have hfile : (handle.crashed
        (handle.file ++ (wire.frameAt handle.journal.position payload).bytes)
        (some (wire.frameAt handle.journal.position payload).bytes)).file handle.journal.path =
          framesBytes [wire.frameAt handle.journal.position payload] := by
      simp [Handle.crashed, Disk.file, hsame]
    have hcarried := scanFrames_sealed lawful hseals.archived
    rw [hseals.carries] at hcarried
    rw [hfile, scan_framesBytes, hcarried] at hscan
    · cases hscan
      exact hclosed rfl
    · intro frame hframe
      rw [List.mem_singleton.mp hframe]
      exact hseals.sized
  rw [file_crashed hnamed] at hbounded hscan
  rw [List.length_append] at hbounded
  rcases htracked.standing with ⟨kind, repaired, frames, state, hmirrors⟩ |
    ⟨-, frames, state, hspoiled⟩
  · have hfile : handle.file = framesBytes frames := Disk.file_of_files hmirrors.file
    have hall : ∀ frame ∈ frames ++ [wire.frameAt handle.journal.position payload],
        frame.Sized :=
      List.forall_mem_append.mpr ⟨hmirrors.sized, List.forall_mem_singleton.mpr hseals.sized⟩
    have hwhole : framesBytes frames ++ (wire.frameAt handle.journal.position payload).bytes =
        framesBytes (frames ++ [wire.frameAt handle.journal.position payload]) := by
      simp
    rw [hfile, hwhole, scan_framesBytes hall] at hscan
    split at hscan
    · cases hscan
    · rename_i final hfinal
      cases hscan
      obtain ⟨middle, hfirst, hlast⟩ := scanFrames_append.mp hfinal
      rw [hmirrors.scanned] at hfirst
      cases hfirst
      obtain ⟨hroom, hstep⟩ := scanFrames_single.mp hlast
      refine ⟨?_, ?_, ?_, hbounded, hnamed⟩
      · intro hempty
        rw [hfile] at hempty
        have hnil : frames = [] := by
          cases frames with
          | nil => rfl
          | cons frame rest => exact absurd hempty (by simp [frame.bytes_ne_nil])
        rw [hnil] at hfinal
        have hcarried := scanFrames_sealed lawful hseals.archived
        rw [hseals.carries] at hcarried
        rw [List.nil_append, hcarried] at hfinal
        cases hfinal
        exact hclosed rfl
      · rw [hmirrors.journal]
        exact hstep.ownSeal_eq_none
      · rw [hmirrors.journal]
        exact hroom
  · obtain ⟨frame, rest, hsized, hbytes⟩ := hspoiled.behind
    have hall : ∀ other ∈ frames ++
        frame :: (rest ++ [wire.frameAt handle.journal.position payload]), other.Sized := by
      rw [← List.cons_append, ← List.append_assoc]
      exact List.forall_mem_append.mpr ⟨hsized, List.forall_mem_singleton.mpr hseals.sized⟩
    have hfile : handle.file ++ (wire.frameAt handle.journal.position payload).bytes =
        framesBytes (frames ++
          frame :: (rest ++ [wire.frameAt handle.journal.position payload])) := by
      rw [Handle.file, hbytes]
      simp
    rw [hfile, scan_framesBytes hall, scanFrames_append_of_ok _ hspoiled.scanned] at hscan
    rcases scanFrames_after_seal_error hspoiled.closed frame
      (rest ++ [wire.frameAt handle.journal.position payload]) with hframes | ⟨_, hframes⟩
    all_goals
      rw [hframes] at hscan
      cases hscan

theorem closed_predecessor (lawful : wire.Lawful)
    (hmirrors : Mirrors wire handle kind repaired frames state)
    (hseals : Seals wire handle checkpoint payload)
    (hclosable : Closable handle (wire.frameAt handle.journal.position payload).bytes) :
    ∃ whole final, (∀ frame ∈ whole, frame.Sized) ∧
      handle.file ++ (wire.frameAt handle.journal.position payload).bytes = framesBytes whole ∧
      scanFrames wire maxJournalEvents (.start wire) whole = .ok final ∧
      final.ownSeal = some checkpoint := by
  refine ⟨frames ++ [wire.frameAt handle.journal.position payload], _,
    List.forall_mem_append.mpr ⟨hmirrors.sized, List.forall_mem_singleton.mpr hseals.sized⟩, ?_,
    scanFrames_closed hmirrors hseals lawful hclosable, rfl⟩
  rw [Handle.file, Disk.file_of_files hmirrors.file]
  simp

theorem superseded_of_complete (lawful : wire.Lawful)
    (hmirrors : Mirrors wire handle kind repaired frames state)
    (hseals : Seals wire handle checkpoint payload)
    (hclosable : Closable handle (wire.frameAt handle.journal.position payload).bytes)
    (hcomplete : successorIsComplete wire successor checkpoint = true) :
    openImpl wire (handle.crashed
        (handle.file ++ (wire.frameAt handle.journal.position payload).bytes) successor)
        handle.journal.path other =
      (.error (.superseded (successorPath handle.journal.path)),
        (handle.crashed (handle.file ++ (wire.frameAt handle.journal.position payload).bytes)
          successor).create handle.journal.path) := by
  obtain ⟨whole, final, hsized, hfile, hscanned, hseal⟩ :=
    closed_predecessor lawful hmirrors hseals hclosable
  refine openImpl_of_superseding other hmirrors.named rfl ?_ hsized hscanned ?_ ?_
  · rw [file_crashed hclosable.named, List.length_append]
    exact hclosable.fits
  · rw [file_crashed hclosable.named, hfile]
  · rw [hseal, superseding_crashed hclosable.named, hcomplete]
    rfl

theorem complete_of_superseded (lawful : wire.Lawful)
    (hmirrors : Mirrors wire handle kind repaired frames state)
    (hseals : Seals wire handle checkpoint payload)
    (hclosable : Closable handle (wire.frameAt handle.journal.position payload).bytes)
    (h : openImpl wire (handle.crashed
        (handle.file ++ (wire.frameAt handle.journal.position payload).bytes) successor)
        handle.journal.path other = (.error (.superseded next), after)) :
    successorIsComplete wire successor checkpoint = true := by
  obtain ⟨whole, final, hsized, hfile, hscanned, hseal⟩ :=
    closed_predecessor lawful hmirrors hseals hclosable
  obtain ⟨-, scanned, hscan, hauthority⟩ := openImpl_superseded h
  rw [file_crashed hclosable.named, hfile, scan_framesBytes hsized, hscanned] at hscan
  cases hscan
  change superseding wire _ _ final.ownSeal = _ at hauthority
  rw [hseal, superseding_crashed hclosable.named] at hauthority
  by_contra hincomplete
  rw [if_neg hincomplete] at hauthority
  cases hauthority

theorem complete_whole (lawful : wire.Lawful)
    (hseals : Seals wire handle checkpoint payload) :
    successorIsComplete wire (some (wire.frameAt handle.journal.position payload).bytes)
      checkpoint = true := by
  have hframe := @successorIsComplete_frame wire _ hseals.sized [] checkpoint
  rw [List.append_nil] at hframe
  apply hframe.mpr
  refine ⟨checkpoint, Wire.fromPayload_toPayload lawful hseals.archived, rfl, ?_⟩
  rw [hseals.predecessor_eq]
  rfl

theorem successor_opens (lawful : wire.Lawful) (hnamed : ambiguousBase handle.journal.path = none)
    (hseals : Seals wire handle checkpoint payload)
    (hother : successorPath handle.journal.path ≠ handle.journal.path) :
    ∃ journal last, openImpl wire ((handle.crashed written
        (some (wire.frameAt handle.journal.position payload).bytes)).create handle.journal.path)
        (successorPath handle.journal.path) other = (.ok journal, last) ∧
      journal.checkpoint = some checkpoint ∧ journal.base = checkpoint.predecessor := by
  have hfile : ((handle.crashed written
      (some (wire.frameAt handle.journal.position payload).bytes)).create
        handle.journal.path).file (successorPath handle.journal.path) =
      framesBytes [wire.frameAt handle.journal.position payload] := by
    apply Disk.file_of_files
    unfold Disk.create
    rw [Disk.files_write_of_ne _ _ _ hother, files_crashed_successor hother]
    simp
  have hopenable := openable_sealed lawful hseals (ambiguousBase_successorPath hnamed) rfl hfile
  exact ⟨_, _, openImpl_framesBytes hopenable other hfile, rfl, rfl⟩

theorem CrashState.written_of_whole {file framed written : Bytes}
    (h : CrashState file framed written (some framed)) : written = file ++ framed := by
  generalize hsuccessor : some framed = successor at h
  cases h with
  | torn count hcount => cases hsuccessor
  | absent => rfl
  | short count hcount => rfl
  | whole => rfl

/-- At every crash point a closable predecessor is refused for the whole successor alone, when
no cut successor reads complete. -/
theorem decided_of_incomplete (lawful : wire.Lawful)
    (hmirrors : Mirrors wire handle kind repaired frames state)
    (hseals : Seals wire handle checkpoint payload)
    (hclosable : Closable handle (wire.frameAt handle.journal.position payload).bytes)
    (hincomplete : ∀ count < (wire.frameAt handle.journal.position payload).bytes.length,
      successorIsComplete wire
        (some ((wire.frameAt handle.journal.position payload).bytes.take count)) checkpoint = false)
    (hcrash : CrashState handle.file (wire.frameAt handle.journal.position payload).bytes written
      successor) :
    (∃ next after, openImpl wire (handle.crashed written successor) handle.journal.path other =
      (.error (.superseded next), after)) ↔
    successor = some (wire.frameAt handle.journal.position payload).bytes := by
  cases hcrash with
  | torn count hcount =>
    refine ⟨?_, fun h => by cases h⟩
    rintro ⟨next, last, h⟩
    exact absurd h (not_superseded_alone hclosable.named)
  | absent =>
    refine ⟨?_, fun h => by cases h⟩
    rintro ⟨next, last, h⟩
    exact absurd h (not_superseded_alone hclosable.named)
  | short count hcount =>
    constructor
    · rintro ⟨next, last, h⟩
      have hcomplete := complete_of_superseded lawful hmirrors hseals hclosable h
      rw [hincomplete count hcount] at hcomplete
      cases hcomplete
    · intro h
      have hlength := congrArg List.length (Option.some.inj h)
      rw [List.length_take] at hlength
      omega
  | whole =>
    refine ⟨fun _ => rfl, fun _ => ?_⟩
    exact ⟨_, _, superseded_of_complete lawful hmirrors hseals hclosable
      (complete_whole lawful hseals)⟩

end Crash

/-- Exactly one journal answers at every crash point of a continuation when the file can
still be closed and no missing byte of the seal frame passes as a zero, and only then. -/
theorem oneAuthority_iff {disk after : Disk} {path : JournalPath} {kind : OpenKind}
    {journal : FileJournal} {trace : List (Handle × Link)} {framed : Bytes}
    (lawful : wire.Lawful) (hopen : openImpl wire disk path kind = (.ok journal, after))
    (run : Run (ChainStep wire) ⟨after, journal⟩ trace handle)
    (hseal : handle.sealFrame wire = .ok (checkpoint, framed)) :
    OneAuthority wire handle checkpoint framed ↔
      Closable handle framed ∧
        ∀ payload, wire.toPayload checkpoint = .ok payload → ¬ ZerosPass wire checkpoint payload := by
  have htracked := tracked_of_run lawful hopen run
  obtain ⟨payload, hseals, rfl⟩ := sealFrame_ok.mp hseal
  have hposition := hseals.predecessor_eq
  have hpayload := Wire.fromPayload_toPayload lawful hseals.archived
  have hsized := hseals.sized
  rw [← hposition] at hsized
  have htorn := torn_reads_whole_iff hpayload hsized
  rw [hposition] at htorn
  constructor
  · intro h
    obtain ⟨next, last, hwhole⟩ := (h.decided _ _ .whole .plain).mpr rfl
    refine ⟨closable_of_superseded lawful htracked hseals hwhole, ?_⟩
    intro other hother hzeros
    rw [hseals.archived] at hother
    cases hother
    obtain ⟨count, hcount, hcomplete⟩ := htorn.mpr hzeros
    rw [h.incomplete count hcount] at hcomplete
    cases hcomplete
  · rintro ⟨hclosable, hzeros⟩
    have hincomplete : ∀ count <
        (wire.frameAt handle.journal.position payload).bytes.length, successorIsComplete wire
          (some ((wire.frameAt handle.journal.position payload).bytes.take count)) checkpoint =
            false := by
      intro count hcount
      rw [Bool.eq_false_iff]
      intro hcomplete
      exact hzeros payload hseals.archived (htorn.mp ⟨count, hcount, hcomplete⟩)
    rcases htracked.standing with ⟨opened, repaired, frames, state, hmirrors⟩ | ⟨hclosed, -⟩
    · have hdecided := fun written successor hcrash kind =>
        @decided_of_incomplete wire _ _ _ _ kind _ _ _ written successor lawful hmirrors hseals
          hclosable hincomplete hcrash
      refine ⟨hdecided, ?_, hincomplete⟩
      intro written successor hcrash kind next last h other
      obtain rfl := (hdecided written successor hcrash kind).mp ⟨next, last, h⟩
      obtain rfl := hcrash.written_of_whole
      rw [superseded_of_complete lawful hmirrors hseals hclosable
        (complete_whole lawful hseals)] at h
      cases h
      exact successor_opens lawful hmirrors.named hseals hclosable.named
    · exact absurd hclosable.unclosed hclosed

namespace PlainWire

theorem getLast_checksum (last : UInt8) (bytes : Bytes) :
    (checksum last bytes).bytes.getLast? = some last := by
  unfold checksum spell
  rw [Digest.bytes_fromBytes]
  · simp
  · simp [headBytes]

def zeroEnded : Wire := PlainWire.wire false (checksum 0)

theorem lawful_zeroEnded : zeroEnded.Lawful := lawful false (checksum 0)

def zeroFrame : Frame :=
  chained zeroEnded zeroEnded.genesis.head (eventToBytes (.intentAdmitted (subject 1 1)))

def zeroHandle : Handle :=
  ⟨((diskOf base (framesBytes [zeroFrame])).write base (framesBytes [zeroFrame])).lock base,
    .ofState zeroEnded base (.continuing .declared)
      ((ScanState.start zeroEnded).afterEvent zeroFrame
        (zeroEnded.after zeroEnded.genesis zeroFrame.payload) (.intentAdmitted (subject 1 1)))
      false⟩

theorem openable_zero :
    Openable zeroEnded (diskOf base (framesBytes [zeroFrame])) base [zeroFrame]
      ((ScanState.start zeroEnded).afterEvent zeroFrame
        (zeroEnded.after zeroEnded.genesis zeroFrame.payload)
        (.intentAdmitted (subject 1 1))) := by
  refine ⟨by decide, rfl, ?_, ?_, ?_, rfl⟩
  all_goals decide +kernel

theorem open_zero :
    openImpl zeroEnded (diskOf base (framesBytes [zeroFrame])) base (.continuing .declared) =
      (.ok zeroHandle.journal, zeroHandle.disk) :=
  openImpl_framesBytes openable_zero _ rfl

def zeroSeal : Continuation :=
  ⟨2, zeroHandle.journal.position, [], [.new (subject 1 1) .intentAdmitted]⟩

def zeroPayload : Bytes := checkpointMagic ++ PlainWire.checkpoint.encode zeroSeal

theorem seals_zero : Seals zeroEnded zeroHandle zeroSeal zeroPayload := by
  refine ⟨?_, ?_, ?_, ?_, rfl, ?_, ?_⟩
  all_goals decide +kernel

theorem closable_zero :
    Closable zeroHandle (zeroEnded.frameAt zeroHandle.journal.position zeroPayload).bytes := by
  refine ⟨?_, ?_, ?_, ?_, ?_⟩
  all_goals decide +kernel

/-- The successor lacks its last byte, and the predecessor already refuses to open. -/
theorem cut_successor_supersedes :
    ∃ journal after framed next last,
      openImpl zeroEnded (diskOf base (framesBytes [zeroFrame])) base (.continuing .declared) =
          (.ok journal, after) ∧
        (Handle.mk after journal).sealFrame zeroEnded = .ok (zeroSeal, framed) ∧
        openImpl zeroEnded ((Handle.mk after journal).crashed
            ((Handle.mk after journal).file ++ framed) (some (framed.take (framed.length - 1))))
            journal.path .plain =
          (.error (.superseded next), last) ∧
        ¬ OneAuthority zeroEnded ⟨after, journal⟩ zeroSeal framed := by
  have hmirrors : Mirrors zeroEnded zeroHandle (.continuing .declared) false [zeroFrame] _ :=
    openable_zero.mirrors (List.append_nil _).symm (.continuing .declared) false
  have hcut := @superseded_of_complete zeroEnded zeroHandle _ _ _ .plain _ _ _
    (some ((zeroEnded.frameAt zeroHandle.journal.position zeroPayload).bytes.take
      ((zeroEnded.frameAt zeroHandle.journal.position zeroPayload).bytes.length - 1)))
    lawful_zeroEnded hmirrors seals_zero closable_zero (by decide +kernel)
  have hseal := sealFrame_ok.mpr ⟨_, seals_zero, rfl⟩
  refine ⟨_, _, _, _, _, open_zero, hseal, hcut, ?_⟩
  intro h
  have hlength : 0 < (zeroEnded.frameAt zeroHandle.journal.position zeroPayload).bytes.length := by
    decide +kernel
  have hsame := (h.decided _ _ (.short _ (Nat.sub_lt hlength Nat.one_pos)) .plain).mp ⟨_, _, hcut⟩
  have hlengths := congrArg List.length (Option.some.inj hsame)
  rw [List.length_take] at hlengths
  omega

theorem newer_oneAuthority :
    ∃ framed, newerHandle.sealFrame plain = .ok (sealing newerHandle, framed) ∧
      OneAuthority plain newerHandle (sealing newerHandle) framed := by
  have hseals : Seals plain newerHandle (sealing newerHandle) (sealingPayload newerHandle) := by
    refine ⟨?_, ?_, ?_, ?_, rfl, ?_, ?_⟩
    all_goals decide +kernel
  have hseal := sealFrame_ok.mpr ⟨_, hseals, rfl⟩
  refine ⟨_, hseal, (oneAuthority_iff lawful_plain open_newer .refl hseal).mpr ⟨?_, ?_⟩⟩
  · refine ⟨?_, ?_, ?_, ?_, ?_⟩
    all_goals decide +kernel
  · rintro payload - (hlast | ⟨count, -, carried, -, -, hzero⟩)
    · have hone := getLast_checksum 1
        ((sealing newerHandle).predecessor.head.bytes ++ payload)
      cases hlast.symm.trans hone
    · have hone := getLast_checksum 1
        ((sealing newerHandle).predecessor.head.bytes ++
          Bytes.fill payload.length (payload.take count))
      have hhead := congrArg List.getLast? hzero
      rw [List.getLast?_replicate] at hhead
      cases hhead.symm.trans hone

end PlainWire

end LogicalWorks.Journal
