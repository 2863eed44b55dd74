import LogicalWorks.Journal.Live
import LogicalWorks.Journal.Authentication
import LogicalWorks.Journal.TailSearch

/-! A file whose frames are whole but for one length prefix, which names another length.
Whatever stands behind it was acknowledged, so an open may refuse the file and never cut
it. -/
namespace LogicalWorks.Journal

/-- A file as its writer leaves it: whole frames of records the tail search reads, whose
heads chain from where the file says it begins. -/
structure ChainedFile (wire : Wire) (frames : List Frame) : Prop where
  sized : ∀ frame ∈ frames, frame.Sized
  framed : ∀ frame ∈ frames, wire.isFramedRecord frame.payload = true
  begins : ∀ first ∈ frames.head?,
    first.head = wire.chainOverBytes (basePosition wire frames).head first.payload
  heads : HeadsChain wire frames

def behindPrefix (frame : Frame) (post : List Frame) : Bytes :=
  frame.payload ++ frame.head.bytes ++ framesBytes post

def underLength (pre : List Frame) (frame : Frame) (post : List Frame) (length : UInt32) : Bytes :=
  framesBytes pre ++ (Bytes.u32BE length ++ behindPrefix frame post)

def WrongLengthShows (wire : Wire) (behind : Bytes) (length : Nat) : Prop :=
  length + headBytes ≤ behind.length → ∀ previous,
    wire.chainOverBytes previous (behind.take length) ≠ Digest.fromBytes (behind.drop length)

def RefusedUntouched (wire : Wire) (disk : Disk) (path : JournalPath) (kind : OpenKind) : Prop :=
  ∃ cause after, openImpl wire disk path kind = (.error cause, after) ∧
    after.file path = disk.file path

/-- A successor that holds its carried seal and nothing else, under a length raised to
another allowed one: the seal does not chain from the genesis, and neither does anything
else in the file. -/
structure LoneCarried (wire : Wire) (disk : Disk) (path : JournalPath) (pre : List Frame)
    (frame : Frame) (post : List Frame) (length : UInt32) : Prop where
  named : ambiguousBase path = none
  unlocked : disk.locked path = false
  first : pre = []
  last : post = []
  raised : frame.payload.length < length.toNat
  possible : length.toNat ≤ maxFrameBytes
  carried : ∃ checkpoint, wire.fromPayload frame.payload = some (.ok checkpoint) ∧
    checkpoint.predecessor.head ≠ wire.genesis.head
  unchained : ¬ HoldsFrame wire wire.genesis.head (frame.payload ++ frame.head.bytes)

variable {wire : Wire} {disk after : Disk} {path : JournalPath} {kind : OpenKind}
  {pre post : List Frame} {frame : Frame} {length : UInt32} {state : ScanState}

section Refusal

theorem refused_of_ambiguousBase (h : ambiguousBase path ≠ none) :
    RefusedUntouched wire disk path kind := by
  obtain ⟨number, hnumber⟩ := Option.ne_none_iff_exists'.mp h
  refine ⟨.capacityExceeded .generation maxGenerationName number, disk, ?_, rfl⟩
  unfold openImpl
  rw [hnumber]

theorem refused_of_error {answer : Except JournalError FileJournal}
    (h : openImpl wire disk path kind = (answer, disk.create path))
    (hanswer : ∀ journal, answer ≠ .ok journal) : RefusedUntouched wire disk path kind := by
  cases answer with
  | ok journal => exact absurd rfl (hanswer journal)
  | error cause => exact ⟨cause, _, h, disk.file_create path⟩

theorem refused_of_locked (h : disk.locked path = true) :
    RefusedUntouched wire disk path kind := by
  by_cases hnamed : ambiguousBase path = none
  · apply @refused_of_error _ _ _ _ (.error (.locked path))
    · unfold openImpl
      rw [hnamed]
      simp [h]
    · simp
  · exact refused_of_ambiguousBase hnamed

theorem refused_of_scan {cause : JournalError}
    (h : scan wire (disk.file path) maxJournalEvents = .error cause) :
    RefusedUntouched wire disk path kind := by
  by_cases hnamed : ambiguousBase path = none
  · by_cases hlocked : disk.locked path = true
    · exact refused_of_locked hlocked
    · have hopen : ∃ refusal, openImpl wire disk path kind = (.error refusal, disk.create path) := by
        unfold openImpl
        rw [hnamed]
        simp only [Disk.file_create, Disk.locked_create, hlocked, h, Bool.false_eq_true,
          if_false]
        split
        · exact ⟨_, rfl⟩
        · exact ⟨_, rfl⟩
      obtain ⟨refusal, hopen⟩ := hopen
      exact refused_of_error hopen (by simp)
  · exact refused_of_ambiguousBase hnamed

theorem refused_of_repair {scanned : Scanned} {cause : JournalError}
    (hscan : scan wire (disk.file path) maxJournalEvents = .ok scanned)
    (hrepair : repairTail wire (disk.file path) scanned = .error cause) :
    RefusedUntouched wire disk path kind := by
  by_cases hnamed : ambiguousBase path = none
  · by_cases hlocked : disk.locked path = true
    · exact refused_of_locked hlocked
    · have hopen : ∃ refusal, openImpl wire disk path kind = (.error refusal, disk.create path) := by
        unfold openImpl
        rw [hnamed]
        simp only [Disk.file_create, Disk.locked_create, hlocked, hscan, hrepair,
          Bool.false_eq_true, if_false]
        split
        · exact ⟨_, rfl⟩
        · split
          · exact ⟨_, rfl⟩
          · exact ⟨_, rfl⟩
      obtain ⟨refusal, hopen⟩ := hopen
      exact refused_of_error hopen (by simp)
  · exact refused_of_ambiguousBase hnamed

end Refusal

section Reading

theorem nextFrame_impossible (behind : Bytes) {held : Nat} (index : Nat)
    (hroom : held < maxJournalEvents)
    (h : isPossibleLength length.toNat maxFrameBytes = false) :
    nextFrame (Bytes.u32BE length ++ behind) held maxJournalEvents index =
      .error (.corrupt ⟨index, .framed⟩) := by
  unfold nextFrame
  simp only [readPrefix_u32BE, fill_u32BE, declaredLength, Bytes.ofBE_u32BE, h]
  rw [if_neg (by omega)]
  rfl

theorem nextFrame_full (behind : Bytes) {held : Nat} (index : Nat)
    (hroom : maxJournalEvents ≤ held) :
    nextFrame (Bytes.u32BE length ++ behind) held maxJournalEvents index =
      .error (.capacityExceeded .events maxJournalEvents (held + 1)) := by
  unfold nextFrame
  simp only [readPrefix_u32BE]
  rw [if_pos (by omega)]

theorem nextFrame_under {behind : Bytes} {held : Nat} (index : Nat)
    (hroom : held < maxJournalEvents)
    (hpossible : isPossibleLength length.toNat maxFrameBytes = true)
    (hwhole : length.toNat + headBytes ≤ behind.length) :
    nextFrame (Bytes.u32BE length ++ behind) held maxJournalEvents index =
      .ok (.ok (⟨behind.take length.toNat, Digest.fromBytes (behind.drop length.toNat)⟩,
        (behind.drop length.toNat).drop headBytes)) := by
  have hpayload : readPiece length.toNat behind = .filled := by
    unfold readPiece
    rw [if_pos (by omega)]
  have hhead : readPiece headBytes (behind.drop length.toNat) = .filled := by
    unfold readPiece
    rw [if_pos (by rw [List.length_drop]; omega)]
  unfold nextFrame
  simp only [readPrefix_u32BE, fill_u32BE, drop_u32BE, declaredLength, Bytes.ofBE_u32BE, hpossible,
    hpayload, hhead, if_true]
  rw [if_neg (by omega), Bytes.fill_of_le (by omega)]

theorem nextFrame_past {behind : Bytes} {held : Nat} (index : Nat)
    (hroom : held < maxJournalEvents)
    (hpossible : isPossibleLength length.toNat maxFrameBytes = true)
    (hpast : behind.length < length.toNat + headBytes) :
    nextFrame (Bytes.u32BE length ++ behind) held maxJournalEvents index =
      .ok (.error .ambiguous) := by
  unfold nextFrame
  simp only [readPrefix_u32BE, fill_u32BE, drop_u32BE, declaredLength, Bytes.ofBE_u32BE, hpossible,
    if_true]
  rw [if_neg (by omega)]
  unfold readPiece
  by_cases hpayload : length.toNat ≤ behind.length
  · rw [if_pos hpayload, if_neg (by rw [List.length_drop]; omega)]
  · rw [if_neg hpayload]

theorem scanFrame_refuses
    (h : ∀ previous, wire.chainOverBytes previous frame.payload ≠ frame.head) :
    ∃ cause, scanFrame wire state frame = .error cause := by
  cases hframe : scanFrame wire state frame with
  | error cause => exact ⟨cause, rfl⟩
  | ok next =>
    cases scanFrame_ok hframe with
    | carried checkpoint hpayload hseal hindex hhead => exact absurd hhead.symm (h _)
    | closing checkpoint hpayload hseal hindex hhead => exact absurd hhead.symm (h _)
    | event event hpayload hplain hseal hevent hhead => exact absurd hhead.symm (h _)

theorem scan_of_turn {frames : List Frame} {left : Bytes} {outcome : Except JournalError Halt}
    (hsized : ∀ frame ∈ frames, frame.Sized)
    (hframes : scanFrames wire maxJournalEvents (.start wire) frames = .ok state)
    (hturn : (scanner wire maxJournalEvents).turn state left = .stop outcome) :
    scan wire (framesBytes frames ++ left) maxJournalEvents = outcome.map state.scanned := by
  unfold scan
  rw [run_framesBytes hsized hframes, Reader.run_stop hturn]
  cases outcome <;> rfl

theorem scan_of_error {frames : List Frame} (left : Bytes) {cause : JournalError}
    (hsized : ∀ frame ∈ frames, frame.Sized)
    (hframes : scanFrames wire maxJournalEvents (.start wire) frames = .error cause) :
    scan wire (framesBytes frames ++ left) maxJournalEvents = .error cause := by
  have herror := run_framesBytes_error hsized hframes left
  unfold scan
  split
  · rename_i hrun
    rw [hrun] at herror
    cases herror
    rfl
  · rename_i hrun
    rw [hrun] at herror
    cases herror

theorem scanFrames_head {frames : List Frame} {final : ScanState}
    (h : scanFrames wire maxJournalEvents state frames = .ok final) :
    final.position.head = (frames.getLast?.map Frame.head).getD state.position.head := by
  induction frames using List.reverseRecOn with
  | nil =>
    cases h
    rfl
  | append_singleton rest frame _ =>
    obtain ⟨middle, -, hlast⟩ := scanFrames_append.mp h
    obtain ⟨-, hstep⟩ := scanFrames_single.mp hlast
    rw [hstep.head_eq, List.getLast?_append_cons]
    rfl

end Reading

section Tail

/-- In a chained file the tail behind a length prefix holds a frame that was acknowledged,
unless all there is to it is a seal carried from somewhere else. -/
theorem holdsFrame_of_chained (hchained : ChainedFile wire (pre ++ frame :: post))
    (hscanned : scanFrames wire maxJournalEvents (.start wire) pre = .ok state)
    (h : pre ≠ [] ∨ post ≠ [] ∨
      frame.head = wire.chainOverBytes wire.genesis.head frame.payload) :
    HoldsFrame wire state.position.head (behindPrefix frame post) := by
  have hmem : frame ∈ pre ++ frame :: post := List.mem_append_right _ List.mem_cons_self
  have hsized := hchained.sized frame hmem
  have hframed := hchained.framed frame hmem
  have hheads := hchained.heads
  unfold HeadsChain at hheads
  obtain ⟨-, hbehind, hfront⟩ := List.isChain_append.mp hheads
  have hhead := scanFrames_head hscanned
  cases hlast : pre.getLast? with
  | some last =>
    rw [hlast] at hhead
    have hchain := hfront last (by rw [hlast]; rfl) frame rfl
    refine .cut frame (framesBytes post) ⟨hsized, hframed, ?_⟩ rfl
    rw [hhead]
    exact hchain
  | none =>
    obtain rfl := List.getLast?_eq_none_iff.mp hlast
    rw [hlast] at hhead
    have hgenesis : state.position.head = wire.genesis.head := hhead
    cases post with
    | nil =>
      refine .cut frame [] ⟨hsized, hframed, ?_⟩ rfl
      rw [hgenesis]
      simpa using h
    | cons next rest =>
      have hnextMem : next ∈ [] ++ frame :: next :: rest :=
        List.mem_cons_of_mem _ List.mem_cons_self
      have hchain := (List.isChain_cons_cons.mp hbehind).1
      refine .later frame.payload frame.head next (framesBytes rest) ?_
        ⟨hchained.sized next hnextMem, hchained.framed next hnextMem, hchain⟩ ?_
      · exact List.length_pos_iff.mp ((Frame.sized_iff frame).mp hsized).1
      · simp only [behindPrefix, framesBytes_cons, List.append_assoc]

theorem cut_underLength {previous : Digest}
    {headOf : Digest → Bytes → Option Digest}
    (hpossible : isPossibleLength length.toNat maxFrameBytes = true)
    (hpast : (behindPrefix frame post).length < length.toNat + headBytes) :
    cutHoldsAcknowledged (underLength pre frame post length) (framesBytes pre).length previous
        maxFrameBytes headOf =
      .ok (holdsAcknowledgedFrame (behindPrefix frame post) previous maxFrameBytes headOf) := by
  have hfile : underLength pre frame post length =
      (framesBytes pre ++ Bytes.u32BE length) ++ behindPrefix frame post := by
    rw [underLength, List.append_assoc]
  have hstart : (framesBytes pre).length + lengthBytes =
      (framesBytes pre ++ Bytes.u32BE length).length := by
    rw [List.length_append, Bytes.length_u32BE]
    rfl
  simp only [isPossibleLength, Bool.and_eq_true, decide_eq_true_eq] at hpossible
  unfold cutHoldsAcknowledged
  rw [hfile, hstart]
  dsimp only
  rw [List.drop_left, if_neg]
  rw [List.length_append]
  omega

theorem repairTail_underLength
    (hscanned : scanFrames wire maxJournalEvents (.start wire) pre = .ok state)
    (hpossible : isPossibleLength length.toNat maxFrameBytes = true)
    (hpast : (behindPrefix frame post).length < length.toNat + headBytes) :
    repairTail wire (underLength pre frame post length) (state.scanned .ambiguous) =
      if holdsAcknowledgedFrame (behindPrefix frame post) state.position.head maxFrameBytes
          wire.headOf then
        .error (.corrupt ⟨state.entries.length, .framed⟩)
      else .ok ((framesBytes pre).length, true) := by
  simp only [repairTail, ScanState.scanned, Halt.stopAt, resolveAmbiguousTail,
    offset_of_scanFrames hscanned, cut_underLength hpossible hpast]
  cases holdsAcknowledgedFrame (behindPrefix frame post) state.position.head maxFrameBytes
    wire.headOf <;> rfl

/-- A scan that fails, or finds the tail ambiguous: there is no third way to read the file. -/
theorem scan_underLength (hsized : ∀ other ∈ pre, other.Sized)
    (hwrong : WrongLengthShows wire (behindPrefix frame post) length.toNat) :
    (∃ cause, scan wire (underLength pre frame post length) maxJournalEvents = .error cause) ∨
      ∃ state, scanFrames wire maxJournalEvents (.start wire) pre = .ok state ∧
        isPossibleLength length.toNat maxFrameBytes = true ∧
        (behindPrefix frame post).length < length.toNat + headBytes ∧
        scan wire (underLength pre frame post length) maxJournalEvents =
          .ok (state.scanned .ambiguous) := by
  unfold underLength
  cases hframes : scanFrames wire maxJournalEvents (.start wire) pre with
  | error cause => exact Or.inl ⟨cause, scan_of_error _ hsized hframes⟩
  | ok state =>
    have hstop : ∀ outcome, (scanner wire maxJournalEvents).turn state
        (Bytes.u32BE length ++ behindPrefix frame post) = .stop outcome →
        scan wire (framesBytes pre ++ (Bytes.u32BE length ++ behindPrefix frame post))
          maxJournalEvents = outcome.map state.scanned :=
      fun outcome => scan_of_turn hsized hframes
    simp only [turn_scanner, scanTurn] at hstop
    rcases Nat.lt_or_ge state.entries.length maxJournalEvents with hroom | hfull
    · cases hpossible : isPossibleLength length.toNat maxFrameBytes with
      | false =>
        left
        rw [nextFrame_impossible _ _ hroom hpossible] at hstop
        exact ⟨_, hstop _ rfl⟩
      | true =>
        rcases Nat.lt_or_ge (behindPrefix frame post).length (length.toNat + headBytes) with
          hpast | hwhole
        · right
          rw [nextFrame_past _ hroom hpossible hpast] at hstop
          exact ⟨state, rfl, rfl, hpast, hstop _ rfl⟩
        · left
          rw [nextFrame_under _ hroom hpossible hwhole] at hstop
          obtain ⟨cause, hcause⟩ := @scanFrame_refuses wire ⟨_, Digest.fromBytes _⟩ state
            (hwrong hwhole)
          dsimp only at hstop
          rw [hcause] at hstop
          exact ⟨_, hstop _ rfl⟩
    · left
      rw [nextFrame_full _ _ hfull] at hstop
      exact ⟨_, hstop _ rfl⟩

theorem openImpl_repaired {scanned : Scanned} {ackedLen : Nat} {repaired : Bool}
    (hnamed : ambiguousBase path = none) (hunlocked : disk.locked path = false)
    (hbounded : (disk.file path).length ≤ maxJournalBytes)
    (hscan : scan wire (disk.file path) maxJournalEvents = .ok scanned)
    (hauthority : superseding wire (disk.create path) path scanned.ownSeal = none)
    (hrepair : repairTail wire (disk.file path) scanned = .ok (ackedLen, repaired)) :
    ∃ journal after, openImpl wire disk path kind = (.ok journal, after) := by
  have hlength : ¬ maxJournalBytes < (disk.file path).length := Nat.not_lt.mpr hbounded
  unfold openImpl
  rw [hnamed]
  simp only [Disk.file_create, Disk.locked_create, hunlocked, hlength, hscan, hauthority, hrepair,
    Bool.false_eq_true, if_false]
  exact ⟨_, _, rfl⟩

/-- What is left when nothing in the tail is found to be acknowledged. -/
theorem loneCarried_of_unheld (hchained : ChainedFile wire (pre ++ frame :: post))
    (hscanned : scanFrames wire maxJournalEvents (.start wire) pre = .ok state)
    (hpossible : isPossibleLength length.toNat maxFrameBytes = true)
    (hpast : (behindPrefix frame post).length < length.toNat + headBytes)
    (hnamed : ambiguousBase path = none) (hunlocked : disk.locked path = false)
    (h : ¬ HoldsFrame wire state.position.head (behindPrefix frame post)) :
    LoneCarried wire disk path pre frame post length := by
  have hnone := fun hsome => h (holdsFrame_of_chained hchained hscanned hsome)
  have hfirst : pre = [] := by
    by_contra hpre
    exact hnone (Or.inl hpre)
  have hlast : post = [] := by
    by_contra hpost
    exact hnone (Or.inr (Or.inl hpost))
  subst hfirst hlast
  cases hscanned
  have hhead : frame.head ≠ wire.chainOverBytes wire.genesis.head frame.payload :=
    fun hgenesis => hnone (Or.inr (Or.inr hgenesis))
  have hbehind : behindPrefix frame [] = frame.payload ++ frame.head.bytes := by
    simp [behindPrefix]
  rw [hbehind] at h hpast
  rw [List.length_append, frame.head.length_bytes] at hpast
  simp only [isPossibleLength, Bool.and_eq_true, decide_eq_true_eq] at hpossible
  refine ⟨hnamed, hunlocked, rfl, rfl, by omega, hpossible.2, ?_, h⟩
  have hbegins := hchained.begins frame rfl
  rw [List.nil_append, basePosition_cons] at hbegins
  unfold namedPredecessor at hbegins
  split at hbegins
  · rename_i checkpoint hcheckpoint
    refine ⟨checkpoint, hcheckpoint, ?_⟩
    intro hsame
    apply hhead
    rw [hbegins, Option.getD_some, hsame]
  · exact absurd hbegins hhead

end Tail

namespace PlainWire

theorem chainedFile_single {frame : Frame} (hsized : frame.Sized)
    (hframed : plain.isFramedRecord frame.payload = true)
    (hbegins : frame.head = plain.chainOverBytes (basePosition plain [frame]).head frame.payload) :
    ChainedFile plain ([] ++ frame :: []) := by
  refine ⟨List.forall_mem_singleton.mpr hsized, List.forall_mem_singleton.mpr hframed, ?_,
    List.isChain_singleton frame⟩
  intro first hfirst
  cases hfirst
  exact hbegins

def raised (frame : Frame) : UInt32 := UInt32.ofNat (frame.payload.length + 1)

theorem raised_shows {frame : Frame} (hsized : frame.Sized) :
    WrongLengthShows plain (behindPrefix frame []) (raised frame).toNat := by
  have hbound := ((Frame.sized_iff frame).mp hsized).2
  unfold maxFrameBytes at hbound
  intro hwhole
  simp only [behindPrefix, framesBytes_nil, List.append_nil, List.length_append,
    frame.head.length_bytes, raised, UInt32.toNat_ofNat'] at hwhole
  omega

def carriedSeal : Continuation := ⟨2, ⟨2, spell 1 9⟩, [], []⟩

def raisedSealDisk : Disk :=
  diskOf (successorPath base) (underLength [] (carry carriedSeal) [] (raised (carry carriedSeal)))

end PlainWire

end LogicalWorks.Journal
