import LogicalWorks.Journal.ScanFrames

/-! Streaming replay: the second frame reader, which verifies the same chain frame by
frame without holding the history. -/
namespace LogicalWorks.Journal

/-- `handedOut` is the items the stream has yielded; the source keeps only their count. -/
structure ReplayState where
  position : JournalPosition
  yielded : Nat
  frames : Nat
  sealedOff : Bool
  offset : Nat
  handedOut : List EffectEvent
  deriving DecidableEq, Repr

namespace ReplayState

def start (wire : Wire) : ReplayState := ⟨wire.genesis, 0, 0, false, 0, []⟩

def pass (state : ReplayState) (frame : Frame) : ReplayState :=
  { state with
    frames := state.frames + 1
    offset := state.offset + framedLen frame.payload.length }

def afterCheckpoint (state : ReplayState) (position : JournalPosition) : ReplayState :=
  { state with position, sealedOff := decide (state.frames ≠ 0) }

def afterEvent (state : ReplayState) (position : JournalPosition) (event : EffectEvent) :
    ReplayState :=
  { state with
    position
    yielded := state.yielded + 1
    handedOut := state.handedOut ++ [event] }

end ReplayState

def readExactOrEof (count : Nat) (rest : Bytes) : Option Nat :=
  if min count rest.length = 0 then none else some (min count rest.length)

def replayFrame (wire : Wire) (state : ReplayState) (frame : Frame) :
    Except JournalError ReplayState :=
  if state.sealedOff then .error (.corrupt ⟨state.frames, .sealed⟩)
  else
    match wire.fromPayload frame.payload with
    | some decoded =>
      match decoded with
      | .error cause => .error cause
      | .ok checkpoint =>
        match verifyFrame wire frame.payload frame.head checkpoint.predecessor
            state.frames with
        | .error cause => .error cause
        | .ok position => .ok (state.afterCheckpoint position)
    | none =>
      match wire.eventFromBytes frame.payload with
      | none => .error (.corrupt ⟨state.frames, .undecodable⟩)
      | some event =>
        match verifyFrame wire frame.payload frame.head state.position state.frames with
        | .error cause => .error cause
        | .ok position => .ok (state.afterEvent position event)

/-- A file that ends inside a frame ends the stream, unless the tail is refused. -/
def endOfAcknowledgedPrefix (wire : Wire) (file : Bytes) (state : ReplayState) :
    Option JournalError :=
  match resolveAmbiguousTail wire file state.offset state.position state.yielded with
  | .ok _ => none
  | .error cause => some cause

def replayTurn (wire : Wire) (file : Bytes) (state : ReplayState) (rest : Bytes) :
    Turn ReplayState (Option JournalError) :=
  match readExactOrEof lengthBytes rest with
  | none => .stop none
  | some readLen =>
    if readLen < lengthBytes then .stop none
    else if maxJournalEvents ≤ state.yielded then
      .stop (some (.capacityExceeded .events maxJournalEvents (state.yielded + 1)))
    else
      let payloadLen := Bytes.ofBE (Bytes.fill lengthBytes rest)
      if payloadLen = 0 ∨ maxFrameBytes < payloadLen then
        .stop (some (.corrupt ⟨state.frames, .framed⟩))
      else
        let behind := rest.drop lengthBytes
        match readPiece payloadLen behind with
        | .interrupted => .stop (endOfAcknowledgedPrefix wire file state)
        | .filled =>
          let after := behind.drop payloadLen
          match readPiece headBytes after with
          | .interrupted => .stop (endOfAcknowledgedPrefix wire file state)
          | .filled =>
            let frame : Frame := ⟨Bytes.fill payloadLen behind, Digest.fromBytes after⟩
            match replayFrame wire state frame with
            | .error cause => .stop (some cause)
            | .ok next => .go (next.pass frame) (after.drop headBytes)

theorem replayTurn_eq (wire : Wire) (file : Bytes) (state : ReplayState) (rest : Bytes) :
    replayTurn wire file state rest =
      match nextFrame rest state.yielded maxJournalEvents state.frames with
      | .error cause => .stop (some cause)
      | .ok (.error .ambiguous) => .stop (endOfAcknowledgedPrefix wire file state)
      | .ok (.error _) => .stop none
      | .ok (.ok (frame, left)) =>
        match replayFrame wire state frame with
        | .error cause => .stop (some cause)
        | .ok next => .go (next.pass frame) left := by
  unfold replayTurn nextFrame readExactOrEof
  cases hread : readPrefix rest with
  | eof =>
    unfold readPrefix at hread
    split at hread
    · rename_i hlength
      simp [hlength]
    · split at hread <;> cases hread
  | torn =>
    unfold readPrefix at hread
    split at hread
    · cases hread
    · rename_i hlength
      split at hread
      · rename_i hshort
        have hmin : min lengthBytes rest.length = rest.length := by omega
        simp only [hmin]
        rw [if_neg hlength]
        simp only [hshort, if_true]
      · cases hread
  | full =>
    unfold readPrefix at hread
    split at hread
    · cases hread
    · split at hread
      · cases hread
      · rename_i hlong
        have hmin : min lengthBytes rest.length = lengthBytes := by omega
        simp only [hmin]
        rw [if_neg (by decide)]
        simp only [lt_self_iff_false, if_false]
        by_cases hfull : maxJournalEvents ≤ state.yielded
        · have hheld : maxJournalEvents < state.yielded + 1 := by omega
          rw [if_pos hfull, if_pos hheld]
        · have hheld : ¬ maxJournalEvents < state.yielded + 1 := by omega
          rw [if_neg hfull, if_neg hheld]
          unfold declaredLength
          generalize Bytes.ofBE (Bytes.fill lengthBytes rest) = payloadLen
          by_cases hpossible : isPossibleLength payloadLen maxFrameBytes = true
          · have hlength : ¬ (payloadLen = 0 ∨ maxFrameBytes < payloadLen) := by
              simp only [isPossibleLength, Bool.and_eq_true, decide_eq_true_eq] at hpossible
              omega
            rw [if_neg hlength, if_pos hpossible]
            cases readPiece payloadLen (rest.drop lengthBytes) with
            | interrupted => rfl
            | filled =>
              simp only []
              cases readPiece headBytes ((rest.drop lengthBytes).drop payloadLen) with
              | interrupted => rfl
              | filled => rfl
          · have hlength : payloadLen = 0 ∨ maxFrameBytes < payloadLen := by
              simp only [isPossibleLength, Bool.and_eq_true, decide_eq_true_eq] at hpossible
              omega
            rw [if_pos hlength, if_neg hpossible]

def replayer (wire : Wire) (file : Bytes) : Reader ReplayState (Option JournalError) where
  turn := replayTurn wire file
  consumes := by
    intro state rest next left h
    rw [replayTurn_eq] at h
    split at h
    · cases h
    · cases h
    · cases h
    · rename_i frame left' hframe
      split at h
      · cases h
      · cases h
        obtain ⟨-, -, hrest⟩ := nextFrame_ok hframe
        have hlength := List.length_pos_iff.mpr frame.bytes_ne_nil
        rw [hrest, List.length_append]
        omega

theorem turn_replayer (wire : Wire) (file : Bytes) :
    (replayer wire file).turn = replayTurn wire file := rfl

def replay (wire : Wire) (file : Bytes) : List EffectEvent × Option JournalError :=
  let ended := (replayer wire file).run (.start wire) file
  (ended.1.handedOut, ended.2)

/-- What opening reads from the same file: the events its scan collects, and the refusal of
its scan or of its tail resolution, if any. -/
def openRead (wire : Wire) (file : Bytes) : List EffectEvent × Option JournalError :=
  let ended := (scanner wire maxJournalEvents).run (.start wire) file
  let events := ended.1.entries.map JournalEntry.event
  match ended.2 with
  | .error cause => (events, some cause)
  | .ok .ambiguous =>
    match resolveAmbiguousTail wire file ended.1.offset ended.1.position
        ended.1.entries.length with
    | .ok _ => (events, none)
    | .error cause => (events, some cause)
  | .ok _ => (events, none)

/-- The two readers stand at the same place of the same file. -/
structure InStep (wire : Wire) (file : Bytes) (scanned : ScanState) (state : ReplayState)
    (rest : Bytes) : Prop where
  position : state.position = scanned.position
  yielded : state.yielded = scanned.entries.length
  handedOut : state.handedOut = scanned.entries.map JournalEntry.event
  frames : state.frames = scanned.index
  offset : state.offset = scanned.offset
  sealedOff : state.sealedOff = scanned.ownSeal.isSome
  reached : ∃ front, file = framesBytes front ++ rest ∧ (∀ frame ∈ front, frame.Sized) ∧
    scanFrames wire maxJournalEvents (.start wire) front = .ok scanned

/-- No frame the scan reaches is a sealed record that stands behind this file's own seal or
that also reads as an event. -/
def SealedRecordsPlain (wire : Wire) (file : Bytes) : Prop :=
  ∀ (front : List Frame) (frame : Frame) (left : Bytes) (state : ScanState),
    file = framesBytes front ++ (frame.bytes ++ left) →
    (∀ other ∈ front, other.Sized) → frame.Sized →
    scanFrames wire maxJournalEvents (.start wire) front = .ok state →
    state.entries.length < maxJournalEvents →
    wire.fromPayload frame.payload = none → wire.isSealed frame.payload = true →
    state.ownSeal = none ∧ wire.eventFromBytes frame.payload = none

section Agreement

variable {wire : Wire} {file : Bytes}

theorem inStep_start : InStep wire file (.start wire) (.start wire) file :=
  ⟨rfl, rfl, rfl, rfl, rfl, rfl, [], rfl, by simp, rfl⟩

theorem inStep_frame {scanned next : ScanState} {state : ReplayState} {frame : Frame}
    {left : Bytes} (h : InStep wire file scanned state (frame.bytes ++ left))
    (hsized : frame.Sized) (hroom : scanned.entries.length < maxJournalEvents)
    (hstep : FrameStep wire scanned frame next) :
    ∃ after, replayFrame wire state frame = .ok after ∧
      InStep wire file next (after.pass frame) left := by
  obtain ⟨front, hfile, hfront, hscan⟩ := h.reached
  have hreached : ∃ front, file = framesBytes front ++ left ∧ (∀ frame ∈ front, frame.Sized) ∧
      scanFrames wire maxJournalEvents (.start wire) front = .ok next := by
    refine ⟨front ++ [frame], ?_, ?_, ?_⟩
    · simp [hfile]
    · intro other hother
      rcases List.mem_append.mp hother with hother | hother
      · exact hfront other hother
      · rwa [List.mem_singleton.mp hother]
    · exact scanFrames_append.mpr ⟨scanned, hscan, scanFrames_single.mpr ⟨hroom, hstep⟩⟩
  have hopen : state.sealedOff = false := by
    rw [h.sealedOff, hstep.ownSeal_eq_none]
    rfl
  unfold replayFrame
  cases hstep with
  | carried checkpoint hpayload hseal hindex hhead =>
    refine ⟨state.afterCheckpoint (wire.after checkpoint.predecessor frame.payload),
      by simp [hopen, hpayload, verifyFrame_of_head _ hhead], ?_⟩
    refine ⟨rfl, h.yielded, h.handedOut, ?_, ?_, ?_, hreached⟩
    · exact congrArg (· + 1) h.frames
    · exact congrArg (· + framedLen frame.payload.length) h.offset
    · simp [ReplayState.pass, ReplayState.afterCheckpoint, ScanState.afterCarried,
        ScanState.pass, h.frames, hindex, hseal]
  | closing checkpoint hpayload hseal hindex hhead =>
    refine ⟨state.afterCheckpoint (wire.after checkpoint.predecessor frame.payload),
      by simp [hopen, hpayload, verifyFrame_of_head _ hhead], ?_⟩
    refine ⟨rfl, h.yielded, h.handedOut, ?_, ?_, ?_, hreached⟩
    · exact congrArg (· + 1) h.frames
    · exact congrArg (· + framedLen frame.payload.length) h.offset
    · simp [ReplayState.pass, ReplayState.afterCheckpoint, ScanState.afterSeal,
        h.frames, hindex]
  | event event hpayload hplain hseal hevent hhead =>
    rw [← h.position] at hhead
    refine ⟨state.afterEvent (wire.after state.position frame.payload) event,
      by simp [hopen, hpayload, hevent, verifyFrame_of_head _ hhead], ?_⟩
    refine ⟨?_, ?_, ?_, ?_, ?_, ?_, hreached⟩
    · exact congrArg (wire.after · frame.payload) h.position
    · simp [ReplayState.pass, ReplayState.afterEvent, ScanState.afterEvent, h.yielded]
    · simp [ReplayState.pass, ReplayState.afterEvent, ScanState.afterEvent, h.handedOut]
    · exact congrArg (· + 1) h.frames
    · exact congrArg (· + framedLen frame.payload.length) h.offset
    · exact h.sealedOff

/-- A frame the scan refuses is refused by the stream for the same reason, when it is not a
sealed record the stream reads otherwise. -/
theorem replayFrame_error {scanned : ScanState} {state : ReplayState} {frame : Frame}
    {rest : Bytes} {cause : JournalError} (h : InStep wire file scanned state rest)
    (hplain : wire.fromPayload frame.payload = none → wire.isSealed frame.payload = true →
      scanned.ownSeal = none ∧ wire.eventFromBytes frame.payload = none)
    (hscan : scanFrame wire scanned frame = .error cause) :
    replayFrame wire state frame = .error cause := by
  unfold replayFrame
  unfold scanFrame at hscan
  rw [h.sealedOff, h.frames, h.position]
  cases hpayload : wire.fromPayload frame.payload with
  | some decoded =>
    simp only [hpayload] at hscan ⊢
    split at hscan
    · rename_i hseal
      rw [if_pos hseal]
      cases hscan
      rfl
    · rename_i hseal
      rw [if_neg hseal]
      cases decoded with
      | error reason =>
        cases hscan
        rfl
      | ok checkpoint =>
        dsimp only at hscan ⊢
        cases hverify : verifyFrame wire frame.payload frame.head checkpoint.predecessor
            scanned.index with
        | error reason =>
          simp only [hverify] at hscan ⊢
          exact congrArg Except.error (Except.error.inj hscan)
        | ok position =>
          simp only [hverify] at hscan
          split at hscan <;> cases hscan
  | none =>
    simp only [hpayload] at hscan ⊢
    split at hscan
    · rename_i hsealed
      obtain ⟨hseal, hevent⟩ := hplain hpayload hsealed
      cases hscan
      simp [hseal, hevent]
    · split at hscan
      · rename_i hseal
        rw [if_pos hseal]
        exact congrArg Except.error (Except.error.inj hscan)
      · rename_i hseal
        rw [if_neg hseal]
        cases hevent : wire.eventFromBytes frame.payload with
        | none =>
          simp only [hevent] at hscan ⊢
          exact congrArg Except.error (Except.error.inj hscan)
        | some event =>
          simp only [hevent] at hscan ⊢
          cases hverify : verifyFrame wire frame.payload frame.head scanned.position
              scanned.index with
          | error reason =>
            simp only [hverify] at hscan ⊢
            exact congrArg Except.error (Except.error.inj hscan)
          | ok position =>
            simp only [hverify] at hscan
            cases hscan

def EndsAlike (wire : Wire) (file : Bytes) :
    ScanState × Except JournalError Halt → ReplayState × Option JournalError → Prop
  | (scanned, outcome), (state, ended) =>
    state.handedOut = scanned.entries.map JournalEntry.event ∧
      match outcome with
      | .error cause => ended = some cause
      | .ok .ambiguous =>
        ended = match resolveAmbiguousTail wire file scanned.offset scanned.position
            scanned.entries.length with
          | .ok _ => none
          | .error cause => some cause
      | .ok _ => ended = none

theorem turnsMatch (hplain : SealedRecordsPlain wire file) {scanned : ScanState}
    {state : ReplayState} {rest : Bytes} (h : InStep wire file scanned state rest) :
    Reader.TurnsMatch (InStep wire file) (EndsAlike wire file) scanned state
      ((scanner wire maxJournalEvents).turn scanned rest)
      ((replayer wire file).turn state rest) := by
  rw [turn_scanner, turn_replayer, replayTurn_eq, h.yielded, h.frames]
  unfold scanTurn
  cases hnext : nextFrame rest scanned.entries.length maxJournalEvents scanned.index with
  | error cause => exact ⟨h.handedOut, rfl⟩
  | ok read =>
    cases read with
    | error halt =>
      cases halt with
      | complete => exact ⟨h.handedOut, rfl⟩
      | torn => exact ⟨h.handedOut, rfl⟩
      | ambiguous =>
        refine ⟨h.handedOut, ?_⟩
        simp only [endOfAcknowledgedPrefix, h.offset, h.position, h.yielded]
    | ok whole =>
      obtain ⟨frame, left⟩ := whole
      obtain ⟨hroom, hsized, hrest⟩ := nextFrame_ok hnext
      rw [hrest] at h
      cases hscan : scanFrame wire scanned frame with
      | ok next =>
        obtain ⟨after, hreplay, hinStep⟩ :=
          inStep_frame h hsized hroom (scanFrame_ok hscan)
        simp only [hscan, hreplay]
        exact ⟨rfl, hinStep⟩
      | error cause =>
        obtain ⟨front, hfile, hfront, hreached⟩ := h.reached
        have hsame := replayFrame_error h
          (hplain front frame left scanned hfile hfront hsized hreached hroom) hscan
        simp only [hscan, hsame]
        exact ⟨h.handedOut, rfl⟩

theorem replay_eq_openRead (hplain : SealedRecordsPlain wire file) :
    replay wire file = openRead wire file := by
  have hended : EndsAlike wire file _ _ := Reader.run_related
    (fun scanned state rest h => turnsMatch hplain h) (@inStep_start wire file)
  unfold replay openRead
  generalize (scanner wire maxJournalEvents).run (.start wire) file = scanned at hended ⊢
  generalize (replayer wire file).run (.start wire) file = state at hended ⊢
  obtain ⟨scanned, outcome⟩ := scanned
  obtain ⟨hevents, houtcome⟩ := hended
  simp only [hevents]
  cases outcome with
  | error cause => rw [houtcome]
  | ok halt =>
    cases halt with
    | complete => rw [houtcome]
    | torn => rw [houtcome]
    | ambiguous =>
      rw [houtcome]
      split <;> simp_all

theorem handedOut_grows (state : ReplayState) (rest : Bytes) :
    state.handedOut <+: ((replayer wire file).run state rest).1.handedOut := by
  refine Reader.run_invariant (I := fun later : ReplayState =>
    state.handedOut <+: later.handedOut) ?_ rest List.prefix_rfl
  · intro before unread next left hbefore hturn
    rw [turn_replayer, replayTurn_eq] at hturn
    split at hturn
    · cases hturn
    · cases hturn
    · cases hturn
    · split at hturn
      · cases hturn
      · rename_i frame left' hnext after hframe
        cases hturn
        apply hbefore.trans
        unfold replayFrame at hframe
        split at hframe
        · cases hframe
        · split at hframe
          · split at hframe
            · cases hframe
            · split at hframe
              · cases hframe
              · cases hframe
                exact List.prefix_rfl
          · split at hframe
            · cases hframe
            · split at hframe
              · cases hframe
              · cases hframe
                exact List.prefix_append _ _

end Agreement

end LogicalWorks.Journal
