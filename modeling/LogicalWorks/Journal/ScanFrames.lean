import LogicalWorks.Journal.Scan

/-! The scan over a file of whole frames is a fold over those frames, and every file it
reads to an end without damage is whole frames with at most a partial one behind them. -/
namespace LogicalWorks.Journal

variable {wire : Wire}

inductive FrameStep (wire : Wire) (state : ScanState) (frame : Frame) : ScanState → Prop where
  | carried (checkpoint : Continuation)
      (hpayload : wire.fromPayload frame.payload = some (.ok checkpoint))
      (hseal : state.ownSeal = none) (hindex : state.index = 0)
      (hhead : frame.head = wire.chainOverBytes checkpoint.predecessor.head frame.payload) :
      FrameStep wire state frame
        (state.afterCarried frame (wire.after checkpoint.predecessor frame.payload) checkpoint)
  | closing (checkpoint : Continuation)
      (hpayload : wire.fromPayload frame.payload = some (.ok checkpoint))
      (hseal : state.ownSeal = none) (hindex : state.index ≠ 0)
      (hhead : frame.head = wire.chainOverBytes checkpoint.predecessor.head frame.payload) :
      FrameStep wire state frame
        (state.afterSeal frame (wire.after checkpoint.predecessor frame.payload) checkpoint)
  | event (event : EffectEvent)
      (hpayload : wire.fromPayload frame.payload = none)
      (hplain : wire.isSealed frame.payload = false)
      (hseal : state.ownSeal = none)
      (hevent : wire.eventFromBytes frame.payload = some event)
      (hhead : frame.head = wire.chainOverBytes state.position.head frame.payload) :
      FrameStep wire state frame
        (state.afterEvent frame (wire.after state.position frame.payload) event)

theorem verifyFrame_ok {payload : Bytes} {head : Digest} {position verified : JournalPosition}
    {index : Nat} :
    verifyFrame wire payload head position index = .ok verified ↔
      head = wire.chainOverBytes position.head payload ∧
        verified = wire.after position payload := by
  unfold verifyFrame
  constructor
  · intro h
    simp only at h
    split at h
    · rename_i hsame
      cases h
      exact ⟨congrArg JournalPosition.head hsame, hsame⟩
    · cases h
  · rintro ⟨rfl, rfl⟩
    exact if_pos rfl

theorem verifyFrame_of_head {payload : Bytes} {head : Digest} {position : JournalPosition}
    (index : Nat) (h : head = wire.chainOverBytes position.head payload) :
    verifyFrame wire payload head position index = .ok (wire.after position payload) :=
  verifyFrame_ok.mpr ⟨h, rfl⟩

theorem scanFrame_ok {state next : ScanState} {frame : Frame}
    (h : scanFrame wire state frame = .ok next) : FrameStep wire state frame next := by
  unfold scanFrame at h
  split at h
  · rename_i decoded hpayload
    split at h
    · cases h
    · rename_i hseal
      have hnone : state.ownSeal = none := by simpa using hseal
      split at h
      · cases h
      · rename_i checkpoint
        split at h
        · cases h
        · rename_i position hverify
          obtain ⟨hhead, rfl⟩ := verifyFrame_ok.mp hverify
          split at h
          · rename_i hindex
            cases h
            exact .carried checkpoint hpayload hnone hindex hhead
          · rename_i hindex
            cases h
            exact .closing checkpoint hpayload hnone hindex hhead
  · rename_i hpayload
    split at h
    · cases h
    · rename_i hplain
      split at h
      · cases h
      · rename_i hseal
        have hnone : state.ownSeal = none := by simpa using hseal
        split at h
        · cases h
        · rename_i event hevent
          split at h
          · cases h
          · rename_i position hverify
            obtain ⟨hhead, rfl⟩ := verifyFrame_ok.mp hverify
            cases h
            exact .event event hpayload (by simpa using hplain) hnone hevent hhead

theorem scanFrame_of_step {state next : ScanState} {frame : Frame}
    (h : FrameStep wire state frame next) : scanFrame wire state frame = .ok next := by
  unfold scanFrame
  cases h with
  | carried checkpoint hpayload hseal hindex hhead =>
    simp [hpayload, hseal, hindex, verifyFrame_of_head _ hhead]
  | closing checkpoint hpayload hseal hindex hhead =>
    simp [hpayload, hseal, hindex, verifyFrame_of_head _ hhead]
  | event event hpayload hplain hseal hevent hhead =>
    simp [hpayload, hplain, hseal, hevent, verifyFrame_of_head _ hhead]

namespace FrameStep

variable {state next : ScanState} {frame : Frame}

theorem index_eq (h : FrameStep wire state frame next) : next.index = state.index + 1 := by
  cases h <;> rfl

theorem offset_eq (h : FrameStep wire state frame next) :
    next.offset = state.offset + frame.bytes.length := by
  rw [Frame.length_bytes]
  cases h <;> rfl

theorem head_eq (h : FrameStep wire state frame next) : next.position.head = frame.head := by
  cases h with
  | carried checkpoint hpayload hseal hindex hhead => exact hhead.symm
  | closing checkpoint hpayload hseal hindex hhead => exact hhead.symm
  | event event hpayload hplain hseal hevent hhead => exact hhead.symm

theorem ownSeal_eq_none (h : FrameStep wire state frame next) : state.ownSeal = none := by
  cases h <;> assumption

end FrameStep

def scanFrames (wire : Wire) (maxEvents : Nat) (state : ScanState) :
    List Frame → Except JournalError ScanState
  | [] => .ok state
  | frame :: rest =>
    if maxEvents < state.entries.length + 1 then
      .error (.capacityExceeded .events maxEvents (state.entries.length + 1))
    else
      match scanFrame wire state frame with
      | .error cause => .error cause
      | .ok next => scanFrames wire maxEvents next rest

variable {maxEvents : Nat}

theorem scanFrames_cons {state : ScanState} {frame : Frame} {rest : List Frame}
    {final : ScanState} :
    scanFrames wire maxEvents state (frame :: rest) = .ok final ↔
      state.entries.length < maxEvents ∧ ∃ next, FrameStep wire state frame next ∧
        scanFrames wire maxEvents next rest = .ok final := by
  constructor
  · intro h
    unfold scanFrames at h
    split at h
    · cases h
    · split at h
      · cases h
      · rename_i next hframe
        exact ⟨by omega, next, scanFrame_ok hframe, h⟩
  · rintro ⟨hroom, next, hstep, hrest⟩
    unfold scanFrames
    rw [if_neg (by omega), scanFrame_of_step hstep]
    exact hrest

theorem scanFrames_append {state final : ScanState} {left right : List Frame} :
    scanFrames wire maxEvents state (left ++ right) = .ok final ↔
      ∃ middle, scanFrames wire maxEvents state left = .ok middle ∧
        scanFrames wire maxEvents middle right = .ok final := by
  induction left generalizing state with
  | nil =>
    constructor
    · intro h
      exact ⟨state, rfl, h⟩
    · rintro ⟨middle, hleft, hright⟩
      cases hleft
      exact hright
  | cons frame rest ih =>
    rw [List.cons_append, scanFrames_cons]
    constructor
    · rintro ⟨hroom, next, hstep, hrest⟩
      obtain ⟨middle, hleft, hright⟩ := ih.mp hrest
      exact ⟨middle, scanFrames_cons.mpr ⟨hroom, next, hstep, hleft⟩, hright⟩
    · rintro ⟨middle, hleft, hright⟩
      obtain ⟨hroom, next, hstep, hrest⟩ := scanFrames_cons.mp hleft
      exact ⟨hroom, next, hstep, ih.mpr ⟨middle, hrest, hright⟩⟩

theorem scanFrames_single {state final : ScanState} {frame : Frame} :
    scanFrames wire maxEvents state [frame] = .ok final ↔
      state.entries.length < maxEvents ∧ FrameStep wire state frame final := by
  rw [scanFrames_cons]
  constructor
  · rintro ⟨hroom, next, hstep, hrest⟩
    cases hrest
    exact ⟨hroom, hstep⟩
  · rintro ⟨hroom, hstep⟩
    exact ⟨hroom, final, hstep, rfl⟩

theorem scanFrames_induct {P : ScanState → Prop} {state final : ScanState}
    {frames : List Frame} (h : scanFrames wire maxEvents state frames = .ok final)
    (hstart : P state)
    (hstep : ∀ frame ∈ frames, ∀ before after, P before →
      FrameStep wire before frame after → P after) : P final := by
  induction frames generalizing state with
  | nil =>
    cases h
    exact hstart
  | cons frame rest ih =>
    obtain ⟨-, next, hframe, hrest⟩ := scanFrames_cons.mp h
    apply ih hrest
    · exact hstep frame List.mem_cons_self state next hstart hframe
    · intro other hother
      exact hstep other (List.mem_cons_of_mem _ hother)

theorem scanFrames_index {state final : ScanState} {frames : List Frame}
    (h : scanFrames wire maxEvents state frames = .ok final) :
    final.index = state.index + frames.length := by
  induction frames generalizing state with
  | nil =>
    cases h
    rfl
  | cons frame rest ih =>
    obtain ⟨-, next, hframe, hrest⟩ := scanFrames_cons.mp h
    rw [ih hrest, hframe.index_eq, List.length_cons]
    omega

theorem scanFrames_offset {state final : ScanState} {frames : List Frame}
    (h : scanFrames wire maxEvents state frames = .ok final) :
    final.offset = state.offset + (framesBytes frames).length := by
  induction frames generalizing state with
  | nil =>
    cases h
    rfl
  | cons frame rest ih =>
    obtain ⟨-, next, hframe, hrest⟩ := scanFrames_cons.mp h
    rw [ih hrest, hframe.offset_eq, framesBytes_cons, List.length_append]
    omega

theorem scanFrames_after_seal {state : ScanState} (h : state.ownSeal ≠ none)
    (frame : Frame) (rest : List Frame) (final : ScanState) :
    scanFrames wire maxEvents state (frame :: rest) ≠ .ok final := by
  intro hok
  obtain ⟨-, next, hstep, -⟩ := scanFrames_cons.mp hok
  exact h hstep.ownSeal_eq_none

theorem scanFrames_append_of_ok {state middle : ScanState} {left : List Frame}
    (right : List Frame) (h : scanFrames wire maxEvents state left = .ok middle) :
    scanFrames wire maxEvents state (left ++ right) = scanFrames wire maxEvents middle right := by
  induction left generalizing state with
  | nil =>
    cases h
    rfl
  | cons frame rest ih =>
    obtain ⟨hroom, next, hframe, hrest⟩ := scanFrames_cons.mp h
    rw [List.cons_append, scanFrames, if_neg (by omega), scanFrame_of_step hframe]
    exact ih hrest

theorem scanFrames_after_seal_error {state : ScanState} (h : state.ownSeal ≠ none)
    (frame : Frame) (rest : List Frame) :
    scanFrames wire maxEvents state (frame :: rest) =
        .error (.capacityExceeded .events maxEvents (state.entries.length + 1)) ∨
      ∃ kind, scanFrames wire maxEvents state (frame :: rest) =
        .error (.corrupt ⟨state.index, kind⟩) := by
  have hseal : state.ownSeal.isSome = true := Option.isSome_iff_ne_none.mpr h
  unfold scanFrames
  split
  · exact Or.inl rfl
  · right
    unfold scanFrame
    cases wire.fromPayload frame.payload with
    | some decoded =>
      simp only [hseal, if_true]
      exact ⟨_, rfl⟩
    | none =>
      simp only [hseal, if_true]
      by_cases hplain : wire.isSealed frame.payload = true
      · simp only [hplain, if_true]
        exact ⟨_, rfl⟩
      · simp only [hplain]
        exact ⟨_, rfl⟩

section Run

theorem turn_bytes {state next : ScanState} {frame : Frame} (hsized : frame.Sized)
    (left : Bytes) (hroom : state.entries.length < maxEvents)
    (hstep : FrameStep wire state frame next) :
    (scanner wire maxEvents).turn state (frame.bytes ++ left) = .go next left := by
  rw [turn_scanner]
  unfold scanTurn
  rw [nextFrame_bytes hsized left hroom]
  simp only [scanFrame_of_step hstep]

theorem run_framesBytes {state final : ScanState} {frames : List Frame}
    (hsized : ∀ frame ∈ frames, frame.Sized)
    (h : scanFrames wire maxEvents state frames = .ok final) (left : Bytes) :
    (scanner wire maxEvents).run state (framesBytes frames ++ left) =
      (scanner wire maxEvents).run final left := by
  induction frames generalizing state with
  | nil =>
    cases h
    rfl
  | cons frame rest ih =>
    obtain ⟨hroom, next, hframe, hrest⟩ := scanFrames_cons.mp h
    rw [framesBytes_cons, List.append_assoc,
      Reader.run_go (turn_bytes (hsized frame List.mem_cons_self) _ hroom hframe)]
    apply ih _ hrest
    intro other hother
    exact hsized other (List.mem_cons_of_mem _ hother)

theorem run_framesBytes_error {state : ScanState} {frames : List Frame} {cause : JournalError}
    (hsized : ∀ frame ∈ frames, frame.Sized)
    (h : scanFrames wire maxEvents state frames = .error cause) (left : Bytes) :
    ((scanner wire maxEvents).run state (framesBytes frames ++ left)).2 = .error cause := by
  induction frames generalizing state with
  | nil => cases h
  | cons frame rest ih =>
    have hfirst := hsized frame List.mem_cons_self
    rw [framesBytes_cons, List.append_assoc]
    unfold scanFrames at h
    split at h
    · rename_i hfull
      have hturn : (scanner wire maxEvents).turn state
          (frame.bytes ++ (framesBytes rest ++ left)) = .stop (.error cause) := by
        rw [turn_scanner]
        unfold scanTurn
        rw [nextFrame_bytes_full _ (by omega)]
        cases h
        rfl
      rw [Reader.run_stop hturn]
    · rename_i hroom
      split at h
      · rename_i cause' hframe
        have hturn : (scanner wire maxEvents).turn state
            (frame.bytes ++ (framesBytes rest ++ left)) = .stop (.error cause) := by
          rw [turn_scanner]
          unfold scanTurn
          rw [nextFrame_bytes hfirst _ (by omega)]
          simp only [hframe]
          cases h
          rfl
        rw [Reader.run_stop hturn]
      · rename_i next hframe
        rw [Reader.run_go (turn_bytes hfirst _ (by omega) (scanFrame_ok hframe))]
        apply ih _ h
        intro other hother
        exact hsized other (List.mem_cons_of_mem _ hother)

/-- Every undamaged end is reached behind whole frames the fold accepts. -/
theorem run_scanner_ok {state final : ScanState} {rest : Bytes} {halt : Halt}
    (h : (scanner wire maxEvents).run state rest = (final, .ok halt)) :
    ∃ frames left, rest = framesBytes frames ++ left ∧ (∀ frame ∈ frames, frame.Sized) ∧
      scanFrames wire maxEvents state frames = .ok final ∧
      nextFrame left final.entries.length maxEvents final.index = .ok (.error halt) := by
  induction state, rest using (scanner wire maxEvents).run_induct with
  | step state rest ih =>
    cases hturn : (scanner wire maxEvents).turn state rest with
    | stop outcome =>
      rw [Reader.run_stop hturn] at h
      cases h
      rw [turn_scanner] at hturn
      unfold scanTurn at hturn
      split at hturn
      · cases hturn
      · rename_i halt' hnext
        cases hturn
        exact ⟨[], rest, rfl, by simp, rfl, hnext⟩
      · split at hturn <;> cases hturn
    | go next left =>
      rw [Reader.run_go hturn] at h
      obtain ⟨frames, behind, hleft, hsized, hframes, hhalt⟩ := ih next left hturn h
      rw [turn_scanner] at hturn
      unfold scanTurn at hturn
      split at hturn
      · cases hturn
      · cases hturn
      · rename_i frame left' hnext
        split at hturn
        · cases hturn
        · rename_i next' hframe
          cases hturn
          obtain ⟨hroom, hfirst, hrest⟩ := nextFrame_ok hnext
          refine ⟨frame :: frames, behind, ?_, ?_, ?_, hhalt⟩
          · rw [hrest, hleft, framesBytes_cons, List.append_assoc]
          · intro other hother
            rcases List.mem_cons.mp hother with rfl | hother
            · exact hfirst
            · exact hsized other hother
          · exact scanFrames_cons.mpr ⟨hroom, next, scanFrame_ok hframe, hframes⟩

theorem turn_halt {state : ScanState} {rest : Bytes} {halt : Halt}
    (h : nextFrame rest state.entries.length maxEvents state.index = .ok (.error halt)) :
    (scanner wire maxEvents).turn state rest = .stop (.ok halt) := by
  rw [turn_scanner]
  unfold scanTurn
  rw [h]

theorem nextFrame_ne_superseded (rest : Bytes) (held index : Nat) (next : JournalPath) :
    nextFrame rest held maxEvents index ≠ .error (.superseded next) := by
  unfold nextFrame
  intro h
  split at h
  · cases h
  · cases h
  · split at h
    · cases h
    · simp only at h
      split at h
      · split at h
        · cases h
        · split at h <;> cases h
      · cases h

theorem verifyFrame_ne_superseded (payload : Bytes) (head : Digest) (position : JournalPosition)
    (index : Nat) (next : JournalPath) :
    verifyFrame wire payload head position index ≠ .error (.superseded next) := by
  unfold verifyFrame
  intro h
  dsimp only at h
  split at h <;> cases h

theorem fromPayload_ne_superseded (payload : Bytes) (next : JournalPath) :
    wire.fromPayload payload ≠ some (.error (.superseded next)) := by
  unfold Wire.fromPayload
  intro h
  split at h
  · split at h <;> cases h
  · cases h

theorem scanFrame_ne_superseded (state : ScanState) (frame : Frame) (next : JournalPath) :
    scanFrame wire state frame ≠ .error (.superseded next) := by
  unfold scanFrame
  intro h
  split at h
  · rename_i hdecoded
    split at h
    · cases h
    · split at h
      · cases h
        exact fromPayload_ne_superseded _ _ hdecoded
      · split at h
        · rename_i hverify
          cases h
          exact verifyFrame_ne_superseded _ _ _ _ _ hverify
        · split at h <;> cases h
  · split at h
    · cases h
    · split at h
      · cases h
      · split at h
        · cases h
        · split at h
          · rename_i hverify
            cases h
            exact verifyFrame_ne_superseded _ _ _ _ _ hverify
          · cases h

theorem scan_ne_superseded (file : Bytes) (next : JournalPath) :
    scan wire file maxEvents ≠ .error (.superseded next) := by
  have hrun : ∀ state rest,
      ((scanner wire maxEvents).run state rest).2 ≠ .error (.superseded next) := by
    intro state rest
    induction state, rest using (scanner wire maxEvents).run_induct with
    | step state rest ih =>
      cases hturn : (scanner wire maxEvents).turn state rest with
      | go onward left =>
        rw [Reader.run_go hturn]
        exact ih onward left hturn
      | stop outcome =>
        rw [Reader.run_stop hturn]
        rintro rfl
        rw [turn_scanner] at hturn
        unfold scanTurn at hturn
        split at hturn
        · rename_i hnext
          cases hturn
          exact nextFrame_ne_superseded _ _ _ _ hnext
        · cases hturn
        · split at hturn
          · rename_i hframe
            cases hturn
            exact scanFrame_ne_superseded _ _ _ hframe
          · cases hturn
  unfold scan
  intro h
  split at h
  · rename_i hread
    cases h
    exact hrun (.start wire) file (by rw [hread])
  · cases h

end Run

/-- A file of whole frames is read to its end exactly as the fold over them goes. -/
theorem scan_framesBytes {frames : List Frame} (hsized : ∀ frame ∈ frames, frame.Sized) :
    scan wire (framesBytes frames) maxEvents =
      match scanFrames wire maxEvents (.start wire) frames with
      | .error cause => .error cause
      | .ok final => .ok (final.scanned .complete) := by
  unfold scan
  rw [← List.append_nil (framesBytes frames)]
  cases h : scanFrames wire maxEvents (.start wire) frames with
  | error cause =>
    have herror := run_framesBytes_error hsized h []
    split
    · rename_i hrun
      rw [hrun] at herror
      cases herror
      rfl
    · rename_i hrun
      rw [hrun] at herror
      cases herror
  | ok final =>
    rw [run_framesBytes hsized h, Reader.run_stop (turn_halt (nextFrame_nil _ _ _))]

theorem scan_ok {file : Bytes} {scanned : Scanned}
    (h : scan wire file maxEvents = .ok scanned) :
    ∃ frames left final halt, file = framesBytes frames ++ left ∧
      (∀ frame ∈ frames, frame.Sized) ∧
      scanFrames wire maxEvents (.start wire) frames = .ok final ∧
      nextFrame left final.entries.length maxEvents final.index = .ok (.error halt) ∧
      scanned = final.scanned halt := by
  unfold scan at h
  split at h
  · cases h
  · rename_i final halt hrun
    obtain ⟨frames, left, hfile, hsized, hframes, hhalt⟩ := run_scanner_ok hrun
    cases h
    exact ⟨frames, left, final, halt, hfile, hsized, hframes, hhalt, rfl⟩

theorem scan_complete {file : Bytes} {scanned : Scanned} {offset : Nat}
    (h : scan wire file maxEvents = .ok scanned) (hstop : scanned.stop = .complete offset) :
    ∃ frames final, file = framesBytes frames ∧ (∀ frame ∈ frames, frame.Sized) ∧
      scanFrames wire maxEvents (.start wire) frames = .ok final ∧
      scanned = final.scanned .complete := by
  obtain ⟨frames, left, final, halt, hfile, hsized, hframes, hhalt, hscanned⟩ := scan_ok h
  subst hscanned
  cases halt with
  | complete =>
    rw [nextFrame_complete hhalt, List.append_nil] at hfile
    exact ⟨frames, final, hfile, hsized, hframes, rfl⟩
  | torn => cases hstop
  | ambiguous => cases hstop

end LogicalWorks.Journal
