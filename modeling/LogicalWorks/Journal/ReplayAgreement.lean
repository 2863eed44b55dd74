import LogicalWorks.Journal.Replay
import LogicalWorks.Journal.PlainWire

/-! When streaming replay and opening read a file alike: always in a build without sealed
records, and otherwise exactly when no sealed record is reached that the stream's missing
guard would have stopped. -/
namespace LogicalWorks.Journal

variable {wire : Wire} {file : Bytes}

theorem inStep_frames {front : List Frame} {scanned final : ScanState} {state : ReplayState}
    {rest : Bytes} (h : InStep wire file scanned state (framesBytes front ++ rest))
    (hsized : ∀ frame ∈ front, frame.Sized)
    (hscan : scanFrames wire maxJournalEvents scanned front = .ok final) :
    ∃ reached, InStep wire file final reached rest ∧
      (replayer wire file).run state (framesBytes front ++ rest) =
        (replayer wire file).run reached rest := by
  induction front generalizing scanned state with
  | nil =>
    cases hscan
    exact ⟨state, h, rfl⟩
  | cons frame front ih =>
    obtain ⟨hroom, next, hstep, hrest⟩ := scanFrames_cons.mp hscan
    rw [framesBytes_cons, List.append_assoc] at h ⊢
    have hfirst := hsized frame List.mem_cons_self
    obtain ⟨after, hreplay, hnext⟩ := inStep_frame h hfirst hroom hstep
    have hturn : (replayer wire file).turn state
        (frame.bytes ++ (framesBytes front ++ rest)) =
          .go (after.pass frame) (framesBytes front ++ rest) := by
      rw [turn_replayer, replayTurn_eq, h.yielded, nextFrame_bytes hfirst _ hroom]
      simp only [hreplay]
    rw [Reader.run_go hturn]
    apply ih hnext _ hrest
    intro other hother
    exact hsized other (List.mem_cons_of_mem _ hother)

/-- A sealed record the stream does not stop at as the scan does sets the two apart. -/
theorem replay_ne_openRead {front : List Frame} {frame : Frame} {left : Bytes}
    {scanned : ScanState} (hfile : file = framesBytes front ++ (frame.bytes ++ left))
    (hfront : ∀ other ∈ front, other.Sized) (hsized : frame.Sized)
    (hscan : scanFrames wire maxJournalEvents (.start wire) front = .ok scanned)
    (hroom : scanned.entries.length < maxJournalEvents)
    (hpayload : wire.fromPayload frame.payload = none)
    (hsealed : wire.isSealed frame.payload = true)
    (hread : ¬ (scanned.ownSeal = none ∧ wire.eventFromBytes frame.payload = none)) :
    replay wire file ≠ openRead wire file := by
  have hstart : InStep wire file (.start wire) (.start wire)
      (framesBytes front ++ (frame.bytes ++ left)) := by
    rw [← hfile]
    exact inStep_start
  obtain ⟨state, hstep, hrun⟩ := inStep_frames hstart hfront hscan
  rw [← hfile] at hrun
  have hrefused : scanFrame wire scanned frame =
      .error (.corrupt ⟨scanned.index, .undecodable⟩) := by
    unfold scanFrame
    simp [hpayload, hsealed]
  have hopen : openRead wire file = (scanned.entries.map JournalEntry.event,
      some (.corrupt ⟨scanned.index, .undecodable⟩)) := by
    have hturn : (scanner wire maxJournalEvents).turn scanned (frame.bytes ++ left) =
        .stop (.error (.corrupt ⟨scanned.index, .undecodable⟩)) := by
      rw [turn_scanner]
      unfold scanTurn
      rw [nextFrame_bytes hsized _ hroom]
      simp only [hrefused]
    unfold openRead
    rw [hfile, run_framesBytes hfront hscan, Reader.run_stop hturn]
  have hstop : ∀ cause, replayFrame wire state frame = .error cause →
      (replayer wire file).turn state (frame.bytes ++ left) = .stop (some cause) := by
    intro cause hreplay
    rw [turn_replayer, replayTurn_eq, hstep.yielded, nextFrame_bytes hsized _ hroom]
    simp only [hreplay]
  rw [hopen, replay, hrun]
  by_cases hseal : scanned.ownSeal = none
  · -- the payload reads as an event, which the stream verifies and may hand out
    obtain ⟨event, hevent⟩ := Option.ne_none_iff_exists'.mp fun hnone =>
      hread ⟨hseal, hnone⟩
    have hclosed : state.sealedOff = false := by
      rw [hstep.sealedOff, hseal]
      rfl
    cases hverify : verifyFrame wire frame.payload frame.head state.position state.frames with
    | error cause =>
      have hreplay : replayFrame wire state frame = .error cause := by
        simp [replayFrame, hclosed, hpayload, hevent, hverify]
      rw [Reader.run_stop (hstop _ hreplay)]
      intro hsame
      unfold verifyFrame at hverify
      simp only at hverify
      split at hverify
      · cases hverify
      · cases hverify
        simp at hsame
    | ok position =>
      have hreplay : replayFrame wire state frame = .ok (state.afterEvent position event) := by
        simp [replayFrame, hclosed, hpayload, hevent, hverify]
      have hgo : (replayer wire file).turn state (frame.bytes ++ left) =
          .go ((state.afterEvent position event).pass frame) left := by
        rw [turn_replayer, replayTurn_eq, hstep.yielded, nextFrame_bytes hsized _ hroom]
        simp only [hreplay]
      rw [Reader.run_go hgo]
      intro hsame
      have hgrows := @handedOut_grows wire file ((state.afterEvent position event).pass frame)
        left
      have hevents := congrArg Prod.fst hsame
      simp only at hevents
      rw [hevents] at hgrows
      have hlength := hgrows.length_le
      simp [ReplayState.afterEvent, ReplayState.pass, hstep.handedOut] at hlength
  · have hclosed : state.sealedOff = true := by
      rw [hstep.sealedOff]
      exact Option.isSome_iff_ne_none.mpr hseal
    have hreplay : replayFrame wire state frame =
        .error (.corrupt ⟨state.frames, .sealed⟩) := by
      simp [replayFrame, hclosed]
    rw [Reader.run_stop (hstop _ hreplay)]
    intro hsame
    simp at hsame

/-- Streaming and opening yield the same events and end in the same way, with the same
refusal, exactly on the files with no such record. -/
theorem replay_eq_openRead_iff (wire : Wire) (file : Bytes) :
    replay wire file = openRead wire file ↔ SealedRecordsPlain wire file := by
  constructor
  · intro hsame front frame left state hfile hfront hsized hscan hroom hpayload hsealed
    by_contra hread
    exact replay_ne_openRead hfile hfront hsized hscan hroom hpayload hsealed hread hsame
  · exact replay_eq_openRead

namespace PlainWire

def tombstoneBehindSeal : Bytes :=
  let wire := PlainWire.wire true (checksum 1)
  let first := chained wire wire.genesis.head (eventToBytes (.intentAdmitted (subject 1 1)))
  let closing := chained wire first.head
    (checkpointMagic ++ checkpoint.encode ⟨2, ⟨1, first.head⟩, [], []⟩)
  let tombstone := chained wire closing.head
    (sealedMagic ++ [tagTombstone] ++ List.replicate 24 0)
  framesBytes [first, closing, tombstone]

/-- The scan refuses the tombstone as undecodable, the stream as a frame behind a seal. -/
theorem replay_tombstoneBehindSeal :
    (openRead (PlainWire.wire true (checksum 1)) tombstoneBehindSeal).2 =
        some (.corrupt ⟨2, .undecodable⟩) ∧
      (replay (PlainWire.wire true (checksum 1)) tombstoneBehindSeal).2 =
        some (.corrupt ⟨2, .sealed⟩) := by
  decide +kernel

end PlainWire

end LogicalWorks.Journal
