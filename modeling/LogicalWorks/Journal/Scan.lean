import LogicalWorks.Lib.Reader
import LogicalWorks.Journal.Wire
import LogicalWorks.Journal.Frame

/-! The scan an open makes: frame after frame, each read whole, classified and verified
against the running chain, until the file ends or a frame is refused. -/
namespace LogicalWorks.Journal

inductive ScanStop where
  | complete (offset : Nat)
  | torn (offset : Nat)
  | ambiguousTail (offset : Nat)
  deriving DecidableEq, Repr

/-- Why reading stopped without damage. -/
inductive Halt where
  | complete
  | torn
  | ambiguous
  deriving DecidableEq, Repr

def Halt.stopAt : Halt → Nat → ScanStop
  | .complete, offset => .complete offset
  | .torn, offset => .torn offset
  | .ambiguous, offset => .ambiguousTail offset

def nextFrame (rest : Bytes) (held maxEvents index : Nat) :
    Except JournalError (Except Halt (Frame × Bytes)) :=
  match readPrefix rest with
  | .eof => .ok (.error .complete)
  | .torn => .ok (.error .torn)
  | .full =>
    if maxEvents < held + 1 then .error (.capacityExceeded .events maxEvents (held + 1))
    else
      let payloadLen := declaredLength (Bytes.fill lengthBytes rest)
      if isPossibleLength payloadLen maxFrameBytes then
        let behind := rest.drop lengthBytes
        match readPiece payloadLen behind with
        | .interrupted => .ok (.error .ambiguous)
        | .filled =>
          let after := behind.drop payloadLen
          match readPiece headBytes after with
          | .interrupted => .ok (.error .ambiguous)
          | .filled =>
            .ok (.ok (⟨Bytes.fill payloadLen behind, Digest.fromBytes after⟩,
              after.drop headBytes))
      else .error (.corrupt ⟨index, .framed⟩)

def Wire.after (wire : Wire) (position : JournalPosition) (payload : Bytes) : JournalPosition :=
  ⟨saturatingSucc position.sequence, wire.chainOverBytes position.head payload⟩

def verifyFrame (wire : Wire) (payload : Bytes) (head : Digest) (position : JournalPosition)
    (index : Nat) : Except JournalError JournalPosition :=
  let recomputed := wire.after position payload
  let recorded : JournalPosition := ⟨recomputed.sequence, head⟩
  if recorded = recomputed then .ok recorded
  else .error (.corrupt ⟨index,
    .chain (.disagreement recorded.sequence recorded recomputed)⟩)

structure ScanState where
  entries : List JournalEntry
  carried : Option Continuation
  ownSeal : Option Continuation
  position : JournalPosition
  chainFrom : JournalPosition
  offset : Nat
  index : Nat
  deriving DecidableEq, Repr

namespace ScanState

def start (wire : Wire) : ScanState :=
  ⟨[], none, none, wire.genesis, wire.genesis, 0, 0⟩

def pass (state : ScanState) (frame : Frame) (position : JournalPosition) : ScanState :=
  { state with
    position
    offset := state.offset + framedLen frame.payload.length
    index := state.index + 1 }

def afterCarried (state : ScanState) (frame : Frame) (position : JournalPosition)
    (checkpoint : Continuation) : ScanState :=
  { state.pass frame position with carried := some checkpoint, chainFrom := position }

def afterSeal (state : ScanState) (frame : Frame) (position : JournalPosition)
    (checkpoint : Continuation) : ScanState :=
  { state.pass frame position with ownSeal := some checkpoint }

def afterEvent (state : ScanState) (frame : Frame) (position : JournalPosition)
    (event : EffectEvent) : ScanState :=
  { state.pass frame position with entries := state.entries ++ [⟨position, event⟩] }

end ScanState

def scanFrame (wire : Wire) (state : ScanState) (frame : Frame) :
    Except JournalError ScanState :=
  match wire.fromPayload frame.payload with
  | some decoded =>
    if state.ownSeal.isSome then .error (.corrupt ⟨state.index, .sealed⟩)
    else
      match decoded with
      | .error cause => .error cause
      | .ok checkpoint =>
        match verifyFrame wire frame.payload frame.head checkpoint.predecessor
            state.index with
        | .error cause => .error cause
        | .ok position =>
          if state.index = 0 then .ok (state.afterCarried frame position checkpoint)
          else .ok (state.afterSeal frame position checkpoint)
  | none =>
    if wire.isSealed frame.payload then .error (.corrupt ⟨state.index, .undecodable⟩)
    else if state.ownSeal.isSome then .error (.corrupt ⟨state.index, .sealed⟩)
    else
      match wire.eventFromBytes frame.payload with
      | none => .error (.corrupt ⟨state.index, .undecodable⟩)
      | some event =>
        match verifyFrame wire frame.payload frame.head state.position state.index with
        | .error cause => .error cause
        | .ok position => .ok (state.afterEvent frame position event)

def scanTurn (wire : Wire) (maxEvents : Nat) (state : ScanState) (rest : Bytes) :
    Turn ScanState (Except JournalError Halt) :=
  match nextFrame rest state.entries.length maxEvents state.index with
  | .error cause => .stop (.error cause)
  | .ok (.error halt) => .stop (.ok halt)
  | .ok (.ok (frame, left)) =>
    match scanFrame wire state frame with
    | .error cause => .stop (.error cause)
    | .ok next => .go next left

/-- What reading a whole frame off the front says about the bytes it was read from. -/
theorem nextFrame_ok {rest left : Bytes} {held maxEvents index : Nat} {frame : Frame}
    (h : nextFrame rest held maxEvents index = .ok (.ok (frame, left))) :
    held < maxEvents ∧ frame.Sized ∧ rest = frame.bytes ++ left := by
  unfold nextFrame at h
  cases hread : readPrefix rest with
  | eof =>
    rw [hread] at h
    cases h
  | torn =>
    rw [hread] at h
    cases h
  | full =>
    have hfour : lengthBytes ≤ rest.length := by
      unfold readPrefix at hread
      split at hread
      · cases hread
      · split at hread
        · cases hread
        · omega
    simp only [hread] at h
    split at h
    · cases h
    · rename_i hroom
      split at h
      · rename_i hpossible
        split at h
        · cases h
        · rename_i hpayload
          split at h
          · cases h
          · rename_i hhead
            cases h
            unfold readPiece at hpayload hhead
            split at hpayload
            · rename_i hpayloadFits
              split at hhead
              · rename_i hheadFits
                have hsized : (⟨Bytes.fill (declaredLength (Bytes.fill lengthBytes rest))
                    (rest.drop lengthBytes), Digest.fromBytes ((rest.drop lengthBytes).drop
                    (declaredLength (Bytes.fill lengthBytes rest)))⟩ : Frame).Sized := by
                  unfold Frame.Sized
                  rw [Bytes.length_fill]
                  exact hpossible
                have hfour' : (Bytes.fill lengthBytes rest).length = 4 :=
                  Bytes.length_fill _ _
                refine ⟨by omega, hsized, ?_⟩
                rw [Frame.bytes, encode, Bytes.length_fill, declaredLength,
                  Bytes.u32BE_ofBE hfour', ← declaredLength]
                have hhead := Bytes.fill_of_le hheadFits
                change rest = Bytes.fill lengthBytes rest ++ Bytes.fill _ _ ++
                  Bytes.fill headBytes _ ++ _
                rw [hhead, Bytes.fill_of_le hpayloadFits, Bytes.fill_of_le hfour]
                simp only [List.append_assoc, List.take_append_drop]
              · cases hhead
            · cases hpayload
      · cases h

section LengthPrefix

variable (length : UInt32) (behind : Bytes)

theorem readPrefix_u32BE : readPrefix (Bytes.u32BE length ++ behind) = .full := by
  unfold readPrefix
  rw [List.length_append, Bytes.length_u32BE]
  split
  · omega
  · rw [if_neg]
    unfold lengthBytes
    omega

theorem fill_u32BE : Bytes.fill lengthBytes (Bytes.u32BE length ++ behind) = Bytes.u32BE length :=
  @Bytes.fill_append (Bytes.u32BE length) behind

theorem drop_u32BE : (Bytes.u32BE length ++ behind).drop lengthBytes = behind :=
  @List.drop_left _ (Bytes.u32BE length) behind

end LengthPrefix

theorem readPrefix_bytes (frame : Frame) (left : Bytes) :
    readPrefix (frame.bytes ++ left) = .full := by
  unfold readPrefix
  split
  · rename_i hlength
    rw [List.length_append, Frame.length_bytes, framedLen, lengthBytes] at hlength
    omega
  · rw [if_neg]
    rw [List.length_append, Frame.length_bytes, framedLen]
    omega

namespace Frame

theorem fill_lengthBytes (frame : Frame) (left : Bytes) :
    Bytes.fill lengthBytes (frame.bytes ++ left) =
      Bytes.u32BE (UInt32.ofNat frame.payload.length) := by
  unfold Frame.bytes encode
  rw [List.append_assoc, List.append_assoc]
  exact @Bytes.fill_append (Bytes.u32BE _) _

theorem drop_lengthBytes (frame : Frame) (left : Bytes) :
    (frame.bytes ++ left).drop lengthBytes = frame.payload ++ (frame.head.bytes ++ left) := by
  unfold Frame.bytes encode
  rw [List.append_assoc, List.append_assoc]
  exact @List.drop_left _ (Bytes.u32BE _) _

theorem fromBytes_head (frame : Frame) (left : Bytes) :
    Digest.fromBytes (frame.head.bytes ++ left) = frame.head := by
  apply Digest.ext
  change Bytes.fill headBytes (frame.head.bytes ++ left) = frame.head.bytes
  rw [← frame.head.length_bytes, Bytes.fill_append]

end Frame

theorem nextFrame_bytes {frame : Frame} (hsized : frame.Sized) (left : Bytes)
    {held maxEvents : Nat} (hroom : held < maxEvents) (index : Nat) :
    nextFrame (frame.bytes ++ left) held maxEvents index = .ok (.ok (frame, left)) := by
  unfold nextFrame
  rw [readPrefix_bytes]
  simp only [frame.fill_lengthBytes, frame.drop_lengthBytes, Frame.declaredLength_bytes hsized]
  unfold Frame.Sized at hsized
  rw [if_neg (by omega), if_pos hsized]
  have hpayload : readPiece frame.payload.length
      (frame.payload ++ (frame.head.bytes ++ left)) = .filled := by
    simp [readPiece]
  simp only [hpayload, List.drop_left, Bytes.fill_append]
  have hhead : readPiece headBytes (frame.head.bytes ++ left) = .filled := by
    simp [readPiece, frame.head.length_bytes]
  simp only [hhead, frame.fromBytes_head]
  have hleft : (frame.head.bytes ++ left).drop headBytes = left := by
    rw [← frame.head.length_bytes, List.drop_left]
  rw [hleft]

theorem nextFrame_bytes_full {frame : Frame} (left : Bytes) {held maxEvents : Nat}
    (hroom : maxEvents ≤ held) (index : Nat) :
    nextFrame (frame.bytes ++ left) held maxEvents index =
      .error (.capacityExceeded .events maxEvents (held + 1)) := by
  unfold nextFrame
  rw [readPrefix_bytes]
  simp only []
  rw [if_pos (by omega)]

@[simp] theorem nextFrame_nil (held maxEvents index : Nat) :
    nextFrame [] held maxEvents index = .ok (.error .complete) := rfl

theorem nextFrame_complete {rest : Bytes} {held maxEvents index : Nat}
    (h : nextFrame rest held maxEvents index = .ok (.error .complete)) : rest = [] := by
  unfold nextFrame at h
  cases hread : readPrefix rest with
  | eof =>
    unfold readPrefix at hread
    split at hread
    · rename_i hlength
      exact List.length_eq_zero_iff.mp hlength
    · split at hread <;> cases hread
  | torn =>
    rw [hread] at h
    cases h
  | full =>
    simp only [hread] at h
    split at h
    · cases h
    · split at h
      · split at h
        · cases h
        · split at h <;> cases h
      · cases h

theorem framesBytes_injective {left right : List Frame} (hleft : ∀ frame ∈ left, frame.Sized)
    (hright : ∀ frame ∈ right, frame.Sized) (h : framesBytes left = framesBytes right) :
    left = right := by
  induction left generalizing right with
  | nil =>
    cases right with
    | nil => rfl
    | cons frame rest => exact absurd h.symm (by simp [frame.bytes_ne_nil])
  | cons frame rest ih =>
    cases right with
    | nil => exact absurd h (by simp [frame.bytes_ne_nil])
    | cons other others =>
      rw [framesBytes_cons, framesBytes_cons] at h
      have hread := nextFrame_bytes (hleft frame List.mem_cons_self) (framesBytes rest)
        Nat.zero_lt_one 0
      rw [h, nextFrame_bytes (hright other List.mem_cons_self) (framesBytes others)
        Nat.zero_lt_one 0] at hread
      obtain ⟨hframe, hbehind⟩ := Prod.mk.inj (Except.ok.inj (Except.ok.inj hread))
      rw [hframe, ih (fun before hbefore => hleft before (List.mem_cons_of_mem _ hbefore))
        (fun before hbefore => hright before (List.mem_cons_of_mem _ hbefore)) hbehind.symm]

def scanner (wire : Wire) (maxEvents : Nat) : Reader ScanState (Except JournalError Halt) where
  turn := scanTurn wire maxEvents
  consumes := by
    intro state rest next left h
    unfold scanTurn at h
    split at h
    · cases h
    · cases h
    · rename_i frame left' hframe
      split at h
      · cases h
      · cases h
        obtain ⟨-, -, hrest⟩ := nextFrame_ok hframe
        have hlength := List.length_pos_iff.mpr frame.bytes_ne_nil
        rw [hrest, List.length_append]
        omega

theorem turn_scanner (wire : Wire) (maxEvents : Nat) :
    (scanner wire maxEvents).turn = scanTurn wire maxEvents := rfl

structure Scanned where
  entries : List JournalEntry
  carried : Option Continuation
  ownSeal : Option Continuation
  chainFrom : JournalPosition
  tail : JournalPosition
  stop : ScanStop
  deriving DecidableEq, Repr

def ScanState.scanned (state : ScanState) (halt : Halt) : Scanned :=
  ⟨state.entries, state.carried, state.ownSeal, state.chainFrom, state.position,
    halt.stopAt state.offset⟩

def scan (wire : Wire) (file : Bytes) (maxEvents : Nat) : Except JournalError Scanned :=
  match (scanner wire maxEvents).run (ScanState.start wire) file with
  | (_, .error cause) => .error cause
  | (state, .ok halt) => .ok (state.scanned halt)

/-- Resolve a tail the file ends inside of: trimmed at `offset`, or refused when the bytes
behind it hold an acknowledged frame. -/
def resolveAmbiguousTail (wire : Wire) (file : Bytes) (offset : Nat)
    (position : JournalPosition) (index : Nat) : Except JournalError Nat :=
  match cutHoldsAcknowledged file offset position.head maxFrameBytes wire.headOf with
  | .error cause => .error cause
  | .ok true => .error (.corrupt ⟨index, .framed⟩)
  | .ok false => .ok offset

end LogicalWorks.Journal
