import LogicalWorks.Journal.Error

/-! Frames of a log file: a four-byte length, a payload and a 32-byte head.  A reader is
its unread bytes.  Lengths and offsets are numbers: the sizes a journal allows stay far
below the widths the source saturates at. -/
namespace LogicalWorks.Journal

def lengthBytes : Nat := 4

inductive Piece where
  | filled
  | interrupted
  deriving DecidableEq, Repr

def readPiece (count : Nat) (rest : Bytes) : Piece :=
  if count ≤ rest.length then .filled else .interrupted

inductive Prefix where
  | eof
  | torn
  | full
  deriving DecidableEq, Repr

def readPrefix (rest : Bytes) : Prefix :=
  match rest.length with
  | 0 => .eof
  | filled => if filled < lengthBytes then .torn else .full

def declaredLength (buffer : Bytes) : Nat := Bytes.ofBE buffer

def isPossibleLength (payloadLen maxFrame : Nat) : Bool :=
  payloadLen ≠ 0 && payloadLen ≤ maxFrame

def writableLength (payloadLen maxFrame : Nat) : Option UInt32 :=
  if payloadLen < 2 ^ 32 ∧ isPossibleLength payloadLen maxFrame = true then
    some (UInt32.ofNat payloadLen)
  else none

def framedLen (payloadLen : Nat) : Nat := lengthBytes + payloadLen + headBytes

def encode (payloadLen : UInt32) (payload : Bytes) (head : Digest) : Bytes :=
  Bytes.u32BE payloadLen ++ payload ++ head.bytes

def frameRecord {R E : Type} (record : R) (previous : Digest) (maxFrame : Nat)
    (archive : R → Except E Bytes) (head : R → Digest → Bytes → Digest) (refuse : Nat → E) :
    Except E (Bytes × Digest) :=
  match archive record with
  | .error cause => .error cause
  | .ok payload =>
    match writableLength payload.length maxFrame with
    | none => .error (refuse payload.length)
    | some payloadLen =>
      let head := head record previous payload
      .ok (encode payloadLen payload head, head)

def frameChainsFrom (suffix : Bytes) (place : Nat) (previous : Digest) (maxFrame : Nat)
    (authenticates : Digest → Bytes → Bytes → Bool) : Bool :=
  let payloadAt := place + lengthBytes
  match Bytes.slice suffix place payloadAt with
  | none => false
  | some buffer =>
    let declared := declaredLength buffer
    if isPossibleLength declared maxFrame then
      let headAt := payloadAt + declared
      match Bytes.slice suffix payloadAt headAt,
          Bytes.slice suffix headAt (headAt + headBytes) with
      | some payload, some stored => authenticates previous payload stored
      | _, _ => false
    else false

/-- Whether the bytes behind a length prefix hold a frame some writer acknowledged: the
first frame under another length, or a later frame that chains. -/
def holdsAcknowledgedFrame (suffix : Bytes) (previous : Digest) (maxFrame : Nat)
    (headOf : Digest → Bytes → Option Digest) : Bool :=
  let authenticates := fun previous payload stored =>
    match headOf previous payload with
    | some head => head.bytes = stored
    | none => false
  let room := suffix.length - headBytes
  ((List.range' 1 (min room maxFrame)).any fun len =>
    match Bytes.slice suffix 0 len, Bytes.slice suffix len (len + headBytes) with
    | some payload, some stored =>
      match headOf previous payload with
      | none => false
      | some implied =>
        implied.bytes = stored ||
          frameChainsFrom suffix (len + headBytes) implied maxFrame authenticates
    | _, _ => false) ||
  ((List.range' (headBytes + 1) (suffix.length + 1 - (2 * headBytes + lengthBytes + 2))).any
    fun place =>
      match Bytes.slice suffix (place - headBytes) place with
      | some stored =>
        frameChainsFrom suffix place (Digest.fromBytes stored) maxFrame authenticates
      | none => false)

def cutHoldsAcknowledged (file : Bytes) (offset : Nat) (previous : Digest) (maxFrame : Nat)
    (headOf : Digest → Bytes → Option Digest) : Except JournalError Bool :=
  let start := offset + lengthBytes
  let behind := file.length - start
  if maxFrame + headBytes < behind then
    .error (.storage "the file grew while its tail was being resolved; reopen it")
  else .ok (holdsAcknowledgedFrame (file.drop start) previous maxFrame headOf)

structure Frame where
  payload : Bytes
  head : Digest
  deriving DecidableEq, Repr

namespace Frame

def bytes (frame : Frame) : Bytes :=
  encode (UInt32.ofNat frame.payload.length) frame.payload frame.head

def Sized (frame : Frame) : Prop := isPossibleLength frame.payload.length maxFrameBytes = true

instance (frame : Frame) : Decidable frame.Sized :=
  inferInstanceAs (Decidable (_ = true))

theorem sized_iff (frame : Frame) :
    frame.Sized ↔ 0 < frame.payload.length ∧ frame.payload.length ≤ maxFrameBytes := by
  simp [Sized, isPossibleLength, Nat.pos_iff_ne_zero, List.length_eq_zero_iff]

@[simp] theorem length_bytes (frame : Frame) :
    frame.bytes.length = framedLen frame.payload.length := by
  simp [bytes, encode, framedLen, lengthBytes, frame.head.length_bytes, headBytes,
    Nat.add_assoc]

theorem bytes_ne_nil (frame : Frame) : frame.bytes ≠ [] := by
  intro h
  have hlength := congrArg List.length h
  rw [length_bytes, framedLen, List.length_nil, lengthBytes] at hlength
  omega

theorem declaredLength_bytes {frame : Frame} (h : frame.Sized) :
    declaredLength (Bytes.u32BE (UInt32.ofNat frame.payload.length)) = frame.payload.length := by
  have hbound := ((sized_iff frame).mp h).2
  rw [declaredLength, Bytes.ofBE_u32BE, UInt32.toNat_ofNat', Nat.mod_eq_of_lt]
  unfold maxFrameBytes at hbound
  omega

end Frame

def framesBytes (frames : List Frame) : Bytes := frames.flatMap Frame.bytes

@[simp] theorem framesBytes_nil : framesBytes [] = [] := rfl

@[simp] theorem framesBytes_cons (frame : Frame) (rest : List Frame) :
    framesBytes (frame :: rest) = frame.bytes ++ framesBytes rest := rfl

@[simp] theorem framesBytes_append (left right : List Frame) :
    framesBytes (left ++ right) = framesBytes left ++ framesBytes right := by
  simp [framesBytes]

theorem writableLength_eq_some {payloadLen maxFrame : Nat} {prefixed : UInt32}
    (h : writableLength payloadLen maxFrame = some prefixed) :
    isPossibleLength payloadLen maxFrame = true ∧ prefixed = UInt32.ofNat payloadLen := by
  unfold writableLength at h
  split at h
  · rename_i hroom
    exact ⟨hroom.2, (Option.some.inj h).symm⟩
  · cases h

theorem writableLength_of_sized {frame : Frame} (h : frame.Sized) :
    writableLength frame.payload.length maxFrameBytes =
      some (UInt32.ofNat frame.payload.length) := by
  have hbound := ((Frame.sized_iff frame).mp h).2
  unfold maxFrameBytes at hbound
  unfold writableLength
  rw [if_pos ⟨by omega, h⟩]

theorem frameRecord_ok {R E : Type} {record : R} {previous : Digest}
    {archive : R → Except E Bytes} {head : R → Digest → Bytes → Digest} {refuse : Nat → E}
    {framed : Bytes} {chained : Digest}
    (h : frameRecord record previous maxFrameBytes archive head refuse = .ok (framed, chained)) :
    ∃ payload, archive record = .ok payload ∧ chained = head record previous payload ∧
      (⟨payload, chained⟩ : Frame).Sized ∧ framed = (⟨payload, chained⟩ : Frame).bytes := by
  unfold frameRecord at h
  cases harchive : archive record with
  | error cause =>
    rw [harchive] at h
    cases h
  | ok payload =>
    simp only [harchive] at h
    cases hlength : writableLength payload.length maxFrameBytes with
    | none =>
      simp only [hlength] at h
      cases h
    | some prefixed =>
      simp only [hlength] at h
      cases h
      obtain ⟨hpossible, hwritten⟩ := writableLength_eq_some hlength
      exact ⟨payload, rfl, rfl, hpossible, by rw [hwritten]; rfl⟩

end LogicalWorks.Journal
