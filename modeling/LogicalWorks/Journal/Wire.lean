import LogicalWorks.Lib.Bytes
import LogicalWorks.Journal.Continuation

/-! One sealed record's bytes, as far as telling a sealed payload from a plain one reads
them.  A reader is its unread bytes: every read takes from the front or refuses. -/
namespace LogicalWorks.Journal

def sealedMagic : Bytes :=
  [0x6c, 0x67, 0x77, 0x6b, 0x73, 0x2d, 0x73, 0x65, 0x61, 0x6c, 0x65, 0x64, 0x2d, 0x31, 0, 0]

def tagRecord : UInt8 := 1

def tagTombstone : UInt8 := 2

def nonceBytes : Nat := 12

def keyIdBytes : Nat := 16

inductive DecodedFrame where
  | record (tenant keyId wrapped nonce ciphertext : Bytes) (expiresAt : Option Nat) (bind : Bytes)
  | tombstone (index : Nat) (keyId : Bytes)
  deriving DecidableEq, Repr

namespace PayloadReader

def take (count : Nat) (rest : Bytes) : Option (Bytes × Bytes) :=
  if count ≤ rest.length then some (rest.splitAt count) else none

def tag : Bytes → Option (UInt8 × Bytes)
  | byte :: rest => some (byte, rest)
  | [] => none

def takeMagic (rest : Bytes) : Option Bytes := do
  let (magic, rest) ← take sealedMagic.length rest
  if magic = sealedMagic then some rest else none

def takeU16 (rest : Bytes) : Option (Nat × Bytes) := do
  let (bytes, rest) ← take 2 rest
  some (Bytes.ofBE bytes, rest)

/-- `u32::MAX` is what an encoder past its ceiling writes, never a length. -/
def takeU32 (rest : Bytes) : Option (Nat × Bytes) := do
  let (bytes, rest) ← take 4 rest
  if Bytes.ofBE bytes = 2 ^ 32 - 1 then none else some (Bytes.ofBE bytes, rest)

def takeExpiry (rest : Bytes) : Option (Option Nat × Bytes) := do
  let (marker, rest) ← tag rest
  if marker = 0 then some (none, rest)
  else if marker = 1 then
    let (nanos, rest) ← take 8 rest
    some (some (Bytes.ofBE nanos), rest)
  else none

end PayloadReader

def isUtf8 (bytes : Bytes) : Bool :=
  (ByteArray.mk bytes.toArray).validateUTF8

open PayloadReader in
/-- A sealed record or a tombstone with nothing behind it; anything else is neither. -/
def decodeFrame (payload : Bytes) : Option DecodedFrame := do
  let rest ← takeMagic payload
  let (marker, rest) ← tag rest
  if marker = tagRecord then
    let (tenantLen, rest) ← takeU16 rest
    let (tenant, rest) ← take tenantLen rest
    if isUtf8 tenant then
      let (keyId, rest) ← take keyIdBytes rest
      let (wrappedLen, rest) ← takeU32 rest
      let (wrapped, rest) ← take wrappedLen rest
      let (nonce, rest) ← take nonceBytes rest
      let (ciphertextLen, rest) ← takeU32 rest
      let (ciphertext, rest) ← take ciphertextLen rest
      let (expiresAt, rest) ← takeExpiry rest
      let (bindLen, rest) ← takeU16 rest
      let (bind, rest) ← take bindLen rest
      if rest = [] then some (.record tenant keyId wrapped nonce ciphertext expiresAt bind)
      else none
    else none
  else if marker = tagTombstone then
    let (index, rest) ← take 8 rest
    let (keyId, rest) ← take keyIdBytes rest
    if rest = [] then some (.tombstone (Bytes.ofBE index) keyId) else none
  else none

def isSealedPayload (payload : Bytes) : Bool :=
  (decodeFrame payload).isSome

theorem sealedMagic_of_isSealedPayload {payload : Bytes} (h : isSealedPayload payload = true) :
    sealedMagic <+: payload := by
  obtain ⟨frame, hframe⟩ := Option.isSome_iff_exists.mp h
  obtain ⟨rest, hrest, -⟩ := Option.bind_eq_some_iff.mp hframe
  unfold PayloadReader.takeMagic PayloadReader.take at hrest
  split at hrest
  · simp only [Option.bind_eq_bind, Option.bind_some, List.splitAt_eq] at hrest
    split at hrest
    · rename_i hmagic
      rw [← hmagic]
      exact List.take_prefix _ _
    · cases hrest
  · cases hrest

end LogicalWorks.Journal

/-! What the journal takes from its wire format and its hash.  Both are parameters: the
archive format and the digest are other people's code, and the journal relies on an
archive reading back as what was archived. -/
namespace LogicalWorks.Journal

/-- The archive format, the digest, and whether the build reads sealed records. -/
structure Wire where
  sealedFeature : Bool
  hash : Bytes → Digest
  eventToBytes : EffectEvent → Option Bytes
  eventFromBytes : Bytes → Option EffectEvent
  checkpointToBytes : Continuation → Option Bytes
  checkpointFromBytes : Bytes → Option Continuation

/-- What the archive format documents: a value reads back as itself, and an archived
enumeration starts with its variant's tag. -/
structure Wire.Lawful (wire : Wire) : Prop where
  event_roundTrip : ∀ {event bytes}, wire.eventToBytes event = some bytes →
    wire.eventFromBytes bytes = some event
  event_tag : ∀ {event bytes}, wire.eventToBytes event = some bytes →
    ∃ tag rest, bytes = tag :: rest ∧ tag < 4
  checkpoint_roundTrip : ∀ {checkpoint bytes}, wire.checkpointToBytes checkpoint = some bytes →
    wire.checkpointFromBytes bytes = some checkpoint

def checkpointMagic : Bytes :=
  [0x6c, 0x67, 0x77, 0x6b, 0x73, 0x2e, 0x6a, 0x6f, 0x75, 0x72, 0x6e, 0x61, 0x6c, 0x2e, 0x63,
    0x68, 0x65, 0x63, 0x6b, 0x70, 0x6f, 0x69, 0x6e, 0x74, 0x2e, 0x76, 0x31, 0, 0, 0, 0, 0]

def genesisDomain : Bytes :=
  [0x6c, 0x67, 0x77, 0x6b, 0x73, 0x2e, 0x6a, 0x6f, 0x75, 0x72, 0x6e, 0x61, 0x6c, 0x2e, 0x76,
    0x31, 0x2e, 0x67, 0x65, 0x6e, 0x65, 0x73, 0x69, 0x73]

namespace Wire

variable (wire : Wire)

def chainOverBytes (previous : Digest) (payload : Bytes) : Digest :=
  wire.hash (previous.bytes ++ payload)

def genesis : JournalPosition :=
  ⟨0, wire.hash genesisDomain⟩

def fromPayload (payload : Bytes) : Option (Except JournalError Continuation) :=
  if checkpointMagic <+: payload then
    match wire.checkpointFromBytes (payload.drop checkpointMagic.length) with
    | some checkpoint => some (.ok checkpoint)
    | none => some (.error .encoding)
  else none

def toPayload (checkpoint : Continuation) : Except JournalError Bytes :=
  match wire.checkpointToBytes checkpoint with
  | some archived => .ok (checkpointMagic ++ archived)
  | none => .error .encoding

/-- The guard a build with sealed records puts before reading a payload as an event. -/
def isSealed (payload : Bytes) : Bool :=
  wire.sealedFeature && isSealedPayload payload

def isFramedRecord (payload : Bytes) : Bool :=
  wire.isSealed payload ||
    match wire.fromPayload payload with
    | some decoded => decoded.isOk
    | none => (wire.eventFromBytes payload).isSome

def headOf (previous : Digest) (payload : Bytes) : Option Digest :=
  if wire.isFramedRecord payload then some (wire.chainOverBytes previous payload) else none

variable {wire}

theorem fromPayload_toPayload (lawful : wire.Lawful) {checkpoint : Continuation}
    {payload : Bytes} (h : wire.toPayload checkpoint = .ok payload) :
    wire.fromPayload payload = some (.ok checkpoint) := by
  unfold toPayload at h
  split at h
  · rename_i archived harchived
    cases h
    simp [fromPayload, lawful.checkpoint_roundTrip harchived]
  · cases h

theorem fromPayload_eventToBytes (lawful : wire.Lawful) {event : EffectEvent} {bytes : Bytes}
    (h : wire.eventToBytes event = some bytes) : wire.fromPayload bytes = none := by
  obtain ⟨tag, rest, rfl, htag⟩ := lawful.event_tag h
  unfold fromPayload
  rw [if_neg]
  intro hmagic
  have hfirst := (List.cons_prefix_cons.mp hmagic).1
  rw [← hfirst] at htag
  exact absurd htag (by decide)

theorem isSealed_eventToBytes (lawful : wire.Lawful) {event : EffectEvent} {bytes : Bytes}
    (h : wire.eventToBytes event = some bytes) : wire.isSealed bytes = false := by
  obtain ⟨tag, rest, rfl, htag⟩ := lawful.event_tag h
  rw [isSealed, Bool.and_eq_false_iff]
  right
  rw [Bool.eq_false_iff]
  intro hsealed
  have hfirst := (List.cons_prefix_cons.mp (sealedMagic_of_isSealedPayload hsealed)).1
  rw [← hfirst] at htag
  exact absurd htag (by decide)

end Wire

end LogicalWorks.Journal
