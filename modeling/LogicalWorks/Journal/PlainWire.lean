import LogicalWorks.Lib.StreamCodec
import LogicalWorks.Journal.FileJournal

/-! A wire format that behaves as the archive format is documented to, plain enough to be
evaluated: it stands for the archive format wherever a result is run on an input. -/
namespace LogicalWorks.Journal.PlainWire

open StreamCodec

def digest : StreamCodec Digest :=
  (fixed headBytes).map (fun bytes => ⟨bytes.val, bytes.property⟩)
    (fun digest => ⟨digest.bytes, digest.length_bytes⟩) (fun _ => rfl)

def word : StreamCodec UInt64 :=
  nat.map UInt64.ofNat UInt64.toNat (fun _ => UInt64.ofNat_toNat)

def byte : StreamCodec UInt8 :=
  nat.map UInt8.ofNat UInt8.toNat (fun _ => UInt8.ofNat_toNat)

def key : StreamCodec EffectKey :=
  (nat.pair (nat.pair (nat.pair (digest.pair (digest.pair (nat.pair nat)))))).map
    (fun parts => ⟨parts.1, parts.2.1, parts.2.2.1, parts.2.2.2.1, parts.2.2.2.2.1,
      parts.2.2.2.2.2.1, parts.2.2.2.2.2.2⟩)
    (fun key => (key.run, key.action, key.attempt, key.flow, key.digest, key.environment,
      key.epoch))
    (fun _ => rfl)

def evidence : StreamCodec EffectEvidence :=
  nat.map (fun index => if index = 0 then .applied else .notApplied)
    (fun evidence => match evidence with | .applied => 0 | .notApplied => 1)
    (fun evidence => by cases evidence <;> rfl)

def result : StreamCodec VerificationResult :=
  nat.map (fun index => if index = 0 then .satisfied else .notSatisfied)
    (fun result => match result with | .satisfied => 0 | .notSatisfied => 1)
    (fun result => by cases result <;> rfl)

def verification : StreamCodec Verification :=
  (nat.pair (nat.pair (digest.pair result))).map
    (fun parts => ⟨parts.1, parts.2.1, parts.2.2.1, parts.2.2.2⟩)
    (fun value => (value.predicate, value.predicateVersion, value.observations, value.result))
    (fun _ => rfl)

def optional : StreamCodec (Option Verification) :=
  (list verification).map List.head? Option.toList (fun value => by cases value <;> rfl)

def settled : StreamCodec SettledAttempt :=
  (key.pair (byte.pair (byte.pair optional))).map
    (fun parts => ⟨parts.1, parts.2.1, parts.2.2.1, parts.2.2.2⟩)
    (fun record => (record.key, record.rungByte, record.statusByte, record.verification))
    (fun _ => rfl)

def unresolved : StreamCodec UnresolvedAttempt :=
  (key.pair byte).map (fun parts => ⟨parts.1, parts.2⟩)
    (fun record => (record.key, record.rungByte)) (fun _ => rfl)

def position : StreamCodec JournalPosition :=
  (word.pair digest).map (fun parts => ⟨parts.1, parts.2⟩)
    (fun position => (position.sequence, position.head)) (fun _ => rfl)

def checkpoint : StreamCodec Continuation :=
  (nat.pair (position.pair ((list settled).pair (list unresolved)))).map
    (fun parts => ⟨parts.1, parts.2.1, parts.2.2.1, parts.2.2.2⟩)
    (fun checkpoint => (checkpoint.generation, checkpoint.predecessor, checkpoint.settled,
      checkpoint.unresolved))
    (fun _ => rfl)

/-- An archived event is its variant's tag with its fields behind it. -/
def eventToBytes : EffectEvent → Bytes
  | .intentAdmitted subject => 0 :: key.encode subject
  | .dispatchPrepared subject => 1 :: key.encode subject
  | .outcomeObserved subject fact => 2 :: (key.pair evidence).encode (subject, fact)
  | .verified subject answer => 3 :: (key.pair verification).encode (subject, answer)

def eventFromBytes : Bytes → Option EffectEvent
  | [] => none
  | tag :: rest =>
    match tag.toNat with
    | 0 => (key.decodeAll rest).map .intentAdmitted
    | 1 => (key.decodeAll rest).map .dispatchPrepared
    | 2 => ((key.pair evidence).decodeAll rest).map fun read => .outcomeObserved read.1 read.2
    | 3 => ((key.pair verification).decodeAll rest).map fun read => .verified read.1 read.2
    | _ => none

def wire (sealedFeature : Bool) (hash : Bytes → Digest) : Wire where
  sealedFeature
  hash
  eventToBytes event := some (eventToBytes event)
  eventFromBytes
  checkpointToBytes value := some (checkpoint.encode value)
  checkpointFromBytes := checkpoint.decodeAll

theorem lawful (sealedFeature : Bool) (hash : Bytes → Digest) :
    (wire sealedFeature hash).Lawful where
  event_roundTrip := by
    intro event bytes h
    cases h
    cases event with
    | intentAdmitted subject => simp [wire, eventToBytes, eventFromBytes]
    | dispatchPrepared subject => simp [wire, eventToBytes, eventFromBytes]
    | outcomeObserved subject fact => simp [wire, eventToBytes, eventFromBytes]
    | verified subject answer => simp [wire, eventToBytes, eventFromBytes]
  event_tag := by
    intro event bytes h
    cases h
    cases event with
    | intentAdmitted subject => exact ⟨0, _, rfl, by decide⟩
    | dispatchPrepared subject => exact ⟨1, _, rfl, by decide⟩
    | outcomeObserved subject fact => exact ⟨2, _, rfl, by decide⟩
    | verified subject answer => exact ⟨3, _, rfl, by decide⟩
  checkpoint_roundTrip := by
    intro value bytes h
    cases h
    exact checkpoint.decodeAll_encode value

def spell (last : UInt8) (number : Nat) : Digest :=
  .fromBytes ((List.range 8).map (fun place => UInt8.ofNat (number / 256 ^ place)) ++
    List.replicate 23 7 ++ [last])

/-- A rolling checksum in the place of the digest: enough to tell the inputs of a run apart. -/
def checksum (last : UInt8) (bytes : Bytes) : Digest :=
  spell last (bytes.foldl (fun sum byte => (sum * 263 + byte.toNat + 1) % (2 ^ 61 - 1)) 0)

def subject (action attempt : Nat) : EffectKey :=
  ⟨0, action, attempt, spell 0 0, spell 0 0, 0, 0⟩

def chained (wire : Wire) (previous : Digest) (payload : Bytes) : Frame :=
  ⟨payload, wire.chainOverBytes previous payload⟩

/-- A build without sealed records, under a digest that keeps the inputs of a run apart. -/
def plain : Wire := wire false (checksum 1)

theorem lawful_plain : plain.Lawful := lawful false (checksum 1)

def carry (value : Continuation) : Frame :=
  chained plain value.predecessor.head (checkpointMagic ++ checkpoint.encode value)

def firstEvent : Frame :=
  chained plain plain.genesis.head (eventToBytes (.intentAdmitted (subject 1 1)))

def sealAt (position : JournalPosition) : Frame :=
  chained plain position.head (checkpointMagic ++ checkpoint.encode ⟨2, position, [], []⟩)

def base : JournalPath := ⟨[], ['j']⟩

def diskOf (path : JournalPath) (file : Bytes) : Disk :=
  ⟨fun asked => if asked = path then some file else none, fun _ => false⟩

end LogicalWorks.Journal.PlainWire
