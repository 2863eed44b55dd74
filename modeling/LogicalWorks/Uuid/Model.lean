import LogicalWorks.Lib.Lexical

/-! Identifiers: their text, their key in the tuple layer, and the generator of version 7. Text is
the bytes of its characters. -/
namespace LogicalWorks

namespace Hex

def lower : List UInt8 := "0123456789abcdef".toList.map fun letter => UInt8.ofNat letter.toNat

def digit (nibble : UInt8) : UInt8 := lower.getD nibble.toNat 0

inductive DecodeError where
  | oddLength (len place : Nat)
  | notHexDigit (place : Nat) (byte : UInt8)
  | outputLength (expected actual : Nat)
  deriving DecidableEq, Repr

def checkEvenLength (len : Nat) : Except DecodeError Unit :=
  if len % 2 ≠ 0 then throw (.oddLength len len) else pure ()

def decodeNibble (asciiByte : UInt8) : Option UInt8 :=
  if 0x30 ≤ asciiByte ∧ asciiByte ≤ 0x39 then some (asciiByte - 0x30)
  else if 0x61 ≤ asciiByte ∧ asciiByte ≤ 0x66 then some (asciiByte - 0x61 + 10)
  else if 0x41 ≤ asciiByte ∧ asciiByte ≤ 0x46 then some (asciiByte - 0x41 + 10)
  else none

def decodePair (high low : UInt8) (offset : Nat) : Except DecodeError UInt8 :=
  match decodeNibble high, decodeNibble low with
  | none, _ => throw (.notHexDigit offset high)
  | some _, none => throw (.notHexDigit (offset + 1) low)
  | some hi, some lo => pure ((hi <<< 4) ||| lo)

def decodePairs (offset : Nat) : List UInt8 → Except DecodeError (List UInt8)
  | high :: low :: rest => do
    let byte ← decodePair high low offset
    let bytes ← decodePairs (offset + 2) rest
    pure (byte :: bytes)
  | _ => pure []

/-- The bytes for a destination of `actual`; nothing is written before every digit is checked. -/
def decodeInto (input : List UInt8) (actual : Nat) : Except DecodeError (List UInt8) := do
  checkEvenLength input.length
  let expected := (input.length + 1) / 2
  if actual ≠ expected then throw (.outputLength expected actual)
  else decodePairs 0 input

def writeLowercase (bytes : List UInt8) : List UInt8 :=
  bytes.flatMap fun (byte : UInt8) => [digit (byte >>> 4), digit (byte &&& 0x0f)]

end Hex

structure Uuid where
  raw : List UInt8
  size : raw.length = 16
  deriving DecidableEq

namespace Uuid

inductive ParseError where
  | wrongLength (len place : Nat)
  | missingHyphen (place : Nat)
  | notHexDigit (groupAt place : Nat)
  | decodeOutputLength (expected actual : Nat)
  deriving DecidableEq, Repr

def hyphen : UInt8 := 0x2d

def display (id : Uuid) : List UInt8 :=
  Hex.writeLowercase (id.raw.take 4) ++ [hyphen] ++
  Hex.writeLowercase ((id.raw.drop 4).take 2) ++ [hyphen] ++
  Hex.writeLowercase ((id.raw.drop 6).take 2) ++ [hyphen] ++
  Hex.writeLowercase ((id.raw.drop 8).take 2) ++ [hyphen] ++ Hex.writeLowercase (id.raw.drop 10)

def checkUuidLength (len : Nat) : Except ParseError Unit :=
  if len ≠ 36 then throw (.wrongLength len len) else pure ()

def checkHyphen (bytes : List UInt8) (cursor : Nat) : Except ParseError Unit :=
  if bytes[cursor]? ≠ some hyphen then throw (.missingHyphen cursor) else pure ()

def parseUuidGroup (bytes : List UInt8) (cursor width byteCount : Nat) :
    Except ParseError (List UInt8) :=
  match Hex.decodeInto ((bytes.drop cursor).take width) byteCount with
  | .ok group => pure group
  | .error (.notHexDigit place _) => throw (.notHexDigit cursor (cursor + place))
  | .error (.oddLength _ place) => throw (.notHexDigit cursor (cursor + place))
  | .error (.outputLength expected actual) => throw (.decodeOutputLength expected actual)

def groups : List (Nat × Nat) := [(8, 4), (4, 2), (4, 2), (4, 2), (12, 6)]

def writeAt (raw : List UInt8) (offset : Nat) : List UInt8 → List UInt8
  | [] => raw
  | byte :: rest => writeAt (raw.set offset byte) (offset + 1) rest

@[simp] theorem length_writeAt (raw : List UInt8) (offset : Nat) (bytes : List UInt8) :
    (writeAt raw offset bytes).length = raw.length := by
  induction bytes generalizing raw offset with
  | nil => rfl
  | cons byte rest ih => rw [writeAt, ih, List.length_set]

def write (id : Uuid) (offset : Nat) (bytes : List UInt8) : Uuid where
  raw := writeAt id.raw offset bytes
  size := (length_writeAt id.raw offset bytes).trans id.size

def parseGroupsFrom (bytes : List UInt8) (groupIndex outOffset cursor : Nat) (id : Uuid) :
    List (Nat × Nat) → Except ParseError Uuid
  | [] => pure id
  | (width, byteCount) :: rest => do
    let cursor ← if groupIndex > 0 then do
        checkHyphen bytes cursor
        pure (cursor + 1)
      else pure cursor
    let group ← parseUuidGroup bytes cursor width byteCount
    parseGroupsFrom bytes (groupIndex + 1) (outOffset + byteCount) (cursor + width)
      (id.write outOffset group) rest

def parse (text : List UInt8) : Except ParseError Uuid := do
  checkUuidLength text.length
  parseGroupsFrom text 0 0 0 ⟨List.replicate 16 0, rfl⟩ groups

def uuidCode : UInt8 := 0x30

inductive TupleError where
  | wrongCode (found : UInt8)
  | truncated (len : Nat)
  deriving DecidableEq, Repr

def packTuple (id : Uuid) (key : List UInt8) : List UInt8 := key ++ [uuidCode] ++ id.raw

def unpackTuple (key : List UInt8) : Except TupleError (Uuid × List UInt8) :=
  match key with
  | [] => throw (.truncated 0)
  | code :: rest =>
    if code ≠ uuidCode then throw (.wrongCode code)
    else if h : (rest.take 16).length = 16 then pure (⟨rest.take 16, h⟩, rest.drop 16)
    else throw (.truncated key.length)

def version (id : Uuid) : Option UInt8 :=
  if id.raw.getD 8 0 &&& 0xc0 = 0x80 then some (id.raw.getD 6 0 >>> 4) else none

def unixMillis (id : Uuid) : Option Nat :=
  if id.version ≠ some 7 then none else some (Bytes.ofBE (id.raw.take 6))

end Uuid

namespace V7

def maxUnixMs : Nat := 0xFFFFFFFFFFFF

def counterMax : Nat := 0x0FFF

def counterSeedMask : Nat := 0x07FF

def versionBits : UInt8 := 0x70

def variantBits : UInt8 := 0x80

def randomHeadMask : UInt8 := 0x3f

def counterHeadMask : UInt8 := 0x0f

abbrev Entropy := Vector UInt8 10

abbrev Tail := Vector UInt8 8

inductive V7Error where
  | timestampOutOfRange (unixMs : Nat)
  deriving DecidableEq, Repr

/-- The stamp and counter of the last identifier issued, and its random field. -/
structure V7Generator where
  last : Option (Nat × Nat)
  tail : Tail
  deriving DecidableEq

def V7Generator.new : V7Generator := ⟨none, .replicate 8 0⟩

def V7Generator.carriedEntropy (generator : V7Generator) : Entropy :=
  #v[0, 0, generator.tail[0], generator.tail[1], generator.tail[2], generator.tail[3],
    generator.tail[4], generator.tail[5], generator.tail[6], generator.tail[7]]

def counterSeed (entropy : Entropy) : Nat :=
  Bytes.ofBE [entropy[0], entropy[1]] &&& counterSeedMask

def randomTail (entropy : Entropy) : Tail :=
  #v[entropy[2], entropy[3], entropy[4], entropy[5], entropy[6], entropy[7], entropy[8],
    entropy[9]]

def step (stamp counter seed : Nat) : Except V7Error (Nat × Nat) :=
  if counter + 1 ≤ counterMax then pure (stamp, counter + 1)
  else if stamp + 1 ≤ maxUnixMs then pure (stamp + 1, seed)
  else throw (.timestampOutOfRange (stamp + 1))

def V7Generator.nextPosition (generator : V7Generator) (nowMs seed : Nat) :
    Except V7Error (Nat × Nat) :=
  match generator.last with
  | some (lastStamp, lastCounter) =>
    if nowMs ≤ lastStamp then step lastStamp lastCounter seed
    else if nowMs > maxUnixMs then throw (.timestampOutOfRange nowMs)
    else pure (nowMs, seed)
  | none =>
    if nowMs > maxUnixMs then throw (.timestampOutOfRange nowMs) else pure (nowMs, seed)

def assemble (stamp counter : Nat) (entropy : Entropy) : Uuid where
  raw := (bigEndian 8 stamp).drop 2 ++
    [versionBits ||| (UInt8.ofNat (counter / 256) &&& counterHeadMask), UInt8.ofNat counter,
      variantBits ||| (entropy[2] &&& randomHeadMask), entropy[3], entropy[4], entropy[5],
      entropy[6], entropy[7], entropy[8], entropy[9]]
  size := rfl

def V7Generator.issueAt (generator : V7Generator) (nowMs : Nat) (entropy : Entropy) :
    V7Generator × Except V7Error Uuid :=
  match generator.nextPosition nowMs (counterSeed entropy) with
  | .ok (stamp, counter) =>
    ({ last := some (stamp, counter), tail := randomTail entropy },
      .ok (assemble stamp counter entropy))
  | .error cause => (generator, .error cause)

def V7Generator.pinnedCounter (generator : V7Generator) (drawn : Entropy) : Nat :=
  match generator.last with
  | some (stamp, counter) =>
    if stamp = maxUnixMs then min (counter + 1) counterMax else counterSeed drawn
  | none => counterSeed drawn

def V7Generator.issueClamped (generator : V7Generator) (nowMs : Nat) (entropy : Option Entropy) :
    V7Generator × Uuid :=
  let drawn := entropy.getD generator.carriedEntropy
  match generator.issueAt nowMs drawn with
  | (generator, .ok issued) => (generator, issued)
  | (generator, .error _) =>
    let counter := generator.pinnedCounter drawn
    ({ last := some (maxUnixMs, counter), tail := randomTail drawn },
      assemble maxUnixMs counter drawn)

end V7

end LogicalWorks
