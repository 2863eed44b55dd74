import LogicalWorks.Lib.Bytes
import LogicalWorks.Lib.Window
import LogicalWorks.Lib.Fallible

/-! The decompressor of VBA modules: a signature, then chunks of raw bytes or of flag bytes over
literals and copy tokens.  Its ceilings and errors are here too. -/
namespace LogicalWorks.Vba

def signature : UInt8 := 0x01

def compressedFlag : Nat := 0x8000

def sizeMask : Nat := 0x0fff

def sizeBias : Nat := 3

def lengthBias : Nat := 3

def offsetBias : Nat := 1

def maxOffset : Nat := 4096

def chunkOutput : Nat := 4096

def chunkCoded : Nat := 4098

def maxMatch : Nat := 18

inductive LimitError where
  | tooManyBytes (limit seen : Nat)
  | tooMuchOutput (limit seen : Nat)
  deriving DecidableEq, Repr

/-- Why a container could not be decompressed or compressed. -/
inductive VbaError where
  | badSignature (byte : Option UInt8)
  | truncated (offset need : Nat)
  | badOffset (place offset : Nat)
  | limit (cause : LimitError)
  deriving DecidableEq, Repr

structure Limits where
  maxBytes : Nat
  maxDecompressedBytes : Nat
  deriving DecidableEq, Repr

namespace Limits

def checkBytes (limits : Limits) (seen : Nat) : Except VbaError Unit :=
  if seen > limits.maxBytes then .error (.limit (.tooManyBytes limits.maxBytes seen)) else .ok ()

def checkDecompressed (limits : Limits) (seen : Nat) : Except VbaError Unit :=
  if seen > limits.maxDecompressedBytes then
    .error (.limit (.tooMuchOutput limits.maxDecompressedBytes seen))
  else .ok ()

end Limits

def copyToken (offset : Nat) : Nat → Bytes → Except VbaError Bytes
  | 0, out => .ok out
  | length + 1, out =>
    match out[out.length - offset]? with
    | none => .error (.badOffset out.length offset)
    | some byte => copyToken offset length (out ++ [byte])

/-- Decompress a chunk behind its bit `position` of `flags`. Behind the eighth bit a flag byte
follows, and the chunk may end anywhere but inside a token. -/
def decompressChunk (limits : Limits) (flags : Nat) :
    Nat → Nat → Bytes → Bytes → Except VbaError Bytes
  | _, _, [], out => .ok out
  | position, cursor, byte :: rest, out =>
    if 8 ≤ position then decompressChunk limits byte.toNat 0 (cursor + 1) rest out
    else if !flags.testBit position then do
      limits.checkDecompressed (out.length + 1)
      decompressChunk limits flags (position + 1) (cursor + 1) rest (out ++ [byte])
    else
      match rest with
      | [] => .error (.truncated cursor (cursor + 2))
      | high :: rest => do
          let token := byte.toNat + high.toNat * 256
          let length := token % 16 + lengthBias
          let offset := token / 16 + offsetBias
          if offset = 0 ∨ out.length < offset ∨ maxOffset < offset then
            throw (.badOffset out.length offset)
          limits.checkDecompressed (out.length + length)
          let out ← copyToken offset length out
          decompressChunk limits flags (position + 1) (cursor + 2) rest out

def readChunk (limits : Limits) (cursor : Nat) (rest out : Bytes) : Except VbaError (Nat × Bytes) :=
  match rest with
  | low :: high :: after =>
    let header := low.toNat + high.toNat * 256
    if header / compressedFlag = 0 then do
      if after.length < chunkOutput then
        throw (.truncated (cursor + 2) (cursor + 2 + chunkOutput))
      limits.checkDecompressed (out.length + chunkOutput)
      return (2 + chunkOutput, out ++ after.take chunkOutput)
    else do
      let dataLen := header % (sizeMask + 1) + sizeBias
      if after.length < dataLen then throw (.truncated (cursor + 2) (cursor + 2 + dataLen))
      let out ← decompressChunk limits 0 8 0 (after.take dataLen) out
      return (2 + dataLen, out)
  | _ => .error (.truncated cursor (cursor + 2))

def readChunks (limits : Limits) : Nat → Nat → Bytes → Bytes → Looping VbaError Bytes
  | _, _, [], out => return out
  | 0, _, _ :: _, _ => Looping.unfinished
  | rounds + 1, cursor, rest, out => do
      let (used, out) ← readChunk limits cursor rest out
      readChunks limits rounds (cursor + used) (rest.drop used) out

def decompress (data : Bytes) (limits : Limits) : Looping VbaError Bytes := do
  limits.checkBytes data.length
  match data with
  | [] => throw (.badSignature none)
  | first :: rest =>
    if first ≠ signature then throw (.badSignature (some first))
    -- A chunk takes its header at least, so that there are no more of them than bytes.
    readChunks limits rest.length 0 rest []

end LogicalWorks.Vba

/-! The compressor of VBA modules: chunks of literals and greedy matches, each cut where one of its
two budgets runs out. -/
namespace LogicalWorks.Vba

def matchLength (data : Bytes) (candidate place : Nat) : Nat → Nat → Nat
  | 0, length => length
  | left + 1, length =>
    match data[candidate + length]?, data[place + length]? with
    | some first, some second =>
      if first = second then matchLength data candidate place left (length + 1) else length
    | _, _ => length

def longestMatch (data : Bytes) (place start : Nat) : Nat × Nat :=
  let earliest := max start (place - maxOffset)
  (List.range' earliest (place - earliest)).foldl (fun best candidate =>
    let length := matchLength data candidate place maxMatch 0
    if best.1 < length then (length, place - candidate) else best) (0, 0)

/-- A chunk as it is coded: the groups done, the group begun, and how far the data was read. -/
structure Coding where
  coded : Bytes
  group : Bytes
  flags : Nat
  flagCount : Nat
  decoded : Nat
  place : Nat
  deriving DecidableEq, Repr

namespace Coding

def start (place : Nat) : Coding := ⟨[], [], 0, 0, 0, place⟩

/-- Add one item to the group, and close the group behind its eighth. -/
def push (coding : Coding) (copied : Bool) (body : Bytes) (length : Nat) : Coding :=
  let flags := if copied then coding.flags ||| 2 ^ coding.flagCount else coding.flags
  let group := coding.group ++ body
  if 8 ≤ coding.flagCount + 1 then
    ⟨coding.coded ++ UInt8.ofNat flags :: group, [], 0, 0, coding.decoded + length,
      coding.place + length⟩
  else
    ⟨coding.coded, group, flags, coding.flagCount + 1, coding.decoded + length,
      coding.place + length⟩

def finished (coding : Coding) : Bytes :=
  if 0 < coding.flagCount then coding.coded ++ UInt8.ofNat coding.flags :: coding.group
  else coding.coded

end Coding

def tokenBytes (token : Nat) : Bytes := [UInt8.ofNat (token % 256), UInt8.ofNat (token / 256)]

/-- Code items until the data ends or a budget of the chunk would overflow, for at most so many. -/
def codeItems (data : Bytes) (start : Nat) : Nat → Coding → Looping VbaError Coding
  | rounds, coding =>
    if coding.place < data.length ∧ coding.decoded < chunkOutput then
      match rounds with
      | 0 => Looping.unfinished
      | rounds + 1 =>
        let (length, offset) := longestMatch data coding.place start
        let unitCoded := if lengthBias ≤ length then 2 else 1
        if chunkCoded < coding.coded.length + coding.group.length + unitCoded + 1 ∨
            chunkOutput < coding.decoded + max length 1 then
          return coding
        else if lengthBias ≤ length then
          let token := (offset - offsetBias) * 16 + (length - lengthBias)
          if 0xffff < token then throw (.truncated coding.place 2)
          else codeItems data start rounds (coding.push true (tokenBytes token) length)
        else
          match data[coding.place]? with
          | none => return coding
          | some byte => codeItems data start rounds (coding.push false [byte] 1)
    else return coding

def headerSize (coded : Nat) : Except VbaError Nat :=
  if 0xffff < coded - sizeBias then .error (.truncated coded coded)
  else .ok ((coded - sizeBias) % (sizeMask + 1))

def codeChunk (data : Bytes) (start : Nat) (out : Bytes) (limits : Limits) :
    Looping VbaError (Nat × Bytes) := do
  -- Every item takes a byte of the data at least.
  let coding ← codeItems data start chunkOutput (.start start)
  let coded := coding.finished
  if coded = [] ∨ coding.place = start then throw (.truncated coding.place 1)
  let size ← headerSize coded.length
  let out := out ++ tokenBytes (compressedFlag + size)
  limits.checkBytes (out.length + coded.length)
  return (coding.place - start, out ++ coded)

def codeChunks (data : Bytes) (limits : Limits) : Nat → Nat → Bytes → Looping VbaError Bytes
  | rounds, cursor, out =>
    if cursor < data.length then
      match rounds with
      | 0 => Looping.unfinished
      | rounds + 1 => do
          let (consumed, out) ← codeChunk data cursor out limits
          codeChunks data limits rounds (cursor + consumed) out
    else return out

def compress (data : Bytes) (limits : Limits) : Looping VbaError Bytes := do
  limits.checkBytes data.length
  -- A chunk takes a byte of the data at least.
  let out ← codeChunks data limits data.length 0 [signature]
  limits.checkBytes out.length
  return out

end LogicalWorks.Vba
