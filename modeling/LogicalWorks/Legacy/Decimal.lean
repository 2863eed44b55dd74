import LogicalWorks.Lib.Checks
import LogicalWorks.Lib.Decimal
import Mathlib.Data.Nat.Digits.Lemmas

/-! Decimals of COBOL fields: packed, zoned, and in plain notation.  A coefficient saturates at the
ends of its type. -/
namespace LogicalWorks.Legacy

def i128Min : Int := -170141183460469231731687303715884105728

def i128Max : Int := 170141183460469231731687303715884105727

@[ext] structure I128 where
  val : Int
  low : i128Min ≤ val
  high : val ≤ i128Max
  deriving DecidableEq

namespace I128

theorem low_clamp (value : Int) : i128Min ≤ max i128Min (min value i128Max) := by
  unfold i128Min i128Max
  omega

theorem high_clamp (value : Int) : max i128Min (min value i128Max) ≤ i128Max := by
  unfold i128Min i128Max
  omega

def clamp (value : Int) : I128 :=
  ⟨max i128Min (min value i128Max), low_clamp value, high_clamp value⟩

def saturatingMul (left : I128) (right : Int) : I128 := clamp (left.val * right)

def saturatingAdd (left : I128) (right : Int) : I128 := clamp (left.val + right)

def saturatingNeg (value : I128) : I128 := clamp (-value.val)

def unsignedAbs (value : I128) : Nat := value.val.natAbs

theorem val_clamp_natCast (magnitude : Nat) :
    (clamp magnitude).val = min (magnitude : Int) i128Max := by
  change max i128Min (min (magnitude : Int) i128Max) = _
  unfold i128Min i128Max
  omega

end I128

inductive Sign where
  | positive
  | negative
  deriving DecidableEq, Repr

@[ext] structure Decimal where
  coefficient : I128
  scale : UInt32
  deriving DecidableEq

namespace Decimal

def isNegative (value : Decimal) : Bool := value.coefficient.val < 0

end Decimal

inductive DecimalError where
  | badNibble (offset nibble : Nat)
  | badSign (offset nibble : Nat)
  | negativeUnsigned (coefficient : I128)
  | tooWide (offset needed capacity : Nat)
  | notANumber (offset : Nat)
  | limit (limit seen : Nat)
  deriving DecidableEq

structure Limits where
  maxBytes : Nat
  deriving DecidableEq, Repr

namespace Limits

def checkBytes (limits : Limits) (seen : Nat) : Except DecimalError Unit :=
  require (seen ≤ limits.maxBytes) (.limit limits.maxBytes seen)

end Limits

/-- The bytes of a packed field: its digits and a sign, two nibbles to a byte. -/
def packedWidth (digits : Nat) : Nat := (digits + 2) / 2

def magnitudeDigits (magnitude : Nat) : Nat :=
  if magnitude = 0 then 1 else (Nat.digits 10 magnitude).length

def digitCount (value : I128) : Nat := magnitudeDigits value.unsignedAbs

def digitsOf : Nat → Nat → List Nat
  | 0, _ => []
  | digits + 1, magnitude => digitsOf digits (magnitude / 10) ++ [magnitude % 10]

def push (accumulator : I128) (digit : Nat) : I128 :=
  (accumulator.saturatingMul 10).saturatingAdd digit

def foldDigit (accumulator : I128) (nibble offset : Nat) : Except DecimalError I128 := do
  require (nibble ≤ 9) (.badNibble offset nibble)
  return push accumulator nibble

def readSign (nibble offset : Nat) : Except DecimalError Sign :=
  if nibble = 0x0c ∨ nibble = 0x0f then .ok .positive
  else if nibble = 0x0d then .ok .negative
  else .error (.badSign offset nibble)

def applySign (value : I128) : Sign → I128
  | .positive => value
  | .negative => value.saturatingNeg

def checkWidth (bytes : Bytes) (width needed digits : Nat) (limits : Limits) :
    Except DecimalError Unit := do
  limits.checkBytes bytes.length
  require (bytes.length = width) (.tooWide 0 needed digits)

/-- The bytes of a packed field from an offset on.  The first byte of an even picture is a pad and
a digit, whatever the width. -/
def packedFrom (digits last : Nat) (signed : Bool) : Nat → Bytes → I128 → Except DecimalError I128
  | _, [], coefficient => .ok coefficient
  | offset, byte :: rest, coefficient =>
    let high := byte.toNat / 16
    let low := byte.toNat % 16
    if offset = 0 ∧ digits % 2 = 0 then do
      require (high = 0) (.badNibble offset high)
      let coefficient ← foldDigit coefficient low offset
      packedFrom digits last signed (offset + 1) rest coefficient
    else if offset = last then do
      let coefficient ← foldDigit coefficient high offset
      let sign ← readSign low offset
      require (¬(signed = false ∧ sign = .negative)) (.negativeUnsigned coefficient)
      packedFrom digits last signed (offset + 1) rest (applySign coefficient sign)
    else do
      let coefficient ← foldDigit coefficient high offset
      let coefficient ← foldDigit coefficient low offset
      packedFrom digits last signed (offset + 1) rest coefficient

def decodePacked (bytes : Bytes) (digits : Nat) (scale : UInt32) (signed : Bool) (limits : Limits) :
    Except DecimalError Decimal := do
  checkWidth bytes (packedWidth digits) (bytes.length * 2) digits limits
  let coefficient ← packedFrom digits (bytes.length - 1) signed 0 bytes (.clamp 0)
  return ⟨coefficient, scale⟩

def checkEncodable (value : Decimal) (digits : Nat) (signed : Bool) : Except DecimalError Unit := do
  require (¬(signed = false ∧ value.isNegative)) (.negativeUnsigned value.coefficient)
  require (digitCount value.coefficient ≤ digits) (.tooWide 0 (digitCount value.coefficient) digits)

def pad (digits : Nat) : List Nat := if digits % 2 = 0 then [0] else []

def packedNibbles (value : Decimal) (digits : Nat) (signed : Bool) : List Nat :=
  pad digits ++ digitsOf digits value.coefficient.unsignedAbs ++
    [if signed && value.isNegative then 0x0d else 0x0c]

def pairNibbles : List Nat → Option Bytes
  | [] => some []
  | [_] => none
  | high :: low :: rest => (pairNibbles rest).map (UInt8.ofNat (high * 16 + low) :: ·)

def encodePacked (value : Decimal) (digits : Nat) (signed : Bool) (limits : Limits) :
    Except DecimalError Bytes := do
  checkEncodable value digits signed
  limits.checkBytes (packedWidth digits)
  match pairNibbles (packedNibbles value digits signed) with
  | some bytes => return bytes
  | none => throw (.tooWide 0 (packedNibbles value digits signed).length digits)

def zonedFrom (last : Nat) (signed : Bool) : Nat → Bytes → I128 → Except DecimalError I128
  | _, [], coefficient => .ok coefficient
  | offset, byte :: rest, coefficient => do
    let zone := byte.toNat / 16
    let coefficient ← foldDigit coefficient (byte.toNat % 16) offset
    if offset = last ∧ signed then
      let sign ← readSign zone offset
      zonedFrom last signed (offset + 1) rest (applySign coefficient sign)
    else do
      require (zone = 0x0f) (.badSign offset zone)
      zonedFrom last signed (offset + 1) rest coefficient

/-- A zoned field at scale zero; the places of the picture are applied by the caller. -/
def decodeZoned (bytes : Bytes) (digits : Nat) (signed : Bool) (limits : Limits) :
    Except DecimalError Decimal := do
  checkWidth bytes digits bytes.length digits limits
  let coefficient ← zonedFrom (bytes.length - 1) signed 0 bytes (.clamp 0)
  return ⟨coefficient, 0⟩

def zoneOf (value : Decimal) (signed : Bool) (last offset : Nat) : Nat :=
  if offset = last ∧ signed then (if value.isNegative then 0x0d else 0x0c) else 0x0f

def encodeZoned (value : Decimal) (digits : Nat) (signed : Bool) (limits : Limits) :
    Except DecimalError Bytes := do
  limits.checkBytes digits
  checkEncodable value digits signed
  return (digitsOf digits value.coefficient.unsignedAbs).mapIdx fun offset digit =>
    UInt8.ofNat (zoneOf value signed (digits - 1) offset * 16 + digit)

/-! Plain notation: a sign, digits, and at most one point. -/

structure Reading where
  coefficient : I128
  places : UInt32
  pointed : Bool
  digits : Nat

def u32Max : Nat := 4294967295

def saturatingSucc (places : UInt32) : UInt32 := UInt32.ofNat (min (places.toNat + 1) u32Max)

def readBytes : Nat → Bytes → Reading → Except DecimalError Reading
  | _, [], reading => .ok reading
  | offset, byte :: rest, reading =>
    if byte = 0x2e ∧ reading.pointed = false then
      readBytes (offset + 1) rest { reading with pointed := true }
    else do
      require (Decimal.isDigit byte) (.notANumber offset)
      let coefficient ← foldDigit reading.coefficient (Decimal.digitValue byte) offset
      readBytes (offset + 1) rest
        { reading with
          coefficient := coefficient
          digits := reading.digits + 1
          places := if reading.pointed then saturatingSucc reading.places else reading.places }

def stripSign : Bytes → Sign × Bytes
  | [] => (.positive, [])
  | byte :: rest =>
    if byte = 0x2d then (.negative, rest)
    else if byte = 0x2b then (.positive, rest)
    else (.positive, byte :: rest)

def fromStr (text : Bytes) : Except DecimalError Decimal := do
  let body := (stripSign text).2
  let reading ← readBytes (text.length - body.length) body ⟨.clamp 0, 0, false, 0⟩
  require (reading.digits ≠ 0) (.notANumber text.length)
  return ⟨applySign reading.coefficient (stripSign text).1, reading.places⟩

/-- The widest padding the formatter of the standard library takes: past it the call panics. -/
def maxWidth : Nat := 65535

def render (value : Decimal) : Option Bytes :=
  let magnitude := value.coefficient.unsignedAbs
  let digits := Decimal.written (magnitudeDigits magnitude) magnitude
  let sign : Bytes := if value.isNegative then [0x2d] else []
  let places := value.scale.toNat
  if places = 0 then some (sign ++ digits)
  else if maxWidth < places + 1 then none
  else
    let padded := List.replicate (places + 1 - digits.length) 0x30 ++ digits
    let split := padded.length - places
    some (sign ++ padded.take split ++ 0x2e :: padded.drop split)

end LogicalWorks.Legacy
