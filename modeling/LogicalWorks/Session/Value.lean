import Mathlib.Logic.Basic
import Mathlib.Data.List.Basic
import Mathlib.Algebra.Order.Ring.Int
import Mathlib.Algebra.Order.Ring.Nat

/-! Typed values, variable types and the reading of an answer. -/
namespace LogicalWorks.Session

abbrev Text := List Char

def bytes (text : Text) : Nat := (text.map Char.utf8Size).sum

def isWhitespace (character : Char) : Bool :=
  let code := character.toNat
  (9 ≤ code && code ≤ 13) || code = 32 || code = 0x85 || code = 0xa0 || code = 0x1680 ||
    (0x2000 ≤ code && code ≤ 0x200a) || code = 0x2028 || code = 0x2029 || code = 0x202f ||
    code = 0x205f || code = 0x3000

def trim (text : Text) : Text :=
  ((text.dropWhile isWhitespace).reverse.dropWhile isWhitespace).reverse

def eqIgnoreAsciiCase (left right : Text) : Bool :=
  left.map Char.toLower = right.map Char.toLower

inductive IntErrorKind where
  | empty
  | invalidDigit
  | posOverflow
  | negOverflow
  deriving DecidableEq, Repr

def parseDigits (negative : Bool) (value : Int) : Text → Except IntErrorKind Int
  | [] => .ok value
  | character :: rest =>
    if !character.isDigit then .error .invalidDigit
    else
      let digit : Int := (character.toNat - 48 : Nat)
      if negative then
        if value * 10 - digit < -2 ^ 63 then .error .negOverflow
        else parseDigits negative (value * 10 - digit) rest
      else if 2 ^ 63 ≤ value * 10 + digit then .error .posOverflow
      else parseDigits negative (value * 10 + digit) rest

def parseI64 : Text → Except IntErrorKind Int
  | [] => .error .empty
  | ['+'] | ['-'] => .error .invalidDigit
  | '+' :: digits => parseDigits false 0 digits
  | '-' :: digits => parseDigits true 0 digits
  | digits => parseDigits false 0 digits

def decimal (value : Int) : Text :=
  if value < 0 then '-' :: Nat.toDigits 10 value.natAbs else Nat.toDigits 10 value.natAbs

inductive Value where
  | string (value : Text)
  | integer (value : Int)
  | boolean (value : Bool)
  | choice (value : Text)
  deriving DecidableEq, Repr

def countDigits (magnitude : Nat) : Nat → Nat → Nat → Nat
  | 0, digits, _ => digits
  | fuel + 1, digits, threshold =>
    if threshold ≤ magnitude then countDigits magnitude fuel (digits + 1) (threshold * 10)
    else digits

def integerBytes (value : Int) : Nat :=
  let digits := countDigits value.natAbs 20 1 10
  if value < 0 then digits + 1 else digits

namespace Value

def render : Value → Text
  | string value | choice value => value
  | integer value => decimal value
  | boolean true => "true".toList
  | boolean false => "false".toList

def renderedBytes : Value → Nat
  | string value | choice value => bytes value
  | boolean true => 4
  | boolean false => 5
  | integer value => integerBytes value

end Value

inductive AnswerDomain where
  | label
  | integer
  deriving DecidableEq, Repr

inductive AnswerRejection where
  | notAnInteger
  | integerOutOfRange
  | notABoolean
  | notADeclaredChoice
  deriving DecidableEq, Repr

inductive VarType where
  | string
  | integer
  | boolean
  | choice (options : List Text)
  deriving DecidableEq, Repr

namespace VarType

def answerDomain : VarType → AnswerDomain
  | integer => .integer
  | string | boolean | choice _ => .label

def label : VarType → String
  | string => "string"
  | integer => "integer"
  | boolean => "boolean"
  | choice _ => "choice"

def decodeAnswer (declared : VarType) (answer : Text) : Except AnswerRejection Value :=
  let trimmed := trim answer
  match declared with
  | string => .ok (.string answer)
  | integer =>
    match parseI64 trimmed with
    | .ok value => .ok (.integer value)
    | .error .posOverflow | .error .negOverflow => .error .integerOutOfRange
    | .error _ => .error .notAnInteger
  | boolean =>
    if eqIgnoreAsciiCase trimmed "true".toList || eqIgnoreAsciiCase trimmed "yes".toList then
      .ok (.boolean true)
    else if eqIgnoreAsciiCase trimmed "false".toList || eqIgnoreAsciiCase trimmed "no".toList then
      .ok (.boolean false)
    else .error .notABoolean
  | choice options =>
    match options.find? fun option => eqIgnoreAsciiCase option trimmed with
    | some option => .ok (.choice option)
    | none => .error .notADeclaredChoice

end VarType

def decodeInteger (raw : Text) : Option Int := (parseI64 (trim raw)).toOption

def valueMatchesType (declared : VarType) (value : Value) : Bool :=
  match declared, value with
  | .string, .string _ | .integer, .integer _ | .boolean, .boolean _ => true
  | .choice options, .choice value => value ∈ options
  | _, _ => false

end LogicalWorks.Session
