import LogicalWorks.Lib.Checks
import LogicalWorks.Time.Format

/-! Text to instants: fields at fixed places, then a fraction and an offset behind them. -/
namespace LogicalWorks.Time

open Decimal (isDigit digitValue)

inductive Field where
  | year | month | day | hour | minute | second | offsetHour | offsetMinute
  deriving DecidableEq, Repr

inductive ParseError where
  | tooShort (len place : Nat)
  | malformed (place : Nat) (byte : UInt8)
  | nonDigit (field : Field) (place : Nat) (byte : UInt8)
  | outOfRange (field : Field) (value min max place : Nat)
  | fractionWidth (digits place : Nat)
  | unsupportedLeapSecond (place : Nat)
  | unrepresentableInstant (error : UnixTimeError)
  | missingOffset (place : Nat)
  deriving DecidableEq, Repr

def saturatedU32 (value : Nat) : Nat := min 4294967295 value

def saturatedI64 (value : Int) : Int := max i64Min (min i64Max value)

def checkMinLen (bytes : Bytes) : Except ParseError Unit :=
  if bytes.length < 19 then .error (.tooShort bytes.length bytes.length) else .ok ()

def expectByte (bytes : Bytes) (place : Nat) (expected : UInt8) : Except ParseError Unit :=
  match bytes[place]? with
  | some actual => if actual = expected then .ok () else .error (.malformed place actual)
  | none => .error (.tooShort bytes.length place)

def checkDigit (byte : UInt8) (targetField : Field) (place : Nat) : Except ParseError Nat :=
  if isDigit byte = true then .ok (digitValue byte) else .error (.nonDigit targetField place byte)

def digitsFrom (bytes : Bytes) (start : Nat) (targetField : Field) :
    Nat → Nat → Nat → Except ParseError Nat
  | 0, _, acc => .ok acc
  | remaining + 1, offset, acc =>
    match bytes[start + offset]? with
    | none => .error (.tooShort bytes.length (start + offset))
    | some byte => do
      let digit ← checkDigit byte targetField (start + offset)
      digitsFrom bytes start targetField remaining (offset + 1)
        (saturatedU32 (saturatedU32 (acc * 10) + digit))

def parseDigitField (bytes : Bytes) (start len : Nat) (targetField : Field) :
    Except ParseError Nat :=
  digitsFrom bytes start targetField len 0 0

def checkRange (field : Field) (value min max place : Nat) : Except ParseError Unit :=
  if value < min ∨ max < value then .error (.outOfRange field value min max place) else .ok ()

def parseYear (bytes : Bytes) : Except ParseError Int := do
  let yearVal ← parseDigitField bytes 0 4 .year
  expectByte bytes 4 0x2D
  .ok yearVal

def parseMonth (bytes : Bytes) : Except ParseError Nat := do
  let monthVal ← parseDigitField bytes 5 2 .month
  expectByte bytes 7 0x2D
  checkRange .month monthVal 1 12 5
  .ok monthVal

def parseDay (bytes : Bytes) (year : Int) (month : Nat) : Except ParseError Nat := do
  let dayVal ← parseDigitField bytes 8 2 .day
  match tryDaysInMonth year month with
  | none => .error (.outOfRange .month month 1 12 5)
  | some monthDays => do
    checkRange .day dayVal 1 monthDays 8
    .ok dayVal

def parseDate (bytes : Bytes) : Except ParseError (Int × Nat × Nat) := do
  let year ← parseYear bytes
  let month ← parseMonth bytes
  let day ← parseDay bytes year month
  .ok (year, month, day)

def checkTimeSeparator (bytes : Bytes) : Except ParseError Unit :=
  match bytes[10]? with
  | some byte =>
    if byte = 0x54 ∨ byte = 0x74 ∨ byte = 0x20 then .ok () else .error (.malformed 10 byte)
  | none => .error (.tooShort bytes.length 10)

def parseHour (bytes : Bytes) : Except ParseError Nat := do
  let hourVal ← parseDigitField bytes 11 2 .hour
  expectByte bytes 13 0x3A
  checkRange .hour hourVal 0 23 11
  .ok hourVal

def parseMinute (bytes : Bytes) : Except ParseError Nat := do
  let minVal ← parseDigitField bytes 14 2 .minute
  expectByte bytes 16 0x3A
  checkRange .minute minVal 0 59 14
  .ok minVal

def parseSecond (bytes : Bytes) : Except ParseError Nat := do
  let secVal ← parseDigitField bytes 17 2 .second
  if secVal = 60 then .error (.unsupportedLeapSecond 17)
  else do
    checkRange .second secVal 0 59 17
    .ok secVal

def parseTime (bytes : Bytes) : Except ParseError (Nat × Nat × Nat) := do
  checkTimeSeparator bytes
  let hour ← parseHour bytes
  let minute ← parseMinute bytes
  let second ← parseSecond bytes
  .ok (hour, minute, second)

def fractionFrom (bytes : Bytes) (start digits : Nat) : Nat → Nat → Nat → Except ParseError Nat
  | 0, _, scaled => .ok scaled
  | remaining + 1, digitIdx, scaled =>
    if digitIdx < digits then
      match bytes[start + digitIdx]? with
      | none => .error (.tooShort bytes.length (start + digitIdx))
      | some byte =>
        fractionFrom bytes start digits remaining (digitIdx + 1)
          (saturatedU32 (saturatedU32 (scaled * 10) + digitValue byte))
    else
      fractionFrom bytes start digits remaining (digitIdx + 1)
        (saturatedU32 (saturatedU32 (scaled * 10) + 0))

def computeFraction (bytes : Bytes) (start digits : Nat) : Except ParseError Nat :=
  fractionFrom bytes start digits 9 0 0

def pastDigits : Bytes → Nat → Nat
  | [], cursor => cursor
  | byte :: rest, cursor => if isDigit byte = true then pastDigits rest (cursor + 1) else cursor

def parseFractionDigits (bytes : Bytes) (cursor dotPos : Nat) :
    Except ParseError (Nat × Nat) :=
  let past := pastDigits (bytes.drop cursor) cursor
  let digits := past - cursor
  if digits = 0 ∨ 9 < digits then .error (.fractionWidth digits dotPos)
  else do
    let nanos ← computeFraction bytes cursor digits
    .ok (nanos, past)

def parseFraction (bytes : Bytes) (cursor : Nat) : Except ParseError (Nat × Nat) :=
  if bytes[cursor]? ≠ some 0x2E then .ok (0, cursor)
  else parseFractionDigits bytes (cursor + 1) cursor

def offsetMagnitude (bytes : Bytes) (cursor : Nat) : Except ParseError Int := do
  let offsetHour ← parseDigitField bytes (cursor + 1) 2 .offsetHour
  expectByte bytes (cursor + 3) 0x3A
  let offsetMinute ← parseDigitField bytes (cursor + 4) 2 .offsetMinute
  checkRange .offsetHour offsetHour 0 23 (cursor + 1)
  checkRange .offsetMinute offsetMinute 0 59 (cursor + 4)
  .ok (saturatedI64 (saturatedI64 (offsetHour * 60) + offsetMinute))

def parseNumericOffset (bytes : Bytes) (cursor : Nat) (signNegative : Bool) :
    Except ParseError Int :=
  let past := cursor + 6
  if bytes.length < past then .error (.missingOffset cursor)
  else if past < bytes.length then
    match bytes[past]? with
    | none => .error (.missingOffset cursor)
    | some byte => .error (.malformed past byte)
  else do
    let magnitude ← offsetMagnitude bytes cursor
    if signNegative = true then .ok (saturatedI64 (-magnitude)) else .ok magnitude

/-- Minutes from UTC, by a designator or in digits, up to the end of the text. -/
def parseOffset (bytes : Bytes) (cursor : Nat) : Except ParseError Int :=
  match bytes[cursor]? with
  | none => .error (.missingOffset cursor)
  | some byte =>
    if byte = 0x5A ∨ byte = 0x7A then
      if cursor + 1 = bytes.length then .ok 0
      else
        match bytes[cursor + 1]? with
        | some byte => .error (.malformed (cursor + 1) byte)
        | none => .error (.missingOffset (cursor + 1))
    else if byte = 0x2B then parseNumericOffset bytes cursor false
    else if byte = 0x2D then parseNumericOffset bytes cursor true
    else .error (.malformed cursor byte)

def preserveSystemTimeError (conversion : Except UnixTimeError Int) : Except ParseError Int :=
  match conversion with
  | .ok instant => .ok instant
  | .error error => .error (.unrepresentableInstant error)

def checkedSystemTime (platform : Platform) (seconds : Int) (nanoseconds : Nat) :
    Except ParseError Int :=
  preserveSystemTimeError (fromUnixParts platform seconds nanoseconds)

def civilSeconds (date : Int × Nat × Nat) (time : Nat × Nat × Nat) (offsetMinutes : Int) : Int :=
  let (year, month, day) := date
  let (hour, minute, second) := time
  let days := saturatedI64 (daysFromCivil year month day * 86400)
  let hours := saturatedI64 (days + saturatedI64 (hour * 3600))
  let minutes := saturatedI64 (hours + saturatedI64 (minute * 60))
  let seconds := saturatedI64 (minutes + second)
  saturatedI64 (seconds - saturatedI64 (offsetMinutes * 60))

def parseRfc3339 (platform : Platform) (text : Bytes) : Except ParseError Int := do
  checkMinLen text
  let date ← parseDate text
  let time ← parseTime text
  let (nanos, cursor) ← parseFraction text 19
  let offsetMinutes ← parseOffset text cursor
  checkedSystemTime platform (civilSeconds date time offsetMinutes) nanos

end LogicalWorks.Time
