import LogicalWorks.Lib.Decimal
import LogicalWorks.Time.Parse

/-! The profile of the text: what a stamp says, how it is written, and the instant it names. The
parser reads exactly the texts of stamps, and to their instants. -/
namespace LogicalWorks.Time

open Decimal

inductive Offset where
  | utc (designator : UInt8) (isZulu : designator = 0x5A ∨ designator = 0x7A)
  | numeric (negative : Bool) (hour : Fin 24) (minute : Fin 60)

namespace Offset

def text : Offset → Bytes
  | utc designator _ => [designator]
  | numeric negative hour minute =>
    (if negative = true then 0x2D else 0x2B) :: (written 2 hour ++ 0x3A :: written 2 minute)

def minutes : Offset → Int
  | utc _ _ => 0
  | numeric negative hour minute =>
    let magnitude : Int := (hour : Nat) * 60 + (minute : Nat)
    if negative = true then -magnitude else magnitude

end Offset

/-- A day of the calendar in a year of four digits, a time of it without a leap second, up to nine
digits of a fraction, none where it is left out, and an offset. -/
structure Stamp where
  year : Nat
  month : Nat
  day : Nat
  separator : UInt8
  hour : Nat
  minute : Nat
  second : Nat
  fraction : Bytes
  offset : Offset
  year_le : year ≤ 9999
  valid : ValidDate (year, month, day)
  separates : separator = 0x54 ∨ separator = 0x74 ∨ separator = 0x20
  hour_le : hour ≤ 23
  minute_le : minute ≤ 59
  second_le : second ≤ 59
  digits : ∀ byte ∈ fraction, isDigit byte = true
  width : fraction.length ≤ 9

def fractionText (fraction : Bytes) : Bytes := if fraction = [] then [] else 0x2E :: fraction

def fractionNanos (fraction : Bytes) : Nat := number fraction * 10 ^ (9 - fraction.length)

namespace Stamp

variable (stamp : Stamp)

def text : Bytes :=
  written 4 stamp.year ++ 0x2D :: (written 2 stamp.month ++ 0x2D :: (written 2 stamp.day ++
    stamp.separator :: (written 2 stamp.hour ++ 0x3A :: (written 2 stamp.minute ++
      0x3A :: (written 2 stamp.second ++ (fractionText stamp.fraction ++ stamp.offset.text))))))

def seconds : Int :=
  dayCount (stamp.year, stamp.month, stamp.day) * 86400 + stamp.hour * 3600 + stamp.minute * 60 +
    stamp.second - stamp.offset.minutes * 60

def instant : Int := stamp.seconds * 1000000000 + fractionNanos stamp.fraction

end Stamp

section Digits

theorem expectByte_ok {bytes : Bytes} {place : Nat} {expected : UInt8} {done : Unit} :
    expectByte bytes place expected = .ok done ↔ bytes[place]? = some expected := by
  unfold expectByte
  cases bytes[place]? with
  | none => simp
  | some actual =>
    by_cases h : actual = expected <;> simp [h]

theorem checkDigit_ok {byte : UInt8} {targetField : Field} {place value : Nat} :
    checkDigit byte targetField place = .ok value ↔ isDigit byte = true ∧ digitValue byte = value := by
  unfold checkDigit
  by_cases h : isDigit byte = true <;> simp [h]

theorem checkRange_ok {field : Field} {value low high place : Nat} {done : Unit} :
    checkRange field value low high place = .ok done ↔ low ≤ value ∧ value ≤ high := by
  unfold checkRange
  by_cases h : value < low ∨ high < value
  · rw [if_pos h]
    constructor
    · intro hok
      cases hok
    · intro hrange
      omega
  · rw [if_neg h]
    constructor
    · intro _
      omega
    · intro _
      rfl

theorem saturatedU32_eq {value : Nat} (h : value ≤ 4294967295) : saturatedU32 value = value :=
  Nat.min_eq_right h

theorem number_lt {digits : Bytes} (h : ∀ byte ∈ digits, isDigit byte = true) :
    number digits < 10 ^ digits.length :=
  (written_number h).1

theorem saturated_digit {digits : Bytes} {byte : UInt8} (h : ∀ other ∈ digits, isDigit other = true)
    (hbyte : isDigit byte = true) (hlength : digits.length ≤ 8) :
    saturatedU32 (saturatedU32 (number digits * 10) + digitValue byte) =
      number (digits ++ [byte]) := by
  have hbound := Nat.lt_of_lt_of_le (number_lt h) (Nat.pow_le_pow_right (by decide) hlength)
  have hvalue := (digit_digitValue hbyte).1
  have hscaled : saturatedU32 (number digits * 10) = number digits * 10 :=
    saturatedU32_eq (by omega)
  rw [number_append_singleton, hscaled, saturatedU32_eq (by omega)]

theorem digitsFrom_ok {bytes : Bytes} {start : Nat} {targetField : Field} {remaining : Nat}
    {before : Bytes} {value : Nat} (hbefore : ∀ byte ∈ before, isDigit byte = true)
    (hlength : before.length + remaining ≤ 9) :
    digitsFrom bytes start targetField remaining before.length (number before) = .ok value ↔
      ∃ digits : Bytes, digits.length = remaining ∧ (∀ byte ∈ digits, isDigit byte = true) ∧
        PartAt bytes (start + before.length) digits ∧ number (before ++ digits) = value := by
  induction remaining generalizing before with
  | zero =>
    constructor
    · intro h
      cases h
      exact ⟨[], rfl, fun byte h => (List.not_mem_nil h).elim, partAt_nil _ _,
        congrArg number (List.append_nil before)⟩
    · rintro ⟨digits, hnil, -, -, hvalue⟩
      rw [List.length_eq_zero_iff.mp hnil, List.append_nil] at hvalue
      exact congrArg Except.ok hvalue
  | succ remaining ih =>
    rw [digitsFrom]
    cases hbyte : bytes[start + before.length]? with
    | none =>
      constructor
      · intro h
        cases h
      · rintro ⟨_ | ⟨byte, digits⟩, hdigits, -, hpart, -⟩
        · cases hdigits
        · rw [partAt_cons, hbyte] at hpart
          cases hpart.1
    | some byte =>
      have hstep (hdigit : isDigit byte = true) := @ih (before ++ [byte]) (by
        intro other hother
        rcases List.mem_append.mp hother with hother | hother
        · exact hbefore other hother
        · rw [List.mem_singleton.mp hother]
          exact hdigit) (by
        rw [List.length_append, List.length_singleton]
        omega)
      rw [List.length_append, List.length_singleton] at hstep
      constructor
      · intro h
        obtain ⟨digit, hdigit, hrest⟩ := bind_eq_ok.mp h
        obtain ⟨hvalid, rfl⟩ := checkDigit_ok.mp hdigit
        rw [saturated_digit hbefore hvalid (by omega)] at hrest
        obtain ⟨digits, hdigits, hall, hpart, hvalue⟩ := (hstep hvalid).mp hrest
        refine ⟨byte :: digits, congrArg Nat.succ hdigits, ?_, partAt_cons.mpr ⟨hbyte, hpart⟩, ?_⟩
        · exact List.forall_mem_cons.mpr ⟨hvalid, hall⟩
        · rwa [List.append_assoc] at hvalue
      · rintro ⟨_ | ⟨other, digits⟩, hdigits, hall, hpart, hvalue⟩
        · cases hdigits
        obtain ⟨hother, hrest⟩ := partAt_cons.mp hpart
        rw [hbyte] at hother
        cases hother
        obtain ⟨hdigit, hall⟩ := List.forall_mem_cons.mp hall
        refine bind_eq_ok.mpr ⟨digitValue byte, checkDigit_ok.mpr ⟨hdigit, rfl⟩, ?_⟩
        rw [saturated_digit hbefore hdigit (by omega)]
        refine (hstep hdigit).mpr ⟨digits, Nat.succ.inj hdigits, hall, hrest, ?_⟩
        rwa [List.append_assoc]

theorem parseDigitField_ok {bytes : Bytes} {start len : Nat} {targetField : Field} {value : Nat}
    (hlen : len ≤ 9) :
    parseDigitField bytes start len targetField = .ok value ↔
      value < 10 ^ len ∧ PartAt bytes start (written len value) := by
  have hread := @digitsFrom_ok bytes start targetField len [] value
    (fun byte h => (List.not_mem_nil h).elim) (by rw [List.length_nil]; omega)
  refine hread.trans ⟨?_, ?_⟩
  · rintro ⟨digits, rfl, hall, hpart, rfl⟩
    obtain ⟨hbound, hsame⟩ := written_number hall
    refine ⟨hbound, ?_⟩
    rw [List.nil_append, hsame]
    exact hpart
  · rintro ⟨hbound, hpart⟩
    exact ⟨written len value, length_written len value, isDigit_written len value, hpart,
      number_written hbound⟩

end Digits

section Fields

variable {bytes : Bytes}

theorem parseYear_ok {value : Int} :
    parseYear bytes = .ok value ↔
      ∃ year : Nat, year ≤ 9999 ∧ PartAt bytes 0 (written 4 year) ∧ bytes[4]? = some 0x2D ∧
        (year : Int) = value := by
  simp only [parseYear, bind_eq_ok, parseDigitField_ok (show 4 ≤ 9 by decide), expectByte_ok,
    Except.ok.injEq]
  constructor
  · rintro ⟨year, ⟨hbound, hpart⟩, done, hdash, hvalue⟩
    exact ⟨year, Nat.le_of_lt_succ hbound, hpart, hdash, hvalue⟩
  · rintro ⟨year, hbound, hpart, hdash, hvalue⟩
    exact ⟨year, ⟨Nat.lt_succ_of_le hbound, hpart⟩, (), hdash, hvalue⟩

theorem parseMonth_ok {month : Nat} :
    parseMonth bytes = .ok month ↔
      PartAt bytes 5 (written 2 month) ∧ bytes[7]? = some 0x2D ∧ 1 ≤ month ∧ month ≤ 12 := by
  simp only [parseMonth, bind_eq_ok, parseDigitField_ok (show 2 ≤ 9 by decide), expectByte_ok,
    checkRange_ok, Except.ok.injEq]
  constructor
  · rintro ⟨month, ⟨hbound, hpart⟩, done, hdash, done', hrange, rfl⟩
    exact ⟨hpart, hdash, hrange⟩
  · rintro ⟨hpart, hdash, hrange⟩
    exact ⟨month, ⟨by omega, hpart⟩, (), hdash, (), hrange, rfl⟩

theorem parseDay_ok {year : Int} {month day : Nat} :
    parseDay bytes year month = .ok day ↔
      PartAt bytes 8 (written 2 day) ∧ 1 ≤ day ∧ day ≤ daysInMonth year month := by
  have hmonth := daysInMonth_le year month
  simp only [parseDay, bind_eq_ok, parseDigitField_ok (show 2 ≤ 9 by decide)]
  unfold daysInMonth at *
  cases hdays : tryDaysInMonth year month with
  | none =>
    constructor
    · rintro ⟨day, -, h⟩
      cases h
    · rintro ⟨-, hfrom, hto⟩
      exact absurd (Nat.le_trans hfrom hto) (by decide)
  | some monthDays =>
    rw [hdays, Option.getD_some] at hmonth
    simp only [bind_eq_ok, checkRange_ok, Except.ok.injEq, Option.getD_some]
    constructor
    · rintro ⟨day, ⟨hbound, hpart⟩, done, hrange, rfl⟩
      exact ⟨hpart, hrange⟩
    · rintro ⟨hpart, hrange⟩
      exact ⟨day, ⟨by omega, hpart⟩, (), hrange, rfl⟩

def dateText (year month day : Nat) : Bytes :=
  written 4 year ++ 0x2D :: (written 2 month ++ 0x2D :: written 2 day)

theorem parseDate_ok {date : Int × Nat × Nat} :
    parseDate bytes = .ok date ↔
      ∃ year month day : Nat, year ≤ 9999 ∧ ValidDate (year, month, day) ∧
        PartAt bytes 0 (dateText year month day) ∧ date = (↑year, month, day) := by
  simp only [parseDate, bind_eq_ok, parseYear_ok, parseMonth_ok, parseDay_ok, Except.ok.injEq,
    dateText, partAt_append, partAt_cons, length_written, ValidDate]
  constructor
  · rintro ⟨value, ⟨year, hyear, hpart, hdash, rfl⟩, month, ⟨hmonth, hdash', hrange⟩, day,
      ⟨hday, hrange'⟩, rfl⟩
    exact ⟨year, month, day, hyear, ⟨hrange.1, hrange.2, hrange'⟩,
      ⟨hpart, hdash, hmonth, hdash', hday⟩, rfl⟩
  · rintro ⟨year, month, day, hyear, ⟨hfrom, hto, hrange⟩, ⟨hpart, hdash, hmonth, hdash', hday⟩,
      rfl⟩
    exact ⟨year, ⟨year, hyear, hpart, hdash, rfl⟩, month, ⟨hmonth, hdash', hfrom, hto⟩, day,
      ⟨hday, hrange⟩, rfl⟩

theorem checkTimeSeparator_ok {done : Unit} :
    checkTimeSeparator bytes = .ok done ↔
      ∃ separator : UInt8, (separator = 0x54 ∨ separator = 0x74 ∨ separator = 0x20) ∧
        bytes[10]? = some separator := by
  unfold checkTimeSeparator
  cases bytes[10]? with
  | none => simp
  | some byte =>
    dsimp only
    by_cases h : byte = 0x54 ∨ byte = 0x74 ∨ byte = 0x20
    · rw [if_pos h]
      exact ⟨fun _ => ⟨byte, h, rfl⟩, fun _ => rfl⟩
    · rw [if_neg h]
      constructor
      · intro hok
        cases hok
      · rintro ⟨separator, hseparator, hbyte⟩
        cases hbyte
        exact absurd hseparator h

theorem parseHour_ok {hour : Nat} :
    parseHour bytes = .ok hour ↔
      PartAt bytes 11 (written 2 hour) ∧ bytes[13]? = some 0x3A ∧ hour ≤ 23 := by
  simp only [parseHour, bind_eq_ok, parseDigitField_ok (show 2 ≤ 9 by decide), expectByte_ok,
    checkRange_ok, Except.ok.injEq]
  constructor
  · rintro ⟨hour, ⟨hbound, hpart⟩, done, hcolon, done', hrange, rfl⟩
    exact ⟨hpart, hcolon, hrange.2⟩
  · rintro ⟨hpart, hcolon, hrange⟩
    exact ⟨hour, ⟨by omega, hpart⟩, (), hcolon, (), ⟨Nat.zero_le hour, hrange⟩, rfl⟩

theorem parseMinute_ok {minute : Nat} :
    parseMinute bytes = .ok minute ↔
      PartAt bytes 14 (written 2 minute) ∧ bytes[16]? = some 0x3A ∧ minute ≤ 59 := by
  simp only [parseMinute, bind_eq_ok, parseDigitField_ok (show 2 ≤ 9 by decide), expectByte_ok,
    checkRange_ok, Except.ok.injEq]
  constructor
  · rintro ⟨minute, ⟨hbound, hpart⟩, done, hcolon, done', hrange, rfl⟩
    exact ⟨hpart, hcolon, hrange.2⟩
  · rintro ⟨hpart, hcolon, hrange⟩
    exact ⟨minute, ⟨by omega, hpart⟩, (), hcolon, (), ⟨Nat.zero_le minute, hrange⟩, rfl⟩

theorem parseSecond_ok {second : Nat} :
    parseSecond bytes = .ok second ↔ PartAt bytes 17 (written 2 second) ∧ second ≤ 59 := by
  simp only [parseSecond, bind_eq_ok, parseDigitField_ok (show 2 ≤ 9 by decide)]
  constructor
  · rintro ⟨value, ⟨hbound, hpart⟩, h⟩
    by_cases hleap : value = 60
    · rw [if_pos hleap] at h
      cases h
    · rw [if_neg hleap] at h
      obtain ⟨done, hrange, hvalue⟩ := bind_eq_ok.mp h
      cases hvalue
      exact ⟨hpart, (checkRange_ok.mp hrange).2⟩
  · rintro ⟨hpart, hrange⟩
    refine ⟨second, ⟨by omega, hpart⟩, ?_⟩
    rw [if_neg (by omega)]
    exact bind_eq_ok.mpr ⟨(), checkRange_ok.mpr ⟨Nat.zero_le second, hrange⟩, rfl⟩

def timeText (separator : UInt8) (hour minute second : Nat) : Bytes :=
  separator :: (written 2 hour ++ 0x3A :: (written 2 minute ++ 0x3A :: written 2 second))

theorem parseTime_ok {time : Nat × Nat × Nat} :
    parseTime bytes = .ok time ↔
      ∃ (separator : UInt8) (hour minute second : Nat),
        (separator = 0x54 ∨ separator = 0x74 ∨ separator = 0x20) ∧ hour ≤ 23 ∧ minute ≤ 59 ∧
          second ≤ 59 ∧ PartAt bytes 10 (timeText separator hour minute second) ∧
            time = (hour, minute, second) := by
  simp only [parseTime, bind_eq_ok, checkTimeSeparator_ok, parseHour_ok, parseMinute_ok,
    parseSecond_ok, Except.ok.injEq, timeText, partAt_append, partAt_cons, length_written]
  constructor
  · rintro ⟨done, ⟨separator, hseparates, hplace⟩, hour, ⟨hpart, hcolon, hhour⟩, minute,
      ⟨hpart', hcolon', hminute⟩, second, ⟨hpart'', hsecond⟩, rfl⟩
    exact ⟨separator, hour, minute, second, hseparates, hhour, hminute, hsecond,
      ⟨hplace, hpart, hcolon, hpart', hcolon', hpart''⟩, rfl⟩
  · rintro ⟨separator, hour, minute, second, hseparates, hhour, hminute, hsecond,
      ⟨hplace, hpart, hcolon, hpart', hcolon', hpart''⟩, rfl⟩
    exact ⟨(), ⟨separator, hseparates, hplace⟩, hour, ⟨hpart, hcolon, hhour⟩, minute,
      ⟨hpart', hcolon', hminute⟩, second, ⟨hpart'', hsecond⟩, rfl⟩

end Fields

section Fraction

variable {bytes fraction : Bytes}

theorem pastDigits_eq (rest : Bytes) (cursor : Nat) :
    pastDigits rest cursor = cursor + (rest.takeWhile isDigit).length := by
  induction rest generalizing cursor with
  | nil => rfl
  | cons byte rest ih =>
    rw [pastDigits]
    by_cases h : isDigit byte = true
    · rw [if_pos h, ih, List.takeWhile_cons_of_pos h, List.length_cons]
      omega
    · rw [if_neg h, List.takeWhile_cons_of_neg h]
      rfl

theorem number_append_zeros (digits : Bytes) (count : Nat) :
    number (digits ++ List.replicate count 0x30) = number digits * 10 ^ count := by
  induction count with
  | zero => rw [List.replicate_zero, List.append_nil, Nat.pow_zero, Nat.mul_one]
  | succ count ih =>
    rw [List.replicate_succ', ← List.append_assoc, number_append_singleton, ih, Nat.pow_succ,
      Nat.mul_assoc]
    rfl

/-- The scaled value is spelled by the digits and the zeros that fill them up. -/
theorem fractionFrom_eq {start : Nat} (hpart : PartAt bytes start fraction)
    (hdigits : ∀ byte ∈ fraction, isDigit byte = true) {remaining : Nat} {done rest : Bytes}
    (hlength : done.length + remaining = 9)
    (hsplit : done ++ rest = fraction ++ List.replicate (9 - fraction.length) 0x30)
    (hrest : rest.length = remaining) :
    fractionFrom bytes start fraction.length remaining done.length (number done) =
      .ok (number (done ++ rest)) := by
  have hall : ∀ byte ∈ done ++ rest, isDigit byte = true := by
    intro byte hbyte
    rw [hsplit] at hbyte
    rcases List.mem_append.mp hbyte with hbyte | hbyte
    · exact hdigits byte hbyte
    · rw [(List.mem_replicate.mp hbyte).2]
      rfl
  induction remaining generalizing done rest with
  | zero =>
    rw [List.length_eq_zero_iff.mp hrest, List.append_nil]
    rfl
  | succ remaining ih =>
    cases rest with
    | nil => cases hrest
    | cons byte rest =>
      have hdone : ∀ other ∈ done, isDigit other = true :=
        fun other hother => hall other (List.mem_append_left _ hother)
      have hbyte := hall byte (List.mem_append_right _ List.mem_cons_self)
      have hassoc : (done ++ [byte]) ++ rest = done ++ byte :: rest := List.append_assoc _ _ _
      have hnext := @ih (done ++ [byte]) rest
        (by rw [List.length_append, List.length_singleton]; omega)
        (hassoc.trans hsplit) (Nat.succ.inj hrest) (by rwa [hassoc])
      rw [hassoc, List.length_append, List.length_singleton,
        ← saturated_digit hdone hbyte (by omega)] at hnext
      have hat : (fraction ++ List.replicate (9 - fraction.length) 0x30)[done.length]? =
          some byte := by
        rw [← hsplit, List.getElem?_append_right (Nat.le_refl _), Nat.sub_self]
        rfl
      rw [fractionFrom]
      by_cases hmeasured : done.length < fraction.length
      · have hread : bytes[start + done.length]? = some byte := by
          rw [← List.getElem?_drop, hpart, List.getElem?_append_left hmeasured]
          rwa [List.getElem?_append_left hmeasured] at hat
        rw [if_pos hmeasured, hread]
        exact hnext
      · have hzero : byte = 0x30 := by
          rw [List.getElem?_append_right (Nat.not_lt.mp hmeasured)] at hat
          exact List.eq_of_mem_replicate (List.mem_of_getElem? hat)
        rw [hzero] at hnext
        rw [if_neg hmeasured, hzero]
        exact hnext

theorem computeFraction_eq {start : Nat} (hpart : PartAt bytes start fraction)
    (hdigits : ∀ byte ∈ fraction, isDigit byte = true) (hwidth : fraction.length ≤ 9) :
    computeFraction bytes start fraction.length = .ok (fractionNanos fraction) := by
  have hscaled := @fractionFrom_eq bytes fraction start hpart hdigits 9 []
    (fraction ++ List.replicate (9 - fraction.length) 0x30) rfl rfl (by
      rw [List.length_append, List.length_replicate]
      omega)
  rwa [List.nil_append, number_append_zeros] at hscaled

theorem fractionNanos_lt (hdigits : ∀ byte ∈ fraction, isDigit byte = true)
    (hwidth : fraction.length ≤ 9) : fractionNanos fraction < nanosPerSecond := by
  have hbound := number_lt hdigits
  have hpos : 0 < 10 ^ (9 - fraction.length) := Nat.pow_pos (by decide)
  have hmul := Nat.mul_lt_mul_of_pos_right hbound hpos
  rw [← Nat.pow_add, Nat.add_sub_cancel' hwidth] at hmul
  exact hmul

theorem parseFractionDigits_eq {cursor dotPos : Nat}
    (hrun : (bytes.drop cursor).takeWhile isDigit = fraction) :
    parseFractionDigits bytes cursor dotPos =
      if fraction.length = 0 ∨ 9 < fraction.length then
        .error (.fractionWidth fraction.length dotPos)
      else computeFraction bytes cursor fraction.length >>= fun nanos =>
        .ok (nanos, cursor + fraction.length) := by
  unfold parseFractionDigits
  simp only [pastDigits_eq, hrun, Nat.add_sub_cancel_left]

theorem fraction_of_parse {cursor nanos past : Nat}
    (h : parseFraction bytes cursor = .ok (nanos, past)) :
    ∃ fraction : Bytes, (∀ byte ∈ fraction, isDigit byte = true) ∧ fraction.length ≤ 9 ∧
      PartAt bytes cursor (fractionText fraction) ∧
        past = cursor + (fractionText fraction).length ∧ nanos = fractionNanos fraction := by
  unfold parseFraction at h
  by_cases hdot : bytes[cursor]? = some 0x2E
  · rw [if_neg (not_not_intro hdot)] at h
    obtain ⟨fraction, hrun⟩ : ∃ fraction,
        (bytes.drop (cursor + 1)).takeWhile isDigit = fraction := ⟨_, rfl⟩
    rw [parseFractionDigits_eq hrun] at h
    have hpart : PartAt bytes (cursor + 1) fraction := by
      apply partAt_of_drop
      rw [← hrun]
      exact (List.takeWhile_append_dropWhile).symm
    have hdigits : ∀ byte ∈ fraction, isDigit byte = true := by
      rw [← hrun]
      exact fun byte hbyte => List.mem_takeWhile_imp hbyte
    by_cases hwidth : fraction.length = 0 ∨ 9 < fraction.length
    · rw [if_pos hwidth] at h
      cases h
    · obtain ⟨hne, hle⟩ := not_or.mp hwidth
      rw [if_neg hwidth, computeFraction_eq hpart hdigits (Nat.not_lt.mp hle)] at h
      cases h
      have htext : fractionText fraction = 0x2E :: fraction :=
        if_neg fun hnil => hne (List.length_eq_zero_iff.mpr hnil)
      refine ⟨fraction, hdigits, Nat.not_lt.mp hle, ?_, ?_, rfl⟩
      · rw [htext]
        exact partAt_cons.mpr ⟨hdot, hpart⟩
      · rw [htext, List.length_cons]
        omega
  · rw [if_pos hdot] at h
    cases h
    exact ⟨[], fun byte hbyte => (List.not_mem_nil hbyte).elim, Nat.zero_le 9, partAt_nil _ _,
      rfl, rfl⟩

theorem parse_of_fraction {cursor : Nat} {byte : UInt8} {rest : Bytes}
    (hdigits : ∀ byte ∈ fraction, isDigit byte = true) (hwidth : fraction.length ≤ 9)
    (hpart : bytes.drop cursor = fractionText fraction ++ byte :: rest)
    (hdot : byte ≠ 0x2E) (hdigit : isDigit byte = false) :
    parseFraction bytes cursor =
      .ok (fractionNanos fraction, cursor + (fractionText fraction).length) := by
  unfold parseFraction
  by_cases hnil : fraction = []
  · subst hnil
    have hbyte : bytes[cursor]? = some byte := by
      have hhead := congrArg List.head? hpart
      rwa [List.head?_drop] at hhead
    rw [hbyte, if_pos fun h => hdot (Option.some.inj h)]
    rfl
  · have htext : fractionText fraction = 0x2E :: fraction := if_neg hnil
    rw [htext] at hpart
    obtain ⟨hstart, hfraction⟩ := partAt_cons.mp (partAt_of_drop hpart)
    have hdrop : bytes.drop (cursor + 1) = fraction ++ byte :: rest := by
      have htail := congrArg List.tail hpart
      rwa [List.tail_drop] at htail
    have hrun : (bytes.drop (cursor + 1)).takeWhile isDigit = fraction := by
      rw [hdrop, List.takeWhile_append_of_pos hdigits,
        List.takeWhile_cons_of_neg (by rw [hdigit]; exact Bool.false_ne_true), List.append_nil]
    have hlength : ¬ (fraction.length = 0 ∨ 9 < fraction.length) := by
      rw [List.length_eq_zero_iff]
      exact not_or.mpr ⟨hnil, Nat.not_lt.mpr hwidth⟩
    rw [if_neg (not_not_intro hstart), parseFractionDigits_eq hrun, if_neg hlength,
      computeFraction_eq hfraction hdigits hwidth, htext, List.length_cons,
      Nat.add_comm fraction.length 1, ← Nat.add_assoc]
    rfl

end Fraction

section Offsets

variable {bytes : Bytes} {cursor : Nat}

theorem inI64_small {value : Int} (h : -1000000000000 ≤ value ∧ value ≤ 1000000000000) :
    InI64 value := by
  rw [inI64_iff]
  omega

theorem saturatedI64_eq {value : Int} (h : -1000000000000 ≤ value ∧ value ≤ 1000000000000) :
    saturatedI64 value = value := by
  have hfits := inI64_small h
  rw [saturatedI64, min_eq_right hfits.2, max_eq_right hfits.1]

theorem offsetMagnitude_ok {magnitude : Int} :
    offsetMagnitude bytes cursor = .ok magnitude ↔
      ∃ hour minute : Nat, hour ≤ 23 ∧ minute ≤ 59 ∧
        PartAt bytes (cursor + 1) (written 2 hour ++ 0x3A :: written 2 minute) ∧
          (hour : Int) * 60 + minute = magnitude := by
  simp only [offsetMagnitude, bind_eq_ok, parseDigitField_ok (show 2 ≤ 9 by decide),
    expectByte_ok, checkRange_ok, Except.ok.injEq, partAt_append, partAt_cons, length_written]
  have hsame {hour minute : Nat} (hhour : hour ≤ 23) (hminute : minute ≤ 59) :
      saturatedI64 (saturatedI64 (hour * 60) + minute) = hour * 60 + minute := by
    have hhours : saturatedI64 ((hour : Int) * 60) = hour * 60 := saturatedI64_eq (by omega)
    rw [hhours, saturatedI64_eq (by omega)]
  constructor
  · rintro ⟨hour, ⟨-, hpart⟩, done, hcolon, minute, ⟨-, hpart'⟩, -, ⟨-, hhour⟩, -, ⟨-, hminute⟩,
      hvalue⟩
    rw [hsame hhour hminute] at hvalue
    exact ⟨hour, minute, hhour, hminute, ⟨hpart, hcolon, hpart'⟩, hvalue⟩
  · rintro ⟨hour, minute, hhour, hminute, ⟨hpart, hcolon, hpart'⟩, hvalue⟩
    rw [← hsame hhour hminute] at hvalue
    exact ⟨hour, ⟨by omega, hpart⟩, (), hcolon, minute, ⟨by omega, hpart'⟩, (),
      ⟨Nat.zero_le hour, hhour⟩, (), ⟨Nat.zero_le minute, hminute⟩, hvalue⟩

theorem parseNumericOffset_ok {negative : Bool} {minutes : Int} :
    parseNumericOffset bytes cursor negative = .ok minutes ↔
      bytes.length = cursor + 6 ∧ ∃ (hour : Fin 24) (minute : Fin 60),
        PartAt bytes (cursor + 1) (written 2 hour ++ 0x3A :: written 2 minute) ∧
          (Offset.numeric negative hour minute).minutes = minutes := by
  have hsigned (magnitude : Int) (hsmall : 0 ≤ magnitude ∧ magnitude ≤ 2000) :
      ((if negative = true then .ok (saturatedI64 (-magnitude)) else .ok magnitude :
        Except ParseError Int) = .ok minutes) ↔
        (if negative = true then -magnitude else magnitude) = minutes := by
    by_cases hnegative : negative = true
    · rw [if_pos hnegative, if_pos hnegative, saturatedI64_eq (by omega), Except.ok.injEq]
    · rw [if_neg hnegative, if_neg hnegative, Except.ok.injEq]
  simp only [parseNumericOffset, Offset.minutes]
  by_cases hshort : bytes.length < cursor + 6
  · rw [if_pos hshort]
    constructor
    · intro h
      cases h
    · rintro ⟨hlength, -⟩
      omega
  rw [if_neg hshort]
  by_cases hlong : cursor + 6 < bytes.length
  · rw [if_pos hlong]
    constructor
    · intro h
      rw [List.getElem?_eq_getElem hlong] at h
      cases h
    · rintro ⟨hlength, -⟩
      omega
  rw [if_neg hlong]
  simp only [bind_eq_ok, offsetMagnitude_ok]
  constructor
  · rintro ⟨-, ⟨hour, minute, hhour, hminute, hpart, rfl⟩, h⟩
    exact ⟨by omega, ⟨hour, Nat.lt_succ_of_le hhour⟩, ⟨minute, Nat.lt_succ_of_le hminute⟩, hpart,
      (hsigned _ (by omega)).mp h⟩
  · rintro ⟨-, hour, minute, hpart, h⟩
    exact ⟨_, ⟨hour, minute, Nat.le_of_lt_succ hour.2, Nat.le_of_lt_succ minute.2, hpart, rfl⟩,
      (hsigned _ (by omega)).mpr h⟩

theorem parseZulu_ok {minutes : Int} :
    ((if cursor + 1 = bytes.length then .ok 0
      else
        match bytes[cursor + 1]? with
        | some byte => .error (.malformed (cursor + 1) byte)
        | none => .error (.missingOffset (cursor + 1)) : Except ParseError Int) = .ok minutes) ↔
      cursor + 1 = bytes.length ∧ 0 = minutes := by
  by_cases hlast : cursor + 1 = bytes.length
  · rw [if_pos hlast, Except.ok.injEq]
    exact ⟨fun h => ⟨hlast, h⟩, fun h => h.2⟩
  · rw [if_neg hlast]
    constructor
    · intro h
      cases hnext : bytes[cursor + 1]? with
      | none =>
        rw [hnext] at h
        cases h
      | some byte =>
        rw [hnext] at h
        cases h
    · exact fun h => absurd h.1 hlast

theorem parseOffset_ok {minutes : Int} :
    parseOffset bytes cursor = .ok minutes ↔
      ∃ offset : Offset, PartAt bytes cursor offset.text ∧
        bytes.length = cursor + offset.text.length ∧ offset.minutes = minutes := by
  unfold parseOffset
  constructor
  · intro h
    cases hbyte : bytes[cursor]? with
    | none =>
      rw [hbyte] at h
      cases h
    | some byte =>
      rw [hbyte] at h
      dsimp only at h
      by_cases hzulu : byte = 0x5A ∨ byte = 0x7A
      · rw [if_pos hzulu] at h
        obtain ⟨hlast, hvalue⟩ := parseZulu_ok.mp h
        exact ⟨.utc byte hzulu, partAt_singleton.mpr hbyte, hlast.symm, hvalue⟩
      · rw [if_neg hzulu] at h
        by_cases hplus : byte = 0x2B
        · rw [if_pos hplus] at h
          obtain ⟨hlength, hour, minute, hpart, hvalue⟩ := parseNumericOffset_ok.mp h
          refine ⟨.numeric false hour minute, partAt_cons.mpr ⟨?_, hpart⟩, hlength, hvalue⟩
          rw [hbyte, hplus]
          rfl
        · rw [if_neg hplus] at h
          by_cases hminus : byte = 0x2D
          · rw [if_pos hminus] at h
            obtain ⟨hlength, hour, minute, hpart, hvalue⟩ := parseNumericOffset_ok.mp h
            refine ⟨.numeric true hour minute, partAt_cons.mpr ⟨?_, hpart⟩, hlength, hvalue⟩
            rw [hbyte, hminus]
            rfl
          · rw [if_neg hminus] at h
            cases h
  · rintro ⟨offset, hpart, hlength, hvalue⟩
    cases offset with
    | utc designator isZulu =>
      rw [partAt_singleton.mp hpart]
      dsimp only
      rw [if_pos isZulu]
      exact parseZulu_ok.mpr ⟨hlength.symm, hvalue⟩
    | numeric negative hour minute =>
      obtain ⟨hsign, hrest⟩ := partAt_cons.mp hpart
      rw [hsign]
      cases negative with
      | false => exact parseNumericOffset_ok.mpr ⟨hlength, hour, minute, hrest, hvalue⟩
      | true => exact parseNumericOffset_ok.mpr ⟨hlength, hour, minute, hrest, hvalue⟩

theorem Offset.text_head (offset : Offset) :
    ∃ byte rest, offset.text = byte :: rest ∧ byte ≠ 0x2E ∧ isDigit byte = false := by
  cases offset with
  | utc designator isZulu =>
    refine ⟨designator, [], rfl, ?_⟩
    rcases isZulu with rfl | rfl
    · decide
    · decide
  | numeric negative hour minute =>
    refine ⟨_, _, rfl, ?_⟩
    cases negative with
    | false => decide
    | true => decide

end Offsets

end LogicalWorks.Time
