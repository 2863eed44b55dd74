import LogicalWorks.Lib.Decimal
import LogicalWorks.Time.Days

/-! Instants as Unix parts and as text in UTC. An instant is its nanoseconds since the epoch, text
is its bytes. -/
namespace LogicalWorks.Time

def nanosPerSecond : Nat := 1000000000

def secondsPerDay : Int := 86400

inductive UnixTimeError where
  | secondsOverflow (seconds : Int) (nanoseconds : Nat)
  | systemTimeOutOfRange (seconds : Int) (nanoseconds : Nat)
  | systemTimeOutsideI64Range (beforeEpoch : Bool)
  | negationOverflow (magnitude : Nat)
  deriving DecidableEq, Repr

inductive FormatError where
  | unixTime (error : UnixTimeError)
  | yearOutsideRfc3339 (year : Int)
  deriving DecidableEq, Repr

structure Platform where
  represents : Int → Bool
  pairs (seconds : Int) (nanos : Nat) : InI64 seconds → nanos < nanosPerSecond →
    represents (seconds * nanosPerSecond + nanos) = true

def checkedI64 (value : Int) : Option Int := if InI64 value then some value else none

def unixParts (instant : Int) : Except UnixTimeError (Int × Nat) :=
  if 0 ≤ instant then
    let duration := instant.toNat
    match checkedI64 (duration / nanosPerSecond : Nat) with
    | some seconds => .ok (seconds, duration % nanosPerSecond)
    | none => .error (.systemTimeOutsideI64Range false)
  else
    let duration := (-instant).toNat
    let nanos := duration % nanosPerSecond
    if duration / nanosPerSecond = i64Max.natAbs + 1 ∧ nanos = 0 then .ok (i64Min, 0)
    else
      match checkedI64 (duration / nanosPerSecond : Nat) with
      | none => .error (.systemTimeOutsideI64Range true)
      | some whole =>
        let seconds :=
          if nanos = 0 then checkedI64 (-whole)
          else (checkedI64 (-whole)).bind fun value => checkedI64 (value - 1)
        match seconds with
        | none => .error (.negationOverflow whole.natAbs)
        | some seconds => .ok (seconds, if nanos = 0 then 0 else nanosPerSecond - nanos)

def Platform.checked (platform : Platform) (instant : Int) : Option Int :=
  if platform.represents instant = true then some instant else none

def fromUnixParts (platform : Platform) (secs : Int) (nanos : Nat) : Except UnixTimeError Int :=
  let carry : Nat := nanos / nanosPerSecond
  let fraction := nanos % nanosPerSecond
  match checkedI64 (secs + carry) with
  | none => .error (.secondsOverflow secs nanos)
  | some normalizedSecs =>
    let instant :=
      if 0 ≤ normalizedSecs then
        platform.checked (normalizedSecs.toNat * nanosPerSecond + fraction : Nat)
      else if fraction = 0 then
        platform.checked (-(normalizedSecs.natAbs * nanosPerSecond : Nat))
      else
        platform.checked
          (-((normalizedSecs.natAbs - 1) * nanosPerSecond + (nanosPerSecond - fraction) : Nat))
    match instant with
    | none => .error (.systemTimeOutOfRange normalizedSecs fraction)
    | some instant => .ok instant

def lowByte (value : Int) : Nat := (value % 256).toNat

def digitByte (value : Int) : UInt8 := UInt8.ofNat (min 255 (0x30 + lowByte (value % 10)))

def writeTwoDigits (value : Int) : Bytes := [digitByte (value / 10), digitByte (value % 10)]

def writeFourDigits (value : Int) : Bytes :=
  writeTwoDigits (value / 100) ++ writeTwoDigits (value % 100)

/-- The buffer from its end: the last digit still to write goes before those written. -/
def fillDigits : Nat → Int → Bytes → Bytes
  | 0, _, written => written
  | index + 1, remainder, written =>
    fillDigits index (remainder / 10) (digitByte (remainder % 10) :: written)

def trimmedLength (buf : Bytes) : Nat → Nat
  | 0 => 0
  | length + 1 => if buf[length]? = some 0x30 then trimmedLength buf length else length + 1

def extractFractionDigits (nanos : Int) : Bytes × Nat :=
  let buf := fillDigits 9 nanos []
  (buf, trimmedLength buf 9)

def writeFraction (nanos : Int) : Bytes :=
  let (buf, length) := extractFractionDigits nanos
  buf.take length

def writeCivil (year : Int) (month day : Nat) : Bytes :=
  writeFourDigits year ++ [0x2D] ++ writeTwoDigits month ++ [0x2D] ++ writeTwoDigits day

def writeTimeParts (hour min sec : Int) : Bytes :=
  [0x54] ++ writeTwoDigits hour ++ [0x3A] ++ writeTwoDigits min ++ [0x3A] ++ writeTwoDigits sec

def writeOptionalFraction (nanos : Int) : Bytes :=
  (if 0 < nanos then [0x2E] ++ writeFraction nanos else []) ++ [0x5A]

def toRfc3339 (instant : Int) : Except FormatError Bytes :=
  match unixParts instant with
  | .error error => .error (.unixTime error)
  | .ok (secs, nanos) =>
    let (year, month, day) := civilFromDays (secs / secondsPerDay)
    if 0 ≤ year ∧ year ≤ 9999 then
      let rem := secs % secondsPerDay
      let hour := rem / 3600
      let min := rem % 3600 / 60
      let sec := rem % 60
      .ok (writeCivil year month day ++ writeTimeParts hour min sec ++ writeOptionalFraction nanos)
    else .error (.yearOutsideRfc3339 year)

example : toRfc3339 (-500000000) = .ok ("1969-12-31T23:59:59.5Z".toList.map fun letter =>
    UInt8.ofNat letter.toNat) := by
  decide

section Parts

theorem checkedI64_of {value : Int} (h : InI64 value) : checkedI64 value = some value := if_pos h

theorem checkedI64_of_not {value : Int} (h : ¬ InI64 value) : checkedI64 value = none := if_neg h

theorem inI64_iff (value : Int) :
    InI64 value ↔ -9223372036854775808 ≤ value ∧ value ≤ 9223372036854775807 := Iff.rfl

theorem unixParts_eq {instant : Int} (h : InI64 (instant / 1000000000)) :
    unixParts instant = .ok (instant / 1000000000, (instant % 1000000000).toNat) := by
  rw [inI64_iff] at h
  unfold unixParts nanosPerSecond
  by_cases hepoch : 0 ≤ instant
  · obtain ⟨duration, rfl⟩ := Int.eq_ofNat_of_zero_le hepoch
    have hfits : InI64 ((duration / 1000000000 : Nat) : Int) := by
      rw [inI64_iff]
      omega
    simp only [if_pos hepoch, Int.toNat_natCast, checkedI64_of hfits]
    rfl
  rw [if_neg hepoch]
  obtain ⟨duration, hduration⟩ := Int.eq_ofNat_of_zero_le (show 0 ≤ -instant by omega)
  have hinstant : instant = -(duration : Int) := by omega
  subst hinstant
  simp only [Int.neg_neg, Int.toNat_natCast]
  by_cases hwhole : duration % 1000000000 = 0
  · by_cases hend : duration / 1000000000 = i64Max.natAbs + 1
    · rw [if_pos ⟨hend, hwhole⟩]
      have hsame : -(duration : Int) / 1000000000 = i64Min := by
        unfold i64Min
        unfold i64Max at hend
        omega
      have hnone : -(duration : Int) % 1000000000 = 0 := by omega
      rw [hsame, hnone]
      rfl
    · rw [if_neg fun hboth => hend hboth.1]
      unfold i64Max at hend
      have hfits : InI64 ((duration / 1000000000 : Nat) : Int) := by
        rw [inI64_iff]
        omega
      have hneg : InI64 (-((duration / 1000000000 : Nat) : Int)) := by
        rw [inI64_iff]
        omega
      have hsame : -(duration : Int) / 1000000000 = -((duration / 1000000000 : Nat) : Int) := by
        omega
      have hnone : -(duration : Int) % 1000000000 = 0 := by omega
      simp only [checkedI64_of hfits, if_pos hwhole, checkedI64_of hneg]
      rw [hsame, hnone]
      rfl
  · rw [if_neg fun hboth => hwhole hboth.2]
    have hfits : InI64 ((duration / 1000000000 : Nat) : Int) := by
      rw [inI64_iff]
      omega
    have hneg : InI64 (-((duration / 1000000000 : Nat) : Int)) := by
      rw [inI64_iff]
      omega
    have hborrow : InI64 (-((duration / 1000000000 : Nat) : Int) - 1) := by
      rw [inI64_iff]
      omega
    have hsame : -(duration : Int) / 1000000000 = -((duration / 1000000000 : Nat) : Int) - 1 := by
      omega
    have hrest : (-(duration : Int) % 1000000000).toNat = 1000000000 - duration % 1000000000 := by
      omega
    simp only [checkedI64_of hfits, if_neg hwhole, checkedI64_of hneg, Option.bind_some,
      checkedI64_of hborrow]
    rw [hsame, hrest]

theorem unixParts_refused {instant : Int} (h : ¬ InI64 (instant / 1000000000)) :
    unixParts instant = .error (.systemTimeOutsideI64Range (decide (instant < 0))) := by
  rw [inI64_iff] at h
  unfold unixParts nanosPerSecond
  by_cases hepoch : 0 ≤ instant
  · obtain ⟨duration, rfl⟩ := Int.eq_ofNat_of_zero_le hepoch
    have hlarge : ¬ InI64 ((duration / 1000000000 : Nat) : Int) := by
      rw [inI64_iff]
      omega
    simp only [if_pos hepoch, Int.toNat_natCast, checkedI64_of_not hlarge]
    rw [decide_eq_false (Int.not_lt.mpr hepoch)]
  · obtain ⟨duration, hduration⟩ := Int.eq_ofNat_of_zero_le (show 0 ≤ -instant by omega)
    have hinstant : instant = -(duration : Int) := by omega
    subst hinstant
    have hlarge : ¬ InI64 ((duration / 1000000000 : Nat) : Int) := by
      rw [inI64_iff]
      omega
    have hend : ¬ (duration / 1000000000 = i64Max.natAbs + 1 ∧ duration % 1000000000 = 0) := by
      unfold i64Max
      omega
    simp only [if_neg hepoch, Int.neg_neg, Int.toNat_natCast, if_neg hend,
      checkedI64_of_not hlarge]
    rw [decide_eq_true (Int.not_le.mp hepoch)]

theorem Platform.checked_pair (platform : Platform) {seconds : Int} {nanos : Nat}
    (hseconds : InI64 seconds) (hnanos : nanos < nanosPerSecond) :
    platform.checked (seconds * 1000000000 + nanos) = some (seconds * 1000000000 + nanos) :=
  if_pos (platform.pairs seconds nanos hseconds hnanos)

theorem fromUnixParts_eq (platform : Platform) {seconds : Int} {nanos : Nat}
    (hseconds : InI64 seconds) (hnanos : nanos < nanosPerSecond) :
    fromUnixParts platform seconds nanos = .ok (seconds * 1000000000 + nanos) := by
  have hnormal : checkedI64 (seconds + (0 : Nat)) = some seconds := by
    rw [Int.natCast_zero, Int.add_zero]
    exact checkedI64_of hseconds
  have hpair := platform.checked_pair hseconds hnanos
  unfold fromUnixParts
  simp only [Nat.div_eq_of_lt hnanos, Nat.mod_eq_of_lt hnanos, hnormal]
  unfold nanosPerSecond at *
  by_cases hepoch : 0 ≤ seconds
  · have hsame : ((seconds.toNat * 1000000000 + nanos : Nat) : Int) =
        seconds * 1000000000 + nanos := by omega
    rw [if_pos hepoch, hsame, hpair]
  · rw [if_neg hepoch]
    by_cases hwhole : nanos = 0
    · have hsame : -((seconds.natAbs * 1000000000 : Nat) : Int) =
          seconds * 1000000000 + nanos := by omega
      rw [if_pos hwhole, hsame, hpair]
    · have hsame : -(((seconds.natAbs - 1) * 1000000000 + (1000000000 - nanos) : Nat) : Int) =
          seconds * 1000000000 + nanos := by omega
      rw [if_neg hwhole, hsame, hpair]

end Parts

end LogicalWorks.Time
