import LogicalWorks.Time.Profile

/-! The parser accepts exactly the profile, and what is written from an instant is read back as
it. -/
namespace LogicalWorks.Time

open Decimal

section Parsing

theorem dayCount_bounds {year : Int} {month day : Nat} (hfrom : 0 ≤ year) (hto : year ≤ 9999)
    (hvalid : ValidDate (year, month, day)) :
    -1000000 ≤ dayCount (year, month, day) ∧ dayCount (year, month, day) ≤ 4000000 := by
  have hfirst := daysBeforeYear_mono hfrom
  have hlast := daysBeforeYear_mono hto
  have hvalues : daysBeforeYear 0 = -366 ∧ daysBeforeYear 9999 = 3651694 ∧
      daysBeforeYear 1970 = 719162 := by decide
  have hend := dayOfYear_le hvalid
  have hleap : leapDays year ≤ 1 := by
    unfold leapDays
    split <;> decide
  simp only [dayCount] at *
  omega

theorem Offset.minutes_bounds (offset : Offset) :
    -1439 ≤ offset.minutes ∧ offset.minutes ≤ 1439 := by
  cases offset with
  | utc designator isZulu =>
    show -1439 ≤ (0 : Int) ∧ (0 : Int) ≤ 1439
    decide
  | numeric negative hour minute =>
    obtain ⟨hour, hhour⟩ := hour
    obtain ⟨minute, hminute⟩ := minute
    cases negative with
    | false =>
      show -1439 ≤ (hour : Int) * 60 + minute ∧ (hour : Int) * 60 + minute ≤ 1439
      omega
    | true =>
      show -1439 ≤ -((hour : Int) * 60 + minute) ∧ -((hour : Int) * 60 + minute) ≤ 1439
      omega

theorem civilSeconds_eq (stamp : Stamp) :
    civilSeconds (stamp.year, stamp.month, stamp.day) (stamp.hour, stamp.minute, stamp.second)
      stamp.offset.minutes = stamp.seconds := by
  have hyear := stamp.year_le
  have hhour := stamp.hour_le
  have hminute := stamp.minute_le
  have hsecond := stamp.second_le
  have hbounds := dayCount_bounds (Int.natCast_nonneg _) (by omega) stamp.valid
  have hoffset := stamp.offset.minutes_bounds
  have hdays : daysFromCivil stamp.year stamp.month stamp.day =
      dayCount (stamp.year, stamp.month, stamp.day) := by
    rw [daysFromCivil_eq (inI64_small (by omega)) stamp.valid, if_pos (inI64_small (by omega))]
  simp only [civilSeconds, hdays, Stamp.seconds]
  generalize dayCount (stamp.year, stamp.month, stamp.day) = days at *
  generalize stamp.offset.minutes = minutes at *
  simp (disch := omega) only [saturatedI64_eq]

theorem Stamp.seconds_inI64 (stamp : Stamp) : InI64 stamp.seconds := by
  have hyear := stamp.year_le
  have hhour := stamp.hour_le
  have hminute := stamp.minute_le
  have hsecond := stamp.second_le
  have hbounds := dayCount_bounds (Int.natCast_nonneg _) (by omega) stamp.valid
  have hoffset := stamp.offset.minutes_bounds
  apply inI64_small
  unfold Stamp.seconds
  omega

variable (platform : Platform)

theorem checkedSystemTime_eq (stamp : Stamp) :
    checkedSystemTime platform
      (civilSeconds (stamp.year, stamp.month, stamp.day) (stamp.hour, stamp.minute, stamp.second)
        stamp.offset.minutes) (fractionNanos stamp.fraction) = .ok stamp.instant := by
  rw [civilSeconds_eq, checkedSystemTime,
    fromUnixParts_eq platform stamp.seconds_inI64 (fractionNanos_lt stamp.digits stamp.width)]
  rfl

theorem Stamp.text_eq (stamp : Stamp) :
    stamp.text = dateText stamp.year stamp.month stamp.day ++
      (timeText stamp.separator stamp.hour stamp.minute stamp.second ++
        (fractionText stamp.fraction ++ stamp.offset.text)) := by
  unfold Stamp.text dateText timeText
  simp only [List.append_assoc, List.cons_append]

theorem length_dateText (year month day : Nat) : (dateText year month day).length = 10 := by
  simp [dateText]

theorem length_timeText (separator : UInt8) (hour minute second : Nat) :
    (timeText separator hour minute second).length = 9 := by
  simp [timeText]

theorem parse_of_stamp (stamp : Stamp) :
    parseRfc3339 platform stamp.text = .ok stamp.instant := by
  obtain ⟨byte, rest, hoffset, hdot, hdigit⟩ := stamp.offset.text_head
  have htext := stamp.text_eq
  generalize stamp.text = text at *
  have hparts := (eq_iff_partAt.mp htext).1
  rw [partAt_append, partAt_append, partAt_append, length_dateText, length_timeText] at hparts
  obtain ⟨hdate, htime, hfraction, hends⟩ := hparts
  have hlength := congrArg List.length htext
  simp only [List.length_append, length_dateText, length_timeText] at hlength
  have hlong : checkMinLen text = .ok () := if_neg (by omega)
  have hread : parseDate text = .ok (↑stamp.year, stamp.month, stamp.day) :=
    parseDate_ok.mpr ⟨_, _, _, stamp.year_le, stamp.valid, hdate, rfl⟩
  have hread' : parseTime text = .ok (stamp.hour, stamp.minute, stamp.second) :=
    parseTime_ok.mpr ⟨_, _, _, _, stamp.separates, stamp.hour_le, stamp.minute_le,
      stamp.second_le, htime, rfl⟩
  have hdrop : text.drop 19 = fractionText stamp.fraction ++ byte :: rest := by
    have hend := hends
    rw [PartAt, hoffset] at hend
    rw [hfraction, hend, ← hoffset, List.drop_eq_nil_of_le (by omega), List.append_nil]
  have hnanos := parse_of_fraction stamp.digits stamp.width hdrop hdot hdigit
  have hminutes : parseOffset text (19 + (fractionText stamp.fraction).length) =
      .ok stamp.offset.minutes :=
    parseOffset_ok.mpr ⟨stamp.offset, hends, by omega, rfl⟩
  unfold parseRfc3339
  simp only [hlong, hread, hread', hnanos, hminutes, ok_bind]
  exact checkedSystemTime_eq platform stamp

theorem parseRfc3339_ok {text : Bytes} {instant : Int} :
    parseRfc3339 platform text = .ok instant ↔
      ∃ stamp : Stamp, stamp.text = text ∧ stamp.instant = instant := by
  constructor
  · intro h
    simp only [parseRfc3339, bind_eq_ok] at h
    obtain ⟨done, -, date, hdate, time, htime, ⟨nanos, cursor⟩, hfraction, minutes, hoffset,
      hinstant⟩ := h
    obtain ⟨year, month, day, hyear, hvalid, hdatePart, rfl⟩ := parseDate_ok.mp hdate
    obtain ⟨separator, hour, minute, second, hseparates, hhour, hminute, hsecond, htimePart,
      rfl⟩ := parseTime_ok.mp htime
    obtain ⟨fraction, hdigits, hwidth, hfractionPart, rfl, rfl⟩ := fraction_of_parse hfraction
    obtain ⟨offset, hoffsetPart, hlength, rfl⟩ := parseOffset_ok.mp hoffset
    let stamp : Stamp := ⟨year, month, day, separator, hour, minute, second, fraction, offset,
      hyear, hvalid, hseparates, hhour, hminute, hsecond, hdigits, hwidth⟩
    have htext : text = stamp.text := by
      rw [stamp.text_eq, eq_iff_partAt]
      simp only [partAt_append, length_dateText, length_timeText, List.length_append]
      refine ⟨⟨hdatePart, htimePart, hfractionPart, hoffsetPart⟩, ?_⟩
      show text.length = 10 + (9 + ((fractionText fraction).length + offset.text.length))
      omega
    refine ⟨stamp, htext.symm, ?_⟩
    rw [checkedSystemTime_eq platform stamp] at hinstant
    exact Except.ok.inj hinstant
  · rintro ⟨stamp, rfl, rfl⟩
    exact parse_of_stamp platform stamp

end Parsing

section Writing

theorem digitByte_eq (value : Nat) : digitByte value = digit (value % 10) := by
  have hlow : lowByte ((value : Int) % 10) = value % 10 := by
    unfold lowByte
    omega
  rw [digitByte, hlow, Nat.min_eq_right (by omega)]
  rfl

theorem writeTwoDigits_eq (value : Nat) : writeTwoDigits value = written 2 value := by
  have htens : (value : Int) / 10 = (value / 10 : Nat) := rfl
  have hones : (value : Int) % 10 = (value % 10 : Nat) := rfl
  rw [writeTwoDigits, htens, hones, digitByte_eq, digitByte_eq, Nat.mod_mod]
  rfl

theorem writeFourDigits_eq (value : Nat) : writeFourDigits value = written 4 value := by
  have hhundreds : (value : Int) / 100 = (value / 100 : Nat) := rfl
  have hrest : (value : Int) % 100 = (value % 100 : Nat) := rfl
  rw [writeFourDigits, hhundreds, hrest, writeTwoDigits_eq, writeTwoDigits_eq]
  have hquotient : value % 100 / 10 % 10 = value / 10 % 10 := by omega
  have hlast : value % 100 % 10 = value % 10 := by omega
  have hthird : value / 100 = value / 10 / 10 := by omega
  simp only [written, hquotient, hlast, hthird]
  rfl

theorem fillDigits_eq (count value : Nat) (after : Bytes) :
    fillDigits count value after = written count value ++ after := by
  induction count generalizing value after with
  | zero => rfl
  | succ count ih =>
    have hquotient : (value : Int) / 10 = (value / 10 : Nat) := rfl
    have hrest : (value : Int) % 10 = (value % 10 : Nat) := rfl
    rw [fillDigits, hquotient, hrest, ih, digitByte_eq, Nat.mod_mod, written, List.append_assoc]
    rfl

/-- Trailing zeros are dropped, and what is left spells the same fraction. -/
theorem trimmedLength_spec (buf : Bytes) {length : Nat} (h : length ≤ buf.length) :
    trimmedLength buf length ≤ length ∧
      number (buf.take (trimmedLength buf length)) * 10 ^ (length - trimmedLength buf length) =
        number (buf.take length) := by
  induction length with
  | zero => exact ⟨Nat.le_refl 0, rfl⟩
  | succ length ih =>
    rw [trimmedLength]
    by_cases hzero : buf[length]? = some 0x30
    · obtain ⟨hle, hsame⟩ := ih (by omega)
      rw [if_pos hzero]
      refine ⟨by omega, ?_⟩
      have htake : buf.take (length + 1) = buf.take length ++ [0x30] := by
        rw [List.take_add_one, hzero]
        rfl
      rw [htake, number_append_singleton, ← hsame, Nat.succ_sub hle, Nat.pow_succ, Nat.mul_assoc]
      rfl
    · rw [if_neg hzero, Nat.sub_self, Nat.pow_zero, Nat.mul_one]
      exact ⟨Nat.le_refl _, rfl⟩

theorem writeFraction_spec {nanos : Nat} (h : nanos < nanosPerSecond) :
    (∀ byte ∈ writeFraction nanos, isDigit byte = true) ∧ (writeFraction nanos).length ≤ 9 ∧
      fractionNanos (writeFraction nanos) = nanos := by
  have hbuf : fillDigits 9 nanos [] = written 9 nanos := by
    rw [fillDigits_eq, List.append_nil]
  have hwritten : writeFraction nanos =
      (written 9 nanos).take (trimmedLength (written 9 nanos) 9) := by
    rw [← hbuf]
    rfl
  obtain ⟨hle, hsame⟩ := trimmedLength_spec (written 9 nanos)
    (Nat.le_of_eq (length_written 9 nanos).symm)
  have hlength : (writeFraction nanos).length = trimmedLength (written 9 nanos) 9 := by
    rw [hwritten, List.length_take, length_written, Nat.min_eq_left hle]
  refine ⟨fun byte hbyte => ?_, by omega, ?_⟩
  · rw [hwritten] at hbyte
    exact isDigit_written 9 nanos byte (List.mem_of_mem_take hbyte)
  · have hall : (written 9 nanos).take 9 = written 9 nanos :=
      List.take_of_length_le (Nat.le_of_eq (length_written 9 nanos))
    rw [hall, number_written h] at hsame
    rw [fractionNanos, hlength, hwritten]
    exact hsame

theorem writeOptionalFraction_eq {nanos : Nat} (h : nanos < nanosPerSecond) :
    ∃ fraction : Bytes, (∀ byte ∈ fraction, isDigit byte = true) ∧ fraction.length ≤ 9 ∧
      fractionNanos fraction = nanos ∧
        writeOptionalFraction nanos = fractionText fraction ++ [0x5A] := by
  by_cases hzero : nanos = 0
  · subst hzero
    exact ⟨[], fun byte hbyte => (List.not_mem_nil hbyte).elim, Nat.zero_le 9, rfl, rfl⟩
  · obtain ⟨hdigits, hwidth, hnanos⟩ := writeFraction_spec h
    refine ⟨writeFraction nanos, hdigits, hwidth, hnanos, ?_⟩
    have hne : writeFraction nanos ≠ [] := by
      intro hnil
      rw [hnil] at hnanos
      exact hzero hnanos.symm
    have hpos : (0 : Int) < nanos := by omega
    rw [writeOptionalFraction, if_pos hpos, fractionText, if_neg hne]
    rfl

end Writing

section Instants

def nanosPerDay : Int := 86400000000000

def FallsOn (instant : Int) (date : Int × Nat × Nat) : Prop :=
  ValidDate date ∧ dayCount date = instant / nanosPerDay

theorem seconds_of_day {instant : Int} :
    instant / 1000000000 / 86400 = instant / nanosPerDay := by
  unfold nanosPerDay
  omega

theorem civil_fallsOn {instant : Int} (h : InI64 (instant / 1000000000)) :
    FallsOn instant (civilFromDays (instant / 1000000000 / secondsPerDay)) := by
  have hfits : InI64 (instant / 1000000000 / secondsPerDay) := by
    rw [inI64_iff] at *
    unfold secondsPerDay
    omega
  obtain ⟨hvalid, hcount⟩ := civilFromDays_spec hfits
  exact ⟨hvalid, hcount.trans seconds_of_day⟩

theorem FallsOn.unique {instant : Int} {date date' : Int × Nat × Nat} (h : FallsOn instant date)
    (h' : FallsOn instant date') : date = date' :=
  dayCount_injective h.1 h'.1 (h.2.trans h'.2.symm)

theorem FallsOn.inI64 {instant : Int} {date : Int × Nat × Nat} (h : FallsOn instant date)
    (hyear : 0 ≤ date.1 ∧ date.1 ≤ 9999) : InI64 (instant / 1000000000) := by
  obtain ⟨year, month, day⟩ := date
  have hbounds := @dayCount_bounds year month day hyear.1 hyear.2 h.1
  have hday := h.2
  unfold nanosPerDay at hday
  apply inI64_small
  omega

theorem toRfc3339_stamp {instant : Int} {text : Bytes} (h : toRfc3339 instant = .ok text) :
    ∃ stamp : Stamp, stamp.text = text ∧ stamp.instant = instant := by
  by_cases hfits : InI64 (instant / 1000000000)
  · obtain ⟨hvalid, hcount⟩ := civil_fallsOn hfits
    unfold toRfc3339 at h
    rw [unixParts_eq hfits] at h
    dsimp only at h
    generalize hdate : civilFromDays (instant / 1000000000 / secondsPerDay) = date at *
    obtain ⟨year, month, day⟩ := date
    dsimp only at h
    by_cases hyear : 0 ≤ year ∧ year ≤ 9999
    · rw [if_pos hyear] at h
      obtain ⟨year, rfl⟩ := Int.eq_ofNat_of_zero_le hyear.1
      have hnanos : (instant % 1000000000).toNat < nanosPerSecond := by
        unfold nanosPerSecond
        omega
      obtain ⟨fraction, hdigits, hwidth, hfraction, hwritten⟩ := writeOptionalFraction_eq hnanos
      obtain ⟨rest, hrest⟩ : ∃ rest : Nat,
          instant / 1000000000 % secondsPerDay = rest ∧ rest < 86400 := by
        unfold secondsPerDay
        exact ⟨(instant / 1000000000 % 86400).toNat, by omega, by omega⟩
      let stamp : Stamp := ⟨year, month, day, 0x54, rest / 3600, rest % 3600 / 60, rest % 60,
        fraction, .utc 0x5A (.inl rfl), by omega, hvalid, .inl rfl, by omega, by omega, by omega,
        hdigits, hwidth⟩
      have hhour : (rest : Int) / 3600 = (rest / 3600 : Nat) := rfl
      have hminute : (rest : Int) % 3600 / 60 = (rest % 3600 / 60 : Nat) := rfl
      have hsecond : (rest : Int) % 60 = (rest % 60 : Nat) := rfl
      refine ⟨stamp, ?_, ?_⟩
      · rw [hrest.1, hhour, hminute, hsecond, hwritten] at h
        have htext := Except.ok.inj h
        simp only [writeCivil, writeTimeParts, writeFourDigits_eq, writeTwoDigits_eq] at htext
        rw [← htext]
        simp [Stamp.text, stamp, Offset.text]
      · have hday : dayCount (year, month, day) * 86400 + rest = instant / 1000000000 := by
          have hrest' := hrest.1
          rw [hcount, ← seconds_of_day]
          unfold secondsPerDay at hrest'
          omega
        show (dayCount (↑year, month, day) * 86400 + (rest / 3600 : Nat) * 3600 +
          (rest % 3600 / 60 : Nat) * 60 + (rest % 60 : Nat) - 0 * 60) * 1000000000 +
            (fractionNanos fraction : Int) = instant
        rw [hfraction]
        omega
    · rw [if_neg hyear] at h
      cases h
  · unfold toRfc3339 at h
    rw [unixParts_refused hfits] at h
    cases h

theorem toRfc3339_ok_iff (instant : Int) :
    (∃ text, toRfc3339 instant = .ok text) ↔
      ∃ date, FallsOn instant date ∧ 0 ≤ date.1 ∧ date.1 ≤ 9999 := by
  constructor
  · rintro ⟨text, h⟩
    by_cases hfits : InI64 (instant / 1000000000)
    · refine ⟨_, civil_fallsOn hfits, ?_⟩
      unfold toRfc3339 at h
      rw [unixParts_eq hfits] at h
      dsimp only at h
      by_cases hyear : 0 ≤ (civilFromDays (instant / 1000000000 / secondsPerDay)).1 ∧
          (civilFromDays (instant / 1000000000 / secondsPerDay)).1 ≤ 9999
      · exact hyear
      · rw [if_neg hyear] at h
        cases h
    · unfold toRfc3339 at h
      rw [unixParts_refused hfits] at h
      cases h
  · rintro ⟨date, hdate, hyear⟩
    have hfits := hdate.inI64 hyear
    have hsame := hdate.unique (civil_fallsOn hfits)
    rw [hsame] at hyear
    unfold toRfc3339
    rw [unixParts_eq hfits]
    exact ⟨_, if_pos hyear⟩

theorem unixParts_pair {seconds : Int} {nanos : Nat} (hseconds : InI64 seconds)
    (hnanos : nanos < nanosPerSecond) :
    unixParts (seconds * nanosPerSecond + nanos) = .ok (seconds, nanos) := by
  unfold nanosPerSecond at *
  have hwhole : (seconds * (1000000000 : Nat) + nanos) / 1000000000 = seconds := by omega
  have hrest : ((seconds * (1000000000 : Nat) + nanos) % 1000000000).toNat = nanos := by omega
  rw [unixParts_eq (by rwa [hwhole]), hwhole, hrest]

theorem pair_of_unixParts {instant seconds : Int} {nanos : Nat}
    (h : unixParts instant = .ok (seconds, nanos)) :
    InI64 seconds ∧ nanos < nanosPerSecond ∧ seconds * nanosPerSecond + nanos = instant := by
  by_cases hfits : InI64 (instant / 1000000000)
  · rw [unixParts_eq hfits] at h
    cases h
    unfold nanosPerSecond
    exact ⟨hfits, by omega, by omega⟩
  · rw [unixParts_refused hfits] at h
    cases h

/-- Parts and instants convert back and forth, an instant is written exactly when its year in UTC
has four digits and is read back from what is written, and the texts that are read are those of
the profile. -/
theorem rfc3339_round_trip (platform : Platform) :
    (∀ (seconds : Int) (nanos : Nat), InI64 seconds → nanos < nanosPerSecond →
      fromUnixParts platform seconds nanos = .ok (seconds * nanosPerSecond + nanos) ∧
        unixParts (seconds * nanosPerSecond + nanos) = .ok (seconds, nanos)) ∧
    (∀ (instant seconds : Int) (nanos : Nat), unixParts instant = .ok (seconds, nanos) →
      InI64 seconds ∧ nanos < nanosPerSecond ∧
        fromUnixParts platform seconds nanos = .ok instant) ∧
    (∀ instant, (∃ text, toRfc3339 instant = .ok text) ↔
      ∃ date, FallsOn instant date ∧ 0 ≤ date.1 ∧ date.1 ≤ 9999) ∧
    (∀ instant text, toRfc3339 instant = .ok text →
      parseRfc3339 platform text = .ok instant) ∧
    (∀ text instant, parseRfc3339 platform text = .ok instant ↔
      ∃ stamp : Stamp, stamp.text = text ∧ stamp.instant = instant) := by
  refine ⟨?_, ?_, toRfc3339_ok_iff, ?_, fun text instant => parseRfc3339_ok platform⟩
  · intro seconds nanos hseconds hnanos
    exact ⟨fromUnixParts_eq platform hseconds hnanos, unixParts_pair hseconds hnanos⟩
  · intro instant seconds nanos h
    obtain ⟨hseconds, hnanos, rfl⟩ := pair_of_unixParts h
    exact ⟨hseconds, hnanos, fromUnixParts_eq platform hseconds hnanos⟩
  · intro instant text h
    obtain ⟨stamp, rfl, rfl⟩ := toRfc3339_stamp h
    exact parse_of_stamp platform stamp

def unbounded : Platform where
  represents _ := true
  pairs _ _ _ _ := rfl

/-- The earliest pair of parts with a fraction. -/
theorem rfc3339_round_trip_earliest :
    fromUnixParts unbounded i64Min 1 = .ok (i64Min * nanosPerSecond + 1) ∧
      unixParts (i64Min * nanosPerSecond + 1) = .ok (i64Min, 1) :=
  (rfc3339_round_trip unbounded).1 i64Min 1 (by decide) (by decide)

end Instants

end LogicalWorks.Time
