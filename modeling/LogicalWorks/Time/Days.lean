import LogicalWorks.Time.Gregorian
import Mathlib.Tactic.Linarith

/-! The conversions count the days of the Gregorian calendar, and lose nothing on the way. -/
namespace LogicalWorks.Time

open Arithmetic

theorem era_days (year : Int) :
    year / 400 * 146097 + ((year - year / 400 * 400) * 365 + (year - year / 400 * 400) / 4 -
      (year - year / 400 * 400) / 100) = 365 * year + year / 4 - year / 100 + year / 400 := by
  have hquarters : (year - year / 400 * 400) / 4 = year / 4 - 100 * (year / 400) := by omega
  have hcenturies : (year - year / 400 * 400) / 100 = year / 100 - 4 * (year / 400) := by omega
  rw [hquarters, hcenturies]
  omega

theorem dayCount_march (marchYear : Int) {monthPrime : Nat} (hmonth : monthPrime < 12)
    (day : Nat) :
    dayCount (if monthPrime < 10 then (marchYear, monthPrime + 3, day)
      else (marchYear + 1, monthPrime - 9, day)) =
    daysBeforeYear (marchYear + 1) + (((monthPrime : Int) * 153 + 2) / 5) + day - 1 - 719468 := by
  have hyear := daysBeforeYear_succ marchYear
  have hvalues := daysBeforeMonth_values marchYear
  have hnext := daysBeforeMonth_values (marchYear + 1)
  have hepoch : daysBeforeYear 1970 = 719162 := by decide
  interval_cases monthPrime <;> simp only [dayCount, hepoch, Nat.reduceLT, if_true, if_false,
    Nat.reduceAdd, Nat.reduceSub] <;> omega

section March

variable {m : Type → Type} [Monad m] {arith : Arithmetic m}

theorem within_i128 (harith : arith.Faithful) {value : Int}
    (h : -1000000000000000000000000 ≤ value ∧ value ≤ 1000000000000000000000000) :
    arith.within i128Min i128Max value = pure value := by
  apply harith.within
  unfold i128Min i128Max
  omega

theorem within_i64 (harith : arith.Faithful) {value : Int}
    (h : -1000000000000000000 ≤ value ∧ value ≤ 1000000000000000000) :
    arith.within i64Min i64Max value = pure value := by
  apply harith.within
  unfold i64Min i64Max
  omega

theorem within_u32 (harith : arith.Faithful) {value : Int} (h : 0 ≤ value ∧ value ≤ 1000000) :
    arith.within 0 u32Max value = pure value := by
  apply harith.within
  unfold u32Max
  omega

variable [LawfulMonad m]

theorem civilCount_eq (harith : arith.Faithful) {year : Int} {month day : Nat}
    (hyear : InI64 year) (hfrom : 1 ≤ month) (hto : month ≤ 12) (hday : day ≤ 31) :
    civilCount arith year month day = pure (dayCount (year, month, day)) := by
  have hbounds : -9223372036854775808 ≤ year ∧ year ≤ 9223372036854775807 := hyear
  unfold civilCount daysPerEra epochEraOffset
  by_cases hmonth : month ≤ 2
  · have hmarch := @dayCount_march (year - 1) (month + 9) (by omega) day
    rw [if_neg (by omega), Nat.add_sub_cancel, Int.sub_add_cancel] at hmarch
    simp (disch := omega) only [if_pos hmonth, if_neg (Nat.not_lt.mpr hmonth), within_i128 harith,
      pure_bind]
    rw [hmarch]
    have hera := era_days (year - 1)
    unfold daysBeforeYear
    congr 1
    push_cast
    linarith
  · have hmarch := @dayCount_march year (month - 3) (by omega) day
    rw [if_pos (by omega), Nat.sub_add_cancel (by omega)] at hmarch
    simp (disch := omega) only [if_neg hmonth, if_pos (Nat.not_le.mp hmonth), within_i128 harith,
      pure_bind]
    rw [hmarch]
    have hera := era_days year
    unfold daysBeforeYear
    rw [Int.add_sub_cancel, Nat.cast_sub (Nat.not_le.mp hmonth)]
    congr 1
    push_cast
    linarith

end March

theorem shiftedToEra_eq {days : Int} (hdays : InI64 days) :
    ∃ era dayOfEra : Int, era * 146097 + dayOfEra = days + 719468 ∧ 0 ≤ dayOfEra ∧
      dayOfEra < 146097 ∧
      ∀ {m : Type → Type} [Monad m] [LawfulMonad m] (arith : Arithmetic m), arith.Faithful →
        shiftedToEra arith days = pure (era, dayOfEra) := by
  have hbounds : -9223372036854775808 ≤ days ∧ days ≤ 9223372036854775807 := hdays
  by_cases hrebased : days % 146097 + 135080 < 146097
  · refine ⟨days / 146097 + 4, days % 146097 + 135080, by omega, by omega, hrebased, ?_⟩
    intro m _ _ arith harith
    unfold shiftedToEra daysPerEra epochEraRemainder epochWholeEras
    simp (disch := omega) only [within_i64 harith, pure_bind, if_pos hrebased]
  · refine ⟨days / 146097 + 4 + 1, days % 146097 + 135080 - 146097, by omega, by omega, by omega, ?_⟩
    intro m _ _ arith harith
    unfold shiftedToEra daysPerEra epochEraRemainder epochWholeEras
    simp (disch := omega) only [within_i64 harith, pure_bind, if_neg hrebased]

/-- An era is four centuries, a century 25 times four years, and the last day of four years
follows a fourth one of 365 days, save in the first three centuries. -/
theorem era_parts {dayOfEra : Int} (hfrom : 0 ≤ dayOfEra) (hto : dayOfEra < 146097) :
    ∃ century four year day : Int, dayOfEra = 36524 * century + 1461 * four + 365 * year + day ∧
      0 ≤ century ∧ century ≤ 3 ∧ 0 ≤ four ∧ four ≤ 24 ∧ 0 ≤ year ∧ year ≤ 3 ∧ 0 ≤ day ∧
      day ≤ 365 ∧ (day = 365 → year = 3 ∧ (four = 24 → century = 3)) := by
  obtain ⟨century, hcentury⟩ : ∃ century, century = min (dayOfEra / 36524) 3 := ⟨_, rfl⟩
  obtain ⟨four, hfour⟩ : ∃ four, four = (dayOfEra - 36524 * century) / 1461 := ⟨_, rfl⟩
  obtain ⟨year, hyear⟩ : ∃ year,
      year = min ((dayOfEra - 36524 * century - 1461 * four) / 365) 3 := ⟨_, rfl⟩
  have hcenturies : 0 ≤ century ∧ century ≤ 3 := by omega
  have hrest : 0 ≤ dayOfEra - 36524 * century ∧ dayOfEra - 36524 * century ≤ 36524 ∧
      (dayOfEra - 36524 * century = 36524 → century = 3) := by omega
  clear hcentury
  have hfours : 0 ≤ four ∧ four ≤ 24 := by omega
  have hrest' : 0 ≤ dayOfEra - 36524 * century - 1461 * four ∧
      dayOfEra - 36524 * century - 1461 * four ≤ 1460 ∧
      (dayOfEra - 36524 * century - 1461 * four = 1460 → four = 24 → century = 3) := by omega
  clear hfour
  have hyears : 0 ≤ year ∧ year ≤ 3 := by omega
  have hday : 0 ≤ dayOfEra - 36524 * century - 1461 * four - 365 * year ∧
      dayOfEra - 36524 * century - 1461 * four - 365 * year ≤ 365 ∧
      (dayOfEra - 36524 * century - 1461 * four - 365 * year = 365 → year = 3) := by omega
  refine ⟨century, four, year, dayOfEra - 36524 * century - 1461 * four - 365 * year, by omega,
    hcenturies.1, hcenturies.2, hfours.1, hfours.2, hyears.1, hyears.2, hday.1, hday.2.1,
    fun hlast => ⟨hday.2.2 hlast, fun hfour => ?_⟩⟩
  have hyear' := hday.2.2 hlast
  exact hrest'.2.2 (by omega) hfour

theorem year_of_parts {dayOfEra century four year day : Int}
    (hparts : dayOfEra = 36524 * century + 1461 * four + 365 * year + day)
    (hcentury : 0 ≤ century ∧ century ≤ 3) (hfour : 0 ≤ four ∧ four ≤ 24)
    (hyear : 0 ≤ year ∧ year ≤ 3) (hday : 0 ≤ day ∧ day ≤ 365)
    (hlast : day = 365 → year = 3 ∧ (four = 24 → century = 3)) :
    (dayOfEra - dayOfEra / 1460 + dayOfEra / 36524 - dayOfEra / 146096) / 365 =
      100 * century + 4 * four + year := by
  have hrest : 1461 * four + 365 * year + day ≤ 36524 ∧
      (1461 * four + 365 * year + day = 36524 → century = 3) := by omega
  by_cases hend : dayOfEra = 146096
  · have hcentury' : century = 3 := by omega
    have hfour' : four = 24 := by omega
    have hyear' : year = 3 := by omega
    rw [hend, hcentury', hfour', hyear']
    rfl
  have hcenturies : dayOfEra / 36524 = century := by omega
  have hera : dayOfEra / 146096 = 0 := by omega
  by_cases hcarry : 24 * century + four + 365 * year + day < 1460
  · have hfours : dayOfEra / 1460 = 25 * century + four := by omega
    rw [hfours, hcenturies, hera, hparts]
    omega
  · have hfours : dayOfEra / 1460 = 25 * century + four + 1 := by omega
    rw [hfours, hcenturies, hera, hparts]
    omega

theorem quarters_of_parts {century four year : Int} (hfour : 0 ≤ four ∧ four ≤ 24)
    (hyear : 0 ≤ year ∧ year ≤ 3) :
    (100 * century + 4 * four + year) / 4 = 25 * century + four ∧
      (100 * century + 4 * four + year) / 100 = century := by
  omega

theorem isLeap_of_parts {century four : Int} (era : Int) (hfour : 0 ≤ four ∧ four ≤ 24)
    (hlast : four = 24 → century = 3) :
    isLeap (100 * century + 4 * four + 3 + era * 400 + 1) = true := by
  rw [isLeap_iff]
  by_cases h : four = 24
  · right
    omega
  · left
    omega

theorem corrections_bounded {dayOfEra : Int} (hfrom : 0 ≤ dayOfEra) (hto : dayOfEra < 146097) :
    (0 ≤ dayOfEra - dayOfEra / 1460 ∧ dayOfEra - dayOfEra / 1460 ≤ 146097) ∧
    (0 ≤ dayOfEra - dayOfEra / 1460 + dayOfEra / 36524 ∧
      dayOfEra - dayOfEra / 1460 + dayOfEra / 36524 ≤ 146097) ∧
    (-1 ≤ dayOfEra - dayOfEra / 1460 + dayOfEra / 36524 - dayOfEra / 146096 ∧
      dayOfEra - dayOfEra / 1460 + dayOfEra / 36524 - dayOfEra / 146096 ≤ 146097) := by
  have hfours : 0 ≤ dayOfEra / 1460 ∧ dayOfEra / 1460 ≤ dayOfEra := by omega
  have hcenturies : 0 ≤ dayOfEra / 36524 ∧ dayOfEra / 36524 ≤ dayOfEra / 1460 := by omega
  have hera : 0 ≤ dayOfEra / 146096 ∧ dayOfEra / 146096 ≤ 1 := by omega
  omega

theorem years_bounded {yearOfEra : Int} (h : 0 ≤ yearOfEra ∧ yearOfEra ≤ 399) :
    (0 ≤ yearOfEra * 365 ∧ yearOfEra * 365 ≤ 146097) ∧
    (0 ≤ yearOfEra * 365 + yearOfEra / 4 ∧ yearOfEra * 365 + yearOfEra / 4 ≤ 146097) ∧
    (0 ≤ yearOfEra * 365 + yearOfEra / 4 - yearOfEra / 100 ∧
      yearOfEra * 365 + yearOfEra / 4 - yearOfEra / 100 ≤ 146097) := by
  omega

theorem eraToYear_eq {dayOfEra era : Int} (hfrom : 0 ≤ dayOfEra) (hto : dayOfEra < 146097)
    (hera : -1000000000000000 ≤ era ∧ era ≤ 1000000000000000) :
    ∃ yearOfEra dayOfYear : Int, 0 ≤ yearOfEra ∧ yearOfEra ≤ 399 ∧ 0 ≤ dayOfYear ∧
      dayOfYear ≤ 365 ∧ dayOfEra = 365 * yearOfEra + yearOfEra / 4 - yearOfEra / 100 + dayOfYear ∧
      (dayOfYear = 365 → isLeap (yearOfEra + era * 400 + 1) = true) ∧
      ∀ {m : Type → Type} [Monad m] [LawfulMonad m] (arith : Arithmetic m), arith.Faithful →
        eraToYear arith dayOfEra era = pure (yearOfEra + era * 400, dayOfYear) := by
  obtain ⟨century, four, year, day, hparts, hcentury, hcentury', hfour, hfour', hyear, hyear',
    hday, hday', hlast⟩ := era_parts hfrom hto
  obtain ⟨hquarters, hcenturies⟩ :=
    @quarters_of_parts century four year ⟨hfour, hfour'⟩ ⟨hyear, hyear'⟩
  have hyears := year_of_parts hparts ⟨hcentury, hcentury'⟩ ⟨hfour, hfour'⟩ ⟨hyear, hyear'⟩
    ⟨hday, hday'⟩ hlast
  have hleap : day = 365 → isLeap (100 * century + 4 * four + year + era * 400 + 1) = true := by
    intro h
    rw [(hlast h).1]
    exact isLeap_of_parts era ⟨hfour, hfour'⟩ (hlast h).2
  clear hlast
  have hcount : dayOfEra = 365 * (100 * century + 4 * four + year) +
      (100 * century + 4 * four + year) / 4 - (100 * century + 4 * four + year) / 100 + day := by
    rw [hquarters, hcenturies]
    linarith
  have hrange : 0 ≤ 100 * century + 4 * four + year ∧ 100 * century + 4 * four + year ≤ 399 :=
    ⟨by linarith, by linarith⟩
  clear hquarters hcenturies hparts
  generalize 100 * century + 4 * four + year = yearOfEra at *
  refine ⟨yearOfEra, day, hrange.1, hrange.2, hday, hday', by linarith, hleap, ?_⟩
  clear hleap
  intro m _ _ arith harith
  have hdayOfYear : dayOfEra - (yearOfEra * 365 + yearOfEra / 4 - yearOfEra / 100) = day := by
    linarith
  obtain ⟨hfours, hcenturies, heras⟩ := corrections_bounded hfrom hto
  obtain ⟨hdays, hquarters, hyears'⟩ := years_bounded hrange
  have hwithin {value : Int} (h : -1 ≤ value ∧ value ≤ 146097) :
      arith.within i64Min i64Max value = pure value :=
    within_i64 harith ⟨by linarith [h.1], by linarith [h.2]⟩
  have hera' : arith.within i64Min i64Max (era * 400) = pure (era * 400) :=
    within_i64 harith ⟨by linarith [hera.1], by linarith [hera.2]⟩
  have hyear' : arith.within i64Min i64Max (yearOfEra + era * 400) =
      pure (yearOfEra + era * 400) :=
    within_i64 harith ⟨by linarith [hera.1, hrange.1], by linarith [hera.2, hrange.2]⟩
  unfold eraToYear
  simp only [hwithin ⟨by linarith [hfours.1], hfours.2⟩,
    hwithin ⟨by linarith [hcenturies.1], hcenturies.2⟩, hwithin heras, hyears, hera', hyear',
    hwithin ⟨by linarith [hdays.1], hdays.2⟩, hwithin ⟨by linarith [hquarters.1], hquarters.2⟩,
    hwithin ⟨by linarith [hyears'.1], hyears'.2⟩, hdayOfYear,
    hwithin (show -1 ≤ day ∧ day ≤ 146097 from ⟨by linarith, by linarith⟩), pure_bind]

/-- The months of a year that starts in March: the fifth part of 153 days for five of them. -/
theorem month_of_day {dayOfYear : Int} (hfrom : 0 ≤ dayOfYear) (hto : dayOfYear ≤ 365) :
    0 ≤ (dayOfYear * 5 + 2) / 153 ∧ (dayOfYear * 5 + 2) / 153 ≤ 11 ∧
      ((dayOfYear * 5 + 2) / 153 * 153 + 2) / 5 ≤ dayOfYear ∧
      dayOfYear < (((dayOfYear * 5 + 2) / 153 + 1) * 153 + 2) / 5 := by
  omega

theorem valid_march {marchYear : Int} {monthPrime day : Nat} (hmonth : monthPrime < 12)
    (hfrom : 1 ≤ day)
    (hto : (day : Int) ≤ (((monthPrime : Int) + 1) * 153 + 2) / 5 - (monthPrime * 153 + 2) / 5)
    (hfebruary : monthPrime = 11 → day ≤ 28 + leapDays (marchYear + 1)) :
    ValidDate (if monthPrime < 10 then (marchYear, monthPrime + 3, day)
      else (marchYear + 1, monthPrime - 9, day)) := by
  have hleap := daysInMonth_february (marchYear + 1)
  interval_cases monthPrime
  case «11» =>
    refine ⟨Nat.le_add_left 1 1, Nat.le_add_left 2 10, hfrom, ?_⟩
    show day ≤ daysInMonth (marchYear + 1) 2
    rw [hleap]
    exact hfebruary rfl
  all_goals
    simp only [ValidDate, daysInMonth, tryDaysInMonth, Nat.reduceLT, if_true, if_false,
      Nat.reduceAdd, Nat.reduceSub, Option.getD_some]
    omega

theorem dayOfYearToMonthDay_eq {dayOfYear marchYear : Int} (hfrom : 0 ≤ dayOfYear)
    (hto : dayOfYear ≤ 365) (hleap : dayOfYear = 365 → isLeap (marchYear + 1) = true)
    (hyear : -900000000000000000 ≤ marchYear ∧ marchYear ≤ 900000000000000000) :
    ∃ date, ValidDate date ∧
      dayCount date = daysBeforeYear (marchYear + 1) + dayOfYear - 719468 ∧
      ∀ {m : Type → Type} [Monad m] [LawfulMonad m] (arith : Arithmetic m), arith.Faithful →
        dayOfYearToMonthDay arith dayOfYear marchYear = pure date := by
  obtain ⟨hpos, hlast, hbefore, hafter⟩ := month_of_day hfrom hto
  obtain ⟨monthPrime, hprime⟩ := Int.eq_ofNat_of_zero_le hpos
  rw [hprime] at hbefore hafter hlast
  obtain ⟨day, hday⟩ := Int.eq_ofNat_of_zero_le
    (show 0 ≤ dayOfYear - ((monthPrime : Int) * 153 + 2) / 5 + 1 by linarith)
  have hmonth : monthPrime < 12 := by omega
  have hfebruary : monthPrime = 11 → day ≤ 28 + leapDays (marchYear + 1) := by
    rintro rfl
    by_cases hend : dayOfYear = 365
    · have hone : leapDays (marchYear + 1) = 1 := if_pos (hleap hend)
      omega
    · omega
  refine ⟨_, valid_march hmonth (by omega) (by omega) hfebruary, ?_, ?_⟩
  · rw [dayCount_march marchYear hmonth day]
    omega
  · intro m _ _ arith harith
    have hbefore' : 0 ≤ ((monthPrime : Int) * 153 + 2) / 5 := by omega
    have hwithin {value : Int} (h : 0 ≤ value ∧ value ≤ 1000000) :
        arith.within 0 u32Max value = pure value := within_u32 harith h
    have hfive : arith.within 0 u32Max (dayOfYear * 5) = pure (dayOfYear * 5) :=
      hwithin (by omega)
    have htwo : arith.within 0 u32Max (dayOfYear * 5 + 2) = pure (dayOfYear * 5 + 2) :=
      hwithin (by omega)
    have hmonths : arith.within 0 u32Max ((monthPrime : Int) * 153) =
        pure ((monthPrime : Int) * 153) := hwithin (by omega)
    have hmonths' : arith.within 0 u32Max ((monthPrime : Int) * 153 + 2) =
        pure ((monthPrime : Int) * 153 + 2) := hwithin (by omega)
    have hrest : arith.within 0 u32Max (dayOfYear - ((monthPrime : Int) * 153 + 2) / 5) =
        pure (dayOfYear - ((monthPrime : Int) * 153 + 2) / 5) := hwithin (by omega)
    have hday' : arith.within 0 u32Max (dayOfYear - ((monthPrime : Int) * 153 + 2) / 5 + 1) =
        pure (day : Int) := by
      rw [hday]
      exact hwithin (by omega)
    unfold dayOfYearToMonthDay
    simp only [hfive, htwo, hmonths, hmonths', hrest, hday', hprime, pure_bind, Int.toNat_natCast]
    by_cases hspring : monthPrime < 10
    · have hspring' : (monthPrime : Int) < 10 := by omega
      have hnext : arith.within 0 u32Max ((monthPrime : Int) + 3) =
          pure ((monthPrime : Int) + 3) := hwithin (by omega)
      have hlate : ¬ (monthPrime : Int) + 3 ≤ 2 := by omega
      have hnat : ((monthPrime : Int) + 3).toNat = monthPrime + 3 := rfl
      simp only [if_pos hspring, if_pos hspring', hnext, pure_bind, if_neg hlate, hnat]
    · have hspring' : ¬ (monthPrime : Int) < 10 := by omega
      have hnext : arith.within 0 u32Max ((monthPrime : Int) - 9) =
          pure ((monthPrime : Int) - 9) := hwithin (by omega)
      have hearly : (monthPrime : Int) - 9 ≤ 2 := by omega
      have hnat : ((monthPrime : Int) - 9).toNat = monthPrime - 9 := by omega
      have hyear' : arith.within i64Min i64Max (marchYear + 1) = pure (marchYear + 1) :=
        within_i64 harith ⟨by linarith [hyear.1], by linarith [hyear.2]⟩
      simp only [if_neg hspring, if_neg hspring', hnext, pure_bind, if_pos hearly, hnat, hyear']

/-- Every day count has a date of the calendar, and no step towards it loses anything. -/
theorem civilFromDaysWith_eq {days : Int} (hdays : InI64 days) :
    ∃ date, ValidDate date ∧ dayCount date = days ∧
      ∀ {m : Type → Type} [Monad m] [LawfulMonad m] (arith : Arithmetic m), arith.Faithful →
        civilFromDaysWith arith days = pure date := by
  obtain ⟨era, dayOfEra, hcount, hfrom, hto, hshifted⟩ := shiftedToEra_eq hdays
  have hbounds : -9223372036854775808 ≤ days ∧ days ≤ 9223372036854775807 := hdays
  obtain ⟨yearOfEra, dayOfYear, hyear, hyear', hday, hday', hparts, hleap, hyears⟩ :=
    @eraToYear_eq dayOfEra era hfrom hto ⟨by linarith, by linarith⟩
  obtain ⟨date, hvalid, hdate, hmonths⟩ := @dayOfYearToMonthDay_eq dayOfYear
    (yearOfEra + era * 400) hday hday' hleap ⟨by linarith, by linarith⟩
  have hmarch : daysBeforeYear (yearOfEra + era * 400 + 1) =
      era * 146097 + (365 * yearOfEra + yearOfEra / 4 - yearOfEra / 100) := by
    have heras : (yearOfEra + era * 400) / 400 = era := by omega
    have hdays := era_days (yearOfEra + era * 400)
    rw [heras, Int.add_sub_cancel] at hdays
    unfold daysBeforeYear
    rw [Int.add_sub_cancel, heras]
    linarith
  refine ⟨date, hvalid, by linarith, ?_⟩
  intro m _ _ arith harith
  have hnarrow : eraDayOffset arith dayOfYear = pure dayOfYear :=
    harith.narrow _ _ ⟨hday, by unfold u32Max; linarith⟩
  unfold civilFromDaysWith
  simp only [hshifted arith harith, hyears arith harith, hnarrow, hmonths arith harith, pure_bind]

section Results

theorem civilFromDays_spec {days : Int} (hdays : InI64 days) :
    ValidDate (civilFromDays days) ∧ dayCount (civilFromDays days) = days := by
  obtain ⟨date, hvalid, hcount, hwith⟩ := civilFromDaysWith_eq hdays
  have hdate : civilFromDays days = date := hwith saturating faithful_saturating
  rw [hdate]
  exact ⟨hvalid, hcount⟩

/-- No operation on the way to a date saturates, and the narrowing drops no bit. -/
theorem civilFromDays_exact {days : Int} (hdays : InI64 days) :
    civilFromDaysWith checked days = some (civilFromDays days) := by
  obtain ⟨date, -, -, hwith⟩ := civilFromDaysWith_eq hdays
  have hdate : civilFromDays days = date := hwith saturating faithful_saturating
  rw [hdate]
  exact hwith checked faithful_checked

theorem daysInMonth_le (year : Int) (month : Nat) : daysInMonth year month ≤ 31 := by
  unfold daysInMonth tryDaysInMonth
  split <;> first | decide | (split <;> decide)

theorem civilCount_of_valid {year : Int} {month day : Nat} (hyear : InI64 year)
    (hvalid : ValidDate (year, month, day)) {m : Type → Type} [Monad m] [LawfulMonad m]
    {arith : Arithmetic m} (harith : arith.Faithful) :
    civilCount arith year month day = pure (dayCount (year, month, day)) :=
  civilCount_eq harith hyear hvalid.1 hvalid.2.1
    (Nat.le_trans hvalid.2.2.2 (daysInMonth_le year month))

theorem daysFromCivil_eq {year : Int} {month day : Nat} (hyear : InI64 year)
    (hvalid : ValidDate (year, month, day)) :
    daysFromCivil year month day =
      if InI64 (dayCount (year, month, day)) then dayCount (year, month, day)
      else if dayCount (year, month, day) < i64Min then i64Min
      else i64Max := by
  have hcount : Id.run (civilCount saturating year month day) = dayCount (year, month, day) :=
    civilCount_of_valid hyear hvalid faithful_saturating
  unfold daysFromCivil
  rw [hcount]
  by_cases hfits : InI64 (dayCount (year, month, day))
  · rw [if_pos hfits]
    exact if_pos hfits
  · rw [if_neg hfits]
    refine (if_neg hfits).trans ?_
    unfold InI64 i64Min i64Max at *
    split <;> split <;> omega

theorem civilFromDays_year {days : Int} (hdays : InI64 days) : InI64 (civilFromDays days).1 := by
  obtain ⟨hvalid, hcount⟩ := civilFromDays_spec hdays
  have hlast := dayOfYear_le hvalid
  have hleap : leapDays (civilFromDays days).1 ≤ 1 := by
    unfold leapDays
    split <;> decide
  have hepoch : daysBeforeYear 1970 = 719162 := by decide
  have hlow : daysBeforeYear (-9223372036854775808) = -3368767461170930453419 := by decide
  have hhigh : daysBeforeYear 9223372036854775808 = 3368767461170930452687 := by decide
  unfold dayCount at hcount
  unfold InI64 i64Min i64Max at hdays ⊢
  constructor
  · by_contra hless
    have hmono := daysBeforeYear_mono (show (civilFromDays days).1 ≤ -9223372036854775808 by omega)
    omega
  · by_contra hmore
    have hmono := daysBeforeYear_mono (show 9223372036854775808 ≤ (civilFromDays days).1 by omega)
    omega

theorem daysFromCivil_civilFromDays {days : Int} (hdays : InI64 days) :
    daysFromCivil (civilFromDays days).1 (civilFromDays days).2.1 (civilFromDays days).2.2 =
      days := by
  obtain ⟨hvalid, hcount⟩ := civilFromDays_spec hdays
  have hyear := civilFromDays_year hdays
  generalize civilFromDays days = date at *
  obtain ⟨year, month, day⟩ := date
  rw [daysFromCivil_eq hyear hvalid, if_pos (by rw [hcount]; exact hdays)]
  exact hcount

theorem civilFromDays_daysFromCivil {year : Int} {month day : Nat} (hyear : InI64 year)
    (hvalid : ValidDate (year, month, day)) (hfits : InI64 (dayCount (year, month, day))) :
    civilFromDays (daysFromCivil year month day) = (year, month, day) := by
  rw [daysFromCivil_eq hyear hvalid, if_pos hfits]
  obtain ⟨hvalid', hcount⟩ := civilFromDays_spec hfits
  exact dayCount_injective hvalid' hvalid hcount

theorem civilFromDays_lt_iff {days days' : Int} (hdays : InI64 days) (hdays' : InI64 days') :
    days < days' ↔ Before (civilFromDays days) (civilFromDays days') := by
  obtain ⟨hvalid, hcount⟩ := civilFromDays_spec hdays
  obtain ⟨hvalid', hcount'⟩ := civilFromDays_spec hdays'
  rw [← dayCount_lt_iff hvalid hvalid', hcount, hcount']

theorem civilFromDays_succ {days : Int} (hdays : InI64 days) (hnext : InI64 (days + 1)) :
    civilFromDays (days + 1) = nextDate (civilFromDays days) := by
  obtain ⟨hvalid, hcount⟩ := civilFromDays_spec hdays
  obtain ⟨hvalid', hcount'⟩ := civilFromDays_spec hnext
  apply dayCount_injective hvalid' (nextDate_valid hvalid)
  rw [dayCount_next hvalid, hcount, hcount']

theorem daysFromCivil_saturates {year : Int} {month day : Nat} (hyear : InI64 year)
    (hvalid : ValidDate (year, month, day)) :
    (dayCount (year, month, day) < i64Min → daysFromCivil year month day = i64Min) ∧
    (i64Max < dayCount (year, month, day) → daysFromCivil year month day = i64Max) := by
  rw [daysFromCivil_eq hyear hvalid]
  constructor
  · intro hless
    rw [if_neg (fun h => absurd hless (Int.not_lt.mpr h.1)), if_pos hless]
  · intro hmore
    have hlow : i64Min ≤ i64Max := by decide
    rw [if_neg (fun h => absurd hmore (Int.not_lt.mpr h.2)),
      if_neg (Int.not_lt.mpr (Int.le_trans hlow (Int.le_of_lt hmore)))]

end Results

/-- Days and dates are one order: each day of `i64` has a date, dates count back to their days,
follow one another as the calendar says, and nothing is lost on the way. -/
theorem calendar_isomorphism :
    (∀ days, InI64 days → ValidDate (civilFromDays days) ∧
      daysFromCivil (civilFromDays days).1 (civilFromDays days).2.1 (civilFromDays days).2.2 =
        days) ∧
    (∀ year month day, InI64 year → ValidDate (year, month, day) →
      InI64 (dayCount (year, month, day)) →
        civilFromDays (daysFromCivil year month day) = (year, month, day)) ∧
    (∀ days days', InI64 days → InI64 days' →
      (days < days' ↔ Before (civilFromDays days) (civilFromDays days'))) ∧
    (∀ days, InI64 days → InI64 (days + 1) →
      civilFromDays (days + 1) = nextDate (civilFromDays days)) ∧
    (∀ days, InI64 days → civilFromDaysWith checked days = some (civilFromDays days)) ∧
    ∀ year month day, InI64 year → ValidDate (year, month, day) →
      civilCount checked year month day = some (dayCount (year, month, day)) ∧
      (dayCount (year, month, day) < i64Min → daysFromCivil year month day = i64Min) ∧
      (i64Max < dayCount (year, month, day) → daysFromCivil year month day = i64Max) := by
  refine ⟨fun days hdays => ⟨(civilFromDays_spec hdays).1, daysFromCivil_civilFromDays hdays⟩,
    fun year month day => civilFromDays_daysFromCivil, fun days days' => civilFromDays_lt_iff,
    fun days => civilFromDays_succ, fun days => civilFromDays_exact, ?_⟩
  intro year month day hyear hvalid
  exact ⟨civilCount_of_valid hyear hvalid faithful_checked, daysFromCivil_saturates hyear hvalid⟩

/-- The leap day of 2000 and the last year of `i64`, whose days do not fit. -/
theorem calendar_isomorphism_leap_day :
    (ValidDate (civilFromDays 11016) ∧ civilFromDays (11016 + 1) = nextDate (2000, 2, 29)) ∧
    civilFromDays (daysFromCivil 2000 2 29) = (2000, 2, 29) ∧
    daysFromCivil i64Max 12 31 = i64Max := by
  have hdate : civilFromDays 11016 = (2000, 2, 29) := by decide
  obtain ⟨hdays, hdates, -, hnext, -, hbounds⟩ := calendar_isomorphism
  refine ⟨⟨(hdays 11016 (by decide)).1, ?_⟩, ?_, ?_⟩
  · rw [hnext 11016 (by decide) (by decide), hdate]
  · exact hdates 2000 2 29 (by decide) ⟨by decide, by decide, by decide, by decide⟩ (by decide)
  · exact (hbounds i64Max 12 31 (by decide) ⟨by decide, by decide, by decide, by decide⟩).2.2
      (by decide)

end LogicalWorks.Time
