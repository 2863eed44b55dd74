import LogicalWorks.Lib.Machine
import Mathlib.Tactic.IntervalCases

/-! Conversions between civil dates and days since 1970-01-01. The operations of the source all
saturate; they are written over the arithmetic, so that the same text tells whether one of them
ever does. -/
namespace LogicalWorks.Time

open Arithmetic

variable {m : Type → Type} [Monad m]

def daysPerEra : Int := 146097

def epochEraOffset : Int := 719468

def epochWholeEras : Int := 4

def epochEraRemainder : Int := 135080

def isLeap (year : Int) : Bool :=
  (year.tmod 4 == 0 && year.tmod 100 != 0) || year.tmod 400 == 0

def tryDaysInMonth (year : Int) (month : Nat) : Option Nat :=
  match month with
  | 1 | 3 | 5 | 7 | 8 | 10 | 12 => some 31
  | 4 | 6 | 9 | 11 => some 30
  | 2 => if isLeap year then some 29 else some 28
  | _ => none

def civilCount (arith : Arithmetic m) (year : Int) (month day : Nat) : m Int := do
  let within := arith.within i128Min i128Max
  let adjustedYear ← if month ≤ 2 then within (year - 1) else pure year
  let era := adjustedYear / 400
  let yearOfEra ← within (adjustedYear - (← within (era * 400)))
  let monthPrime ← if month > 2 then within (month - 3) else within (month + 9)
  let dayOfYear ← within ((← within ((← within (monthPrime * 153)) + 2)) / 5 + day)
  let dayOfYear ← within (dayOfYear - 1)
  let dayOfEra ← within ((← within (yearOfEra * 365)) + yearOfEra / 4)
  let dayOfEra ← within (dayOfEra - yearOfEra / 100)
  let dayOfEra ← within (dayOfEra + dayOfYear)
  within ((← within ((← within (era * daysPerEra)) + dayOfEra)) - epochEraOffset)

def daysFromCivil (year : Int) (month day : Nat) : Int :=
  let days : Int := Id.run (civilCount saturating year month day)
  if i64Min ≤ days ∧ days ≤ i64Max then days
  else if days < 0 then i64Min
  else i64Max

def shiftedToEra (arith : Arithmetic m) (daysSinceEpoch : Int) : m (Int × Int) := do
  let within := arith.within i64Min i64Max
  let baseEra := daysSinceEpoch / daysPerEra
  let withinEra := daysSinceEpoch % daysPerEra
  let rebased ← within (withinEra + epochEraRemainder)
  if rebased < daysPerEra then
    let era ← within (baseEra + epochWholeEras)
    pure (era, rebased)
  else
    let era ← within ((← within (baseEra + epochWholeEras)) + 1)
    let dayOfEra ← within (rebased - daysPerEra)
    pure (era, dayOfEra)

def eraToYear (arith : Arithmetic m) (dayOfEra era : Int) : m (Int × Int) := do
  let within := arith.within i64Min i64Max
  let corrected ← within (dayOfEra - dayOfEra / 1460)
  let corrected ← within (corrected + dayOfEra / 36524)
  let corrected ← within (corrected - dayOfEra / 146096)
  let yearOfEra := corrected / 365
  let computedYear ← within (yearOfEra + (← within (era * 400)))
  let before ← within ((← within (yearOfEra * 365)) + yearOfEra / 4)
  let before ← within (before - yearOfEra / 100)
  let dayOfYear ← within (dayOfEra - before)
  pure (computedYear, dayOfYear)

def dayOfYearToMonthDay (arith : Arithmetic m) (dayOfYear computedYear : Int) :
    m (Int × Nat × Nat) := do
  let within := arith.within 0 u32Max
  let monthPrime := (← within ((← within (dayOfYear * 5)) + 2)) / 153
  let before := (← within ((← within (monthPrime * 153)) + 2)) / 5
  let computedDay ← within ((← within (dayOfYear - before)) + 1)
  let computedMonth ←
    if monthPrime < 10 then within (monthPrime + 3) else within (monthPrime - 9)
  let finalYear ←
    if computedMonth ≤ 2 then arith.within i64Min i64Max (computedYear + 1)
    else pure computedYear
  pure (finalYear, computedMonth.toNat, computedDay.toNat)

def eraDayOffset (arith : Arithmetic m) (dayOfEra : Int) : m Int :=
  arith.narrow (u32Max + 1) dayOfEra

def civilFromDaysWith (arith : Arithmetic m) (days : Int) : m (Int × Nat × Nat) := do
  let (era, dayOfEra) ← shiftedToEra arith days
  let (computedYear, dayOfYear) ← eraToYear arith dayOfEra era
  dayOfYearToMonthDay arith (← eraDayOffset arith dayOfYear) computedYear

def civilFromDays (days : Int) : Int × Nat × Nat := Id.run (civilFromDaysWith saturating days)

example : civilFromDays 11016 = (2000, 2, 29) := by decide

end LogicalWorks.Time

/-! The Gregorian calendar by its leap rule: the dates in their order, each the day after the one
before it, counted from 1970-01-01. -/
namespace LogicalWorks.Time

def daysInMonth (year : Int) (month : Nat) : Nat := (tryDaysInMonth year month).getD 0

def ValidDate (date : Int × Nat × Nat) : Prop :=
  1 ≤ date.2.1 ∧ date.2.1 ≤ 12 ∧ 1 ≤ date.2.2 ∧ date.2.2 ≤ daysInMonth date.1 date.2.1

def nextDate (date : Int × Nat × Nat) : Int × Nat × Nat :=
  if date.2.2 < daysInMonth date.1 date.2.1 then (date.1, date.2.1, date.2.2 + 1)
  else if date.2.1 < 12 then (date.1, date.2.1 + 1, 1)
  else (date.1 + 1, 1, 1)

def Before (date date' : Int × Nat × Nat) : Prop :=
  date.1 < date'.1 ∨
    date.1 = date'.1 ∧ (date.2.1 < date'.2.1 ∨ date.2.1 = date'.2.1 ∧ date.2.2 < date'.2.2)

def daysBeforeYear (year : Int) : Int :=
  365 * (year - 1) + (year - 1) / 4 - (year - 1) / 100 + (year - 1) / 400

def daysBeforeMonth (year : Int) : Nat → Nat
  | 0 => 0
  | 1 => 0
  | month + 2 => daysBeforeMonth year (month + 1) + daysInMonth year (month + 1)

def dayCount (date : Int × Nat × Nat) : Int :=
  daysBeforeYear date.1 - daysBeforeYear 1970 + daysBeforeMonth date.1 date.2.1 + date.2.2 - 1

example : dayCount (1970, 1, 1) = 0 := by decide

theorem isLeap_iff (year : Int) :
    isLeap year = true ↔ (year % 4 = 0 ∧ year % 100 ≠ 0) ∨ year % 400 = 0 := by
  have hdvd (k : Int) : year.tmod k = 0 ↔ year % k = 0 :=
    Int.dvd_iff_tmod_eq_zero.symm.trans Int.dvd_iff_emod_eq_zero
  unfold isLeap
  simp only [Bool.or_eq_true, Bool.and_eq_true, beq_iff_eq, bne_iff_ne, ne_eq, hdvd]

def leapDays (year : Int) : Nat := if isLeap year then 1 else 0

theorem daysBeforeYear_succ (year : Int) :
    daysBeforeYear (year + 1) = daysBeforeYear year + 365 + leapDays year := by
  have hleap := isLeap_iff year
  unfold daysBeforeYear leapDays
  by_cases h : isLeap year = true
  · rw [if_pos h]
    have := hleap.mp h
    omega
  · rw [if_neg h]
    have := mt hleap.mpr h
    omega

theorem daysBeforeYear_mono {year year' : Int} (h : year ≤ year') :
    daysBeforeYear year ≤ daysBeforeYear year' := by
  unfold daysBeforeYear
  omega

theorem daysInMonth_february (year : Int) : daysInMonth year 2 = 28 + leapDays year := by
  unfold daysInMonth leapDays
  by_cases h : isLeap year = true
  · simp [tryDaysInMonth, h]
  · simp [tryDaysInMonth, h]

theorem daysBeforeMonth_values (year : Int) :
    daysBeforeMonth year 1 = 0 ∧ daysBeforeMonth year 2 = 31 ∧
    daysBeforeMonth year 3 = 59 + leapDays year ∧ daysBeforeMonth year 4 = 90 + leapDays year ∧
    daysBeforeMonth year 5 = 120 + leapDays year ∧ daysBeforeMonth year 6 = 151 + leapDays year ∧
    daysBeforeMonth year 7 = 181 + leapDays year ∧ daysBeforeMonth year 8 = 212 + leapDays year ∧
    daysBeforeMonth year 9 = 243 + leapDays year ∧
    daysBeforeMonth year 10 = 273 + leapDays year ∧
    daysBeforeMonth year 11 = 304 + leapDays year ∧
    daysBeforeMonth year 12 = 334 + leapDays year ∧
    daysBeforeMonth year 13 = 365 + leapDays year := by
  have hjanuary : daysBeforeMonth year 2 = 31 := rfl
  have hfebruary : daysBeforeMonth year 3 = 59 + leapDays year := by
    show daysBeforeMonth year 2 + daysInMonth year 2 = _
    rw [daysInMonth_february, hjanuary]
    omega
  have hrest (month days : Nat) (h : daysInMonth year (month + 1) = days) :
      daysBeforeMonth year (month + 2) = daysBeforeMonth year (month + 1) + days := by
    rw [← h]
    rfl
  have hmarch : daysBeforeMonth year 4 = daysBeforeMonth year 3 + 31 := hrest 2 31 rfl
  have hapril : daysBeforeMonth year 5 = daysBeforeMonth year 4 + 30 := hrest 3 30 rfl
  have hmay : daysBeforeMonth year 6 = daysBeforeMonth year 5 + 31 := hrest 4 31 rfl
  have hjune : daysBeforeMonth year 7 = daysBeforeMonth year 6 + 30 := hrest 5 30 rfl
  have hjuly : daysBeforeMonth year 8 = daysBeforeMonth year 7 + 31 := hrest 6 31 rfl
  have haugust : daysBeforeMonth year 9 = daysBeforeMonth year 8 + 31 := hrest 7 31 rfl
  have hseptember : daysBeforeMonth year 10 = daysBeforeMonth year 9 + 30 := hrest 8 30 rfl
  have hoctober : daysBeforeMonth year 11 = daysBeforeMonth year 10 + 31 := hrest 9 31 rfl
  have hnovember : daysBeforeMonth year 12 = daysBeforeMonth year 11 + 30 := hrest 10 30 rfl
  have hdecember : daysBeforeMonth year 13 = daysBeforeMonth year 12 + 31 := hrest 11 31 rfl
  refine ⟨rfl, hjanuary, ?_⟩
  omega

theorem daysBeforeMonth_succ (year : Int) {month : Nat} (h : 1 ≤ month) :
    daysBeforeMonth year (month + 1) = daysBeforeMonth year month + daysInMonth year month := by
  cases month with
  | zero => cases h
  | succ month => rfl

theorem daysBeforeMonth_mono (year : Int) {month month' : Nat} (hmonth : 1 ≤ month)
    (h : month ≤ month') : daysBeforeMonth year month ≤ daysBeforeMonth year month' := by
  induction h with
  | refl => exact Nat.le_refl _
  | step hle ih =>
    rw [daysBeforeMonth_succ year (Nat.le_trans hmonth hle)]
    omega

theorem dayOfYear_le {date : Int × Nat × Nat} (h : ValidDate date) :
    daysBeforeMonth date.1 date.2.1 + date.2.2 ≤ 365 + leapDays date.1 := by
  obtain ⟨hfrom, hto, -, hday⟩ := h
  have hmonth := daysBeforeMonth_succ date.1 hfrom
  have hyear := daysBeforeMonth_mono date.1 (Nat.le_add_left 1 date.2.1)
    (show date.2.1 + 1 ≤ 13 by omega)
  have hlast : daysBeforeMonth date.1 13 = 365 + leapDays date.1 := by
    exact (daysBeforeMonth_values date.1).2.2.2.2.2.2.2.2.2.2.2.2
  omega

theorem dayCount_lt {date date' : Int × Nat × Nat} (hvalid : ValidDate date)
    (hvalid' : ValidDate date') (h : Before date date') : dayCount date < dayCount date' := by
  have hday := hvalid'.2.2.1
  unfold dayCount
  rcases h with hyear | ⟨hyear, hmonth | ⟨hmonth, hday'⟩⟩
  · have hend := dayOfYear_le hvalid
    have hnext := daysBeforeYear_succ date.1
    have hmono := daysBeforeYear_mono (show date.1 + 1 ≤ date'.1 by omega)
    omega
  · have hnext := daysBeforeMonth_succ date.1 hvalid.1
    have hmono := daysBeforeMonth_mono date.1 (Nat.le_add_left 1 date.2.1) hmonth
    have hend := hvalid.2.2.2
    rw [← hyear]
    omega
  · rw [← hyear, ← hmonth]
    omega

theorem before_trichotomy (date date' : Int × Nat × Nat) :
    Before date date' ∨ date = date' ∨ Before date' date := by
  obtain ⟨year, month, day⟩ := date
  obtain ⟨year', month', day'⟩ := date'
  simp only [Before, Prod.mk.injEq]
  omega

theorem dayCount_lt_iff {date date' : Int × Nat × Nat} (hvalid : ValidDate date)
    (hvalid' : ValidDate date') : dayCount date < dayCount date' ↔ Before date date' := by
  refine ⟨fun h => ?_, dayCount_lt hvalid hvalid'⟩
  rcases before_trichotomy date date' with hbefore | rfl | hafter
  · exact hbefore
  · exact absurd h (Int.lt_irrefl _)
  · exact absurd h (Int.not_lt.mpr (Int.le_of_lt (dayCount_lt hvalid' hvalid hafter)))

theorem dayCount_injective {date date' : Int × Nat × Nat} (hvalid : ValidDate date)
    (hvalid' : ValidDate date') (h : dayCount date = dayCount date') : date = date' := by
  rcases before_trichotomy date date' with hbefore | heq | hafter
  · exact absurd h (Int.ne_of_lt (dayCount_lt hvalid hvalid' hbefore))
  · exact heq
  · exact absurd h.symm (Int.ne_of_lt (dayCount_lt hvalid' hvalid hafter))

theorem daysInMonth_pos (year : Int) {month : Nat} (hfrom : 1 ≤ month) (hto : month ≤ 12) :
    1 ≤ daysInMonth year month := by
  have hfebruary := daysInMonth_february year
  by_cases h : month = 2
  · rw [h, hfebruary]
    omega
  · unfold daysInMonth
    interval_cases month <;> first | exact absurd rfl h | (simp [tryDaysInMonth])

theorem nextDate_valid {date : Int × Nat × Nat} (h : ValidDate date) :
    ValidDate (nextDate date) := by
  obtain ⟨year, month, day⟩ := date
  obtain ⟨hfrom, hto, hday, hend⟩ := h
  unfold nextDate
  split
  next hlt => exact ⟨hfrom, hto, Nat.le_add_left 1 day, hlt⟩
  · split
    next hlt =>
      exact ⟨Nat.le_add_left 1 month, hlt, Nat.le_refl 1,
        daysInMonth_pos year (Nat.le_add_left 1 month) hlt⟩
    · exact ⟨Nat.le_refl 1, Nat.le_add_left 1 11, Nat.le_refl 1,
        daysInMonth_pos (year + 1) (Nat.le_refl 1) (Nat.le_add_left 1 11)⟩

theorem dayCount_next {date : Int × Nat × Nat} (h : ValidDate date) :
    dayCount (nextDate date) = dayCount date + 1 := by
  obtain ⟨year, month, day⟩ := date
  obtain ⟨hfrom, hto, -, hend⟩ := h
  simp only at hfrom hto hend
  have hmonth := daysBeforeMonth_succ year hfrom
  unfold nextDate dayCount
  simp only
  split
  · simp only
    omega
  next hnot =>
    split
    · simp only
      omega
    next hlast =>
      have hyear := daysBeforeYear_succ year
      have hfirst := (daysBeforeMonth_values (year + 1)).1
      have htwelve := (daysBeforeMonth_values year).2.2.2.2.2.2.2.2.2.2.2
      have hmonth' : month = 12 := by omega
      rw [hmonth'] at hnot hend ⊢
      have hdecember : daysInMonth year 12 = 31 := rfl
      simp only [hfirst]
      omega

end LogicalWorks.Time
