import Mathlib

/-! # Civil dates and day numbers

The proleptic Gregorian calendar, counted in days from 1970-01-01. Years begin in March, so that the
leap day is the last of a year; an era is four hundred of them. The day number of a civil date and
the civil date of a day number are inverse, and both grow together.
-/

namespace Pintail.Calendar

def leap (year : ℤ) : Bool := year % 4 = 0 && (year % 100 ≠ 0 || year % 400 = 0)

def monthDays (year month : ℤ) : ℤ :=
  if month = 2 then if leap year then 29 else 28
  else if month = 4 ∨ month = 6 ∨ month = 9 ∨ month = 11 then 30
  else 31

theorem monthDays_le (year month : ℤ) : monthDays year month ≤ 31 := by
  unfold monthDays
  split_ifs <;> decide

def daysFromCivil (year month day : ℤ) : ℤ :=
  let adjustedYear := if month ≤ 2 then year - 1 else year
  let era := adjustedYear / 400
  let yearOfEra := adjustedYear - era * 400
  let monthShifted := if month > 2 then month - 3 else month + 9
  let dayOfYear := (153 * monthShifted + 2) / 5 + day - 1
  let dayOfEra := yearOfEra * 365 + yearOfEra / 4 - yearOfEra / 100 + dayOfYear
  era * 146097 + dayOfEra - 719468

def yearOfEra (dayOfEra : ℤ) : ℤ :=
  (dayOfEra - dayOfEra / 1460 + dayOfEra / 36524 - dayOfEra / 146096) / 365

def dayOfYear (dayOfEra : ℤ) : ℤ :=
  dayOfEra - (365 * yearOfEra dayOfEra + yearOfEra dayOfEra / 4 - yearOfEra dayOfEra / 100)

structure Civil where
  year : ℤ
  month : ℤ
  day : ℤ

def civilFromDays (days : ℤ) : Civil :=
  let shifted := days + 719468
  let era := shifted / 146097
  let dayOfEra := shifted % 146097
  let monthShifted := (5 * dayOfYear dayOfEra + 2) / 153
  let day := dayOfYear dayOfEra - (153 * monthShifted + 2) / 5 + 1
  let month := if monthShifted < 10 then monthShifted + 3 else monthShifted - 9
  let year := yearOfEra dayOfEra + era * 400 + if month ≤ 2 then 1 else 0
  ⟨year, month, day⟩

variable {n : ℤ}

theorem exists_cycle (h0 : 0 ≤ n) (h1 : n < 146096) :
    ∃ c q t : ℤ, 0 ≤ c ∧ c ≤ 3 ∧ 0 ≤ q ∧ q ≤ 24 ∧ 0 ≤ t ∧ t ≤ 1460 ∧ (q = 24 → t ≤ 1459) ∧
      n = 36524 * c + 1461 * q + t :=
  ⟨n / 36524, n % 36524 / 1461, n % 36524 % 1461, by omega, by omega, by omega, by omega, by omega,
    by omega, by omega, by omega⟩

theorem yearOfEra_cycle {c q t : ℤ} (hc0 : 0 ≤ c) (hc : c ≤ 3) (hq0 : 0 ≤ q) (hq : q ≤ 24)
    (ht0 : 0 ≤ t) (ht : t ≤ 1460) (hqt : q = 24 → t ≤ 1459) :
    yearOfEra (36524 * c + 1461 * q + t) = 100 * c + 4 * q + min (t / 365) 3 := by
  have hlast : (36524 * c + 1461 * q + t) / 146096 = 0 := by omega
  have hcentury : (36524 * c + 1461 * q + t) / 36524 = c := by omega
  have hcycle : (36524 * c + 1461 * q + t) / 1460 = 25 * c + q + (24 * c + q + t) / 1460 := by omega
  unfold yearOfEra
  omega

theorem dayOfYear_spec (h0 : 0 ≤ n) (h1 : n < 146097) :
    0 ≤ yearOfEra n ∧ yearOfEra n ≤ 399 ∧ 0 ≤ dayOfYear n ∧ dayOfYear n ≤ 365 ∧
      (dayOfYear n = 365 → leap (yearOfEra n + 1) = true) := by
  rcases lt_or_eq_of_le (Int.le_of_lt_add_one h1 : n ≤ 146096) with hlt | rfl
  · obtain ⟨c, q, t, hc0, hc, hq0, hq, ht0, ht, hqt, rfl⟩ := exists_cycle h0 hlt
    obtain ⟨z, hz⟩ : ∃ z, z = min (t / 365) 3 := ⟨_, rfl⟩
    have hyear := yearOfEra_cycle hc0 hc hq0 hq ht0 ht hqt
    rw [← hz] at hyear
    have hfour : (100 * c + 4 * q + z) / 4 = 25 * c + q := by omega
    have hhundred : (100 * c + 4 * q + z) / 100 = c := by omega
    unfold dayOfYear
    rw [hyear, hfour]
    refine ⟨by omega, by omega, by omega, by omega, ?_⟩
    simp only [leap, Bool.and_eq_true, Bool.or_eq_true, decide_eq_true_eq]
    omega
  · decide

theorem month_spec (h0 : 0 ≤ n) (h1 : n ≤ 365) :
    ∃ m, (5 * n + 2) / 153 = m ∧ 0 ≤ m ∧ m ≤ 11 ∧ 0 ≤ n - (153 * m + 2) / 5 ∧
      n - (153 * m + 2) / 5 ≤ 30 ∧
      (m = 1 ∨ m = 3 ∨ m = 6 ∨ m = 8 → n - (153 * m + 2) / 5 ≤ 29) ∧
      (m = 11 → n - (153 * m + 2) / 5 = n - 337) := by
  refine ⟨_, rfl, ?_⟩
  omega

/-- The days of the years before a year, each beginning in March. -/
def daysBefore (year : ℤ) : ℤ := 365 * year + year / 4 - year / 100 + year / 400

variable {year : ℤ}

theorem daysBefore_add_era (h0 : 0 ≤ year) (h1 : year ≤ 399) (era : ℤ) :
    daysBefore (year + era * 400) = era * 146097 + (365 * year + year / 4 - year / 100) := by
  have h4 : (year + era * 400) / 4 = year / 4 + era * 100 := by omega
  have h100 : (year + era * 400) / 100 = year / 100 + era * 4 := by omega
  have h400 : (year + era * 400) / 400 = era := by omega
  rw [daysBefore, h400]
  omega

theorem daysFromCivil_eq (year month day : ℤ) :
    daysFromCivil year month day =
      (if month ≤ 2 then daysBefore (year - 1) + (153 * (month + 9) + 2) / 5
      else daysBefore year + (153 * (month - 3) + 2) / 5) + day - 719469 := by
  unfold daysFromCivil daysBefore
  split_ifs with h h' h'
  · omega
  · dsimp only
    omega
  · dsimp only
    omega
  · omega

theorem leap_add_era (year era : ℤ) : leap (year + era * 400 + 1) = leap (year + 1) := by
  have h4 : (year + era * 400 + 1) % 4 = (year + 1) % 4 := by omega
  have h100 : (year + era * 400 + 1) % 100 = (year + 1) % 100 := by omega
  have h400 : (year + era * 400 + 1) % 400 = (year + 1) % 400 := by omega
  rw [leap, leap, h4, h100, h400]

/-- The civil date of a day is a date of the calendar, and the day is the day of that date. -/
theorem civilFromDays_spec (days : ℤ) :
    1 ≤ (civilFromDays days).month ∧ (civilFromDays days).month ≤ 12 ∧
      1 ≤ (civilFromDays days).day ∧
      (civilFromDays days).day ≤ monthDays (civilFromDays days).year (civilFromDays days).month ∧
      daysFromCivil (civilFromDays days).year (civilFromDays days).month (civilFromDays days).day =
        days := by
  obtain ⟨hy0, hy, hd0, hd, hleap⟩ :=
    dayOfYear_spec (Int.emod_nonneg (days + 719468) (by decide))
      (Int.emod_lt_of_pos (days + 719468) (by decide : (0 : ℤ) < 146097))
  obtain ⟨m, hm, hm0, hm1, hday0, hday, hshort, hfeb⟩ := month_spec hd0 hd
  have hdays : days = (days + 719468) / 146097 * 146097 + (days + 719468) % 146097 - 719468 := by
    omega
  have hera : (days + 719468) % 146097 = 365 * yearOfEra ((days + 719468) % 146097) +
      yearOfEra ((days + 719468) % 146097) / 4 - yearOfEra ((days + 719468) % 146097) / 100 +
      dayOfYear ((days + 719468) % 146097) := by
    unfold dayOfYear
    omega
  simp only [civilFromDays, hm]
  generalize dayOfYear ((days + 719468) % 146097) = d at *
  rcases lt_or_ge m 10 with hlt | hge
  · have hmonth : ¬ (m + 3 ≤ 2) := by omega
    simp only [if_pos hlt, if_neg hmonth, daysFromCivil_eq, monthDays, add_zero,
      daysBefore_add_era hy0 hy]
    refine ⟨by omega, by omega, by omega, ?_, by omega⟩
    rw [if_neg (by omega)]
    split_ifs with hs
    · have := hshort (by omega)
      omega
    · omega
  · have hmonth : m - 9 ≤ 2 := by omega
    simp only [if_neg (not_lt.mpr hge), if_pos hmonth, daysFromCivil_eq, monthDays, leap_add_era,
      add_sub_cancel_right, daysBefore_add_era hy0 hy]
    refine ⟨by omega, by omega, by omega, ?_, by omega⟩
    split_ifs with htwo hl
    · have := hfeb (by omega)
      omega
    · have hne : d ≠ 365 := fun he => hl (hleap he)
      omega
    · omega
    · omega

/-- The day before the first of a month, the months being counted from January of year zero. -/
def monthStart (n : ℤ) : ℤ := daysFromCivil (n / 12) (n % 12 + 1) 0

theorem daysFromCivil_monthStart {month : ℤ} (h0 : 1 ≤ month) (h1 : month ≤ 12) (day : ℤ) :
    daysFromCivil year month day = monthStart (12 * year + (month - 1)) + day := by
  have hyear : (12 * year + (month - 1)) / 12 = year := by omega
  have hmonth : (12 * year + (month - 1)) % 12 + 1 = month := by omega
  rw [monthStart, hyear, daysFromCivil_eq, daysFromCivil_eq]
  omega

theorem daysBefore_eq (year : ℤ) :
    daysBefore year = daysBefore (year - 1) + if leap year then 366 else 365 := by
  unfold daysBefore
  split_ifs with h <;> simp only [leap, Bool.and_eq_true, Bool.or_eq_true, decide_eq_true_eq] at h <;>
    omega

theorem monthStart_succ (n : ℤ) :
    monthStart (n + 1) = monthStart n + monthDays (n / 12) (n % 12 + 1) := by
  obtain ⟨year, month, rfl, h0, h1⟩ : ∃ y m : ℤ, n = 12 * y + m ∧ 0 ≤ m ∧ m < 12 :=
    ⟨n / 12, n % 12, by omega, by omega, by omega⟩
  have hyear : (12 * year + month) / 12 = year := by omega
  have hmonth : (12 * year + month) % 12 = month := by omega
  rw [monthStart, monthStart, hyear]
  rcases Int.lt_or_eq_of_le (show month ≤ 11 by omega) with hlt | rfl
  · have hyear' : (12 * year + month + 1) / 12 = year := by omega
    have hmonth' : (12 * year + month + 1) % 12 = month + 1 := by omega
    rw [hyear', daysFromCivil_eq, daysFromCivil_eq, daysBefore_eq year]
    cases hleap : leap year <;> interval_cases month <;> simp [monthDays, hleap] <;> omega
  · have hyear' : (12 * year + 11 + 1) / 12 = year + 1 := by omega
    have hmonth' : (12 * year + 11 + 1) % 12 = 0 := by omega
    rw [hyear', daysFromCivil_eq, daysFromCivil_eq]
    simp [monthDays]
    omega

theorem monthStart_mono : Monotone monthStart := by
  apply monotone_int_of_le_succ
  intro n
  have : 0 ≤ monthDays (n / 12) (n % 12 + 1) := by
    unfold monthDays
    split_ifs <;> decide
  rw [monthStart_succ]
  omega

theorem daysFromCivil_lt {month day year' month' day' : ℤ} (h0 : 1 ≤ month) (h1 : month ≤ 12)
    (hd : day ≤ monthDays year month) (h0' : 1 ≤ month') (h1' : month' ≤ 12) (hd' : 1 ≤ day')
    (h : year < year' ∨ year = year' ∧ (month < month' ∨ month = month' ∧ day < day')) :
    daysFromCivil year month day < daysFromCivil year' month' day' := by
  rw [daysFromCivil_monthStart h0 h1, daysFromCivil_monthStart h0' h1']
  rcases lt_or_ge (12 * year + (month - 1)) (12 * year' + (month' - 1)) with hlt | hge
  · have hnext := monthStart_mono (Int.add_one_le_of_lt hlt)
    rw [monthStart_succ, show (12 * year + (month - 1)) / 12 = year by omega,
      show (12 * year + (month - 1)) % 12 + 1 = month by omega] at hnext
    omega
  · obtain ⟨rfl, rfl, hlt⟩ : year = year' ∧ month = month' ∧ day < day' := by omega
    omega

theorem civilFromDays_daysFromCivil {month day : ℤ} (h0 : 1 ≤ month) (h1 : month ≤ 12)
    (hd0 : 1 ≤ day) (hd : day ≤ monthDays year month) :
    civilFromDays (daysFromCivil year month day) = ⟨year, month, day⟩ := by
  obtain ⟨hm0, hm, hday0, hday, hdays⟩ := civilFromDays_spec (daysFromCivil year month day)
  have hle := mt (daysFromCivil_lt h0 h1 hd hm0 hm hday0) hdays.not_gt
  have hge := mt (daysFromCivil_lt hm0 hm hday h0 h1 hd0) hdays.not_lt
  generalize civilFromDays (daysFromCivil year month day) = date at *
  obtain ⟨y, m, d⟩ := date
  dsimp only at hle hge
  obtain ⟨rfl, rfl, rfl⟩ : y = year ∧ m = month ∧ d = day := by omega
  rfl

end Pintail.Calendar
