import Mathlib.Tactic.Ring
import Mathlib.Tactic.SplitIfs
import Mathlib.Data.Int.Init
/-!
# The proleptic Gregorian calendar, in UTC

`gmtime` breaks a number of seconds since 1970-01-01T00:00:00Z into calendar
fields and `timegm` puts fields back together. Years are counted from March, so
that the leap day is the last one; a date is then a number of 400-year cycles,
centuries, 4-year groups, years and days. `timegm` does not ask whether the
fields name a real date: it carries days past the end of a month over.
-/

namespace BaseLib

/-- Broken-down time, with the month and the day counted from 1. -/
structure Tm where
  year : Int
  month : Int
  day : Int
  hour : Int
  minute : Int
  second : Int
  deriving DecidableEq, Repr

/-- Days from 1970-01-01 to the given date. -/
def daysFromCivil (y m d : Int) : Int :=
  let y' := if m ≤ 2 then y - 1 else y
  365 * y' + y' / 4 - y' / 100 + y' / 400 + (153 * ((m + 9) % 12) + 2) / 5 + d - 1 - 719468

def timegm (tm : Tm) : Int :=
  86400 * daysFromCivil tm.year tm.month tm.day + 3600 * tm.hour + 60 * tm.minute + tm.second

/-- The year and the day of the year, both counted from March, of the `n`-th day
after 0000-03-01. -/
def marchDate (n : Int) : Int × Int :=
  let century := min (n % 146097 / 36524) 3
  let ofCentury := n % 146097 - 36524 * century
  let year := min (ofCentury % 1461 / 365) 3
  (400 * (n / 146097) + 100 * century + 4 * (ofCentury / 1461) + year, ofCentury % 1461 - 365 * year)

/-- The date a number of days after 1970-01-01: year, month and day. -/
def civilFromDays (z : Int) : Int × Int × Int :=
  let (y, ofYear) := marchDate (z + 719468)
  let mp := (5 * ofYear + 2) / 153
  (if mp < 10 then y else y + 1, if mp < 10 then mp + 3 else mp - 9, ofYear - (153 * mp + 2) / 5 + 1)

def gmtime (t : Int) : Tm :=
  let date := civilFromDays (t / 86400)
  ⟨date.1, date.2.1, date.2.2, t % 86400 / 3600, t % 86400 % 3600 / 60, t % 60⟩

/-- The days in front of a year that starts in March. -/
def daysBefore (y : Int) : Int := 365 * y + y / 4 - y / 100 + y / 400

theorem daysBefore_le {a b : Int} (h : a ≤ b) : daysBefore a ≤ daysBefore b := by
  simp only [daysBefore]
  omega

theorem daysBefore_succ (y : Int) : daysBefore y + 365 ≤ daysBefore (y + 1) ∧
    (y % 4 = 3 → (y % 100 ≠ 99 ∨ y % 400 = 399) → daysBefore (y + 1) = daysBefore y + 366) := by
  simp only [daysBefore]
  omega

/-- Only the 4-year groups and the cycles add leap days. -/
theorem daysBefore_groups {q c g a : Int} (hc : 0 ≤ c ∧ c ≤ 3) (hg : 0 ≤ g ∧ g ≤ 24) (ha : 0 ≤ a ∧ a ≤ 3) :
    daysBefore (400 * q + 100 * c + 4 * g + a) = 146097 * q + 36524 * c + 1461 * g + 365 * a := by
  have h4 : (400 * q + 100 * c + 4 * g + a) / 4 = 100 * q + 25 * c + g := by omega
  have h100 : (400 * q + 100 * c + 4 * g + a) / 100 = 4 * q + c := by omega
  have h400 : (400 * q + 100 * c + 4 * g + a) / 400 = q := by omega
  rw [daysBefore, h4, h100, h400]
  ring

theorem marchDate_day (n : Int) : 0 ≤ (marchDate n).2 ∧ (marchDate n).2 ≤ 365 := by
  simp only [marchDate]
  omega

theorem marchDate_days (n : Int) : daysBefore (marchDate n).1 + (marchDate n).2 = n := by
  simp only [marchDate]
  obtain ⟨c, hc⟩ : ∃ c, c = min (n % 146097 / 36524) 3 := ⟨_, rfl⟩
  obtain ⟨o, ho⟩ : ∃ o, o = n % 146097 - 36524 * c := ⟨_, rfl⟩
  obtain ⟨a, ha⟩ : ∃ a, a = min (o % 1461 / 365) 3 := ⟨_, rfl⟩
  rw [← hc, ← ho, ← ha]
  have hc3 : 0 ≤ c ∧ c ≤ 3 := by omega
  have hg24 : 0 ≤ o / 1461 ∧ o / 1461 ≤ 24 := by omega
  have ha3 : 0 ≤ a ∧ a ≤ 3 := by omega
  rw [daysBefore_groups hc3 hg24 ha3]
  omega

theorem civilFromDays_month (z : Int) : 1 ≤ (civilFromDays z).2.1 ∧ (civilFromDays z).2.1 ≤ 12 := by
  have hd := marchDate_day (z + 719468)
  simp only [civilFromDays]
  split <;> omega

theorem civilFromDays_day (z : Int) : 1 ≤ (civilFromDays z).2.2 ∧ (civilFromDays z).2.2 ≤ 31 := by
  have hd := marchDate_day (z + 719468)
  simp only [civilFromDays]
  omega

theorem daysFromCivil_eq (y m d : Int) : daysFromCivil y m d =
    daysBefore (if m ≤ 2 then y - 1 else y) + (153 * ((m + 9) % 12) + 2) / 5 + d - 1 - 719468 := rfl

/-- The date of a day is that many days after 1970-01-01. -/
theorem daysFromCivil_civilFromDays (z : Int) :
    daysFromCivil (civilFromDays z).1 (civilFromDays z).2.1 (civilFromDays z).2.2 = z := by
  have hd := marchDate_day (z + 719468)
  have hn := marchDate_days (z + 719468)
  rcases hm : marchDate (z + 719468) with ⟨y, d⟩
  rw [hm] at hd hn
  simp only [civilFromDays, daysFromCivil_eq, hm] at hd hn ⊢
  -- March to December keep the year; January and February belong to the next one.
  by_cases h : (5 * d + 2) / 153 < 10
  · have hmonth : ((5 * d + 2) / 153 + 3 + 9) % 12 = (5 * d + 2) / 153 := by omega
    simp only [if_pos h, hmonth]
    rw [if_neg (by omega)]
    omega
  · have hmonth : ((5 * d + 2) / 153 - 9 + 9) % 12 = (5 * d + 2) / 153 := by omega
    simp only [if_neg h, hmonth]
    rw [if_pos (by omega), show y + 1 - 1 = y by ring]
    omega

/-- The days of a year are those from the first of January to the 31st of December. -/
theorem daysFromCivil_year {y m d : Int} (hm : 1 ≤ m ∧ m ≤ 12) (hd : 1 ≤ d ∧ d ≤ 31) :
    daysBefore (y - 1) + 306 ≤ daysFromCivil y m d + 719468 ∧
      daysFromCivil y m d + 719468 ≤ daysBefore y + 305 := by
  have hlen := (daysBefore_succ (y - 1)).1
  rw [Int.sub_add_cancel] at hlen
  rw [daysFromCivil_eq]
  split
  · have hmonth : 306 ≤ (153 * ((m + 9) % 12) + 2) / 5 ∧ (153 * ((m + 9) % 12) + 2) / 5 ≤ 337 := by omega
    omega
  · have hmonth : 0 ≤ (153 * ((m + 9) % 12) + 2) / 5 ∧ (153 * ((m + 9) % 12) + 2) / 5 ≤ 275 := by omega
    omega

theorem timegm_gmtime (t : Int) : timegm (gmtime t) = t := by
  simp only [timegm, gmtime, daysFromCivil_civilFromDays]
  omega

/-- Every field of `gmtime` is in the range of its calendar field. -/
theorem gmtime_fields (t : Int) :
    (1 ≤ (gmtime t).month ∧ (gmtime t).month ≤ 12) ∧ (1 ≤ (gmtime t).day ∧ (gmtime t).day ≤ 31) ∧
      (0 ≤ (gmtime t).hour ∧ (gmtime t).hour ≤ 23) ∧ (0 ≤ (gmtime t).minute ∧ (gmtime t).minute ≤ 59) ∧
      0 ≤ (gmtime t).second ∧ (gmtime t).second ≤ 59 := by
  refine ⟨civilFromDays_month _, civilFromDays_day _, ?_, ?_, ?_⟩ <;> simp only [gmtime] <;> omega

/-- The years from `a` to `b` are the seconds between their first and their last day. -/
theorem gmtime_year_bounds {a b t : Int} (h0 : 86400 * (daysBefore (a - 1) + 306 - 719468) ≤ t)
    (h1 : t < 86400 * (daysBefore b + 306 - 719468)) : a ≤ (gmtime t).year ∧ (gmtime t).year ≤ b := by
  have ht := timegm_gmtime t
  obtain ⟨hm, hd, hh, hmi, hs⟩ := gmtime_fields t
  generalize gmtime t = tm at *
  obtain ⟨hfirst, hlast⟩ := @daysFromCivil_year tm.year _ _ hm hd
  rw [timegm] at ht
  constructor
  · by_contra hlt
    have hbefore : daysBefore tm.year ≤ daysBefore (a - 1) := daysBefore_le (by omega)
    omega
  · by_contra hlt
    have hbefore : daysBefore b ≤ daysBefore (tm.year - 1) := daysBefore_le (by omega)
    omega

theorem gmtime_year {t : Int} (h0 : 0 ≤ t) (h1 : t < 253402300800) :
    1970 ≤ (gmtime t).year ∧ (gmtime t).year ≤ 9999 :=
  gmtime_year_bounds h0 h1

/-- Fields that are each in its range, up to a leap second at the end of the year 9999. -/
theorem timegm_bounds {tm : Tm} (hy : 0 ≤ tm.year ∧ tm.year ≤ 9999) (hm : 1 ≤ tm.month ∧ tm.month ≤ 12)
    (hd : 1 ≤ tm.day ∧ tm.day ≤ 31) (hh : 0 ≤ tm.hour ∧ tm.hour ≤ 23) (hmi : 0 ≤ tm.minute ∧ tm.minute ≤ 59)
    (hs : 0 ≤ tm.second ∧ tm.second ≤ 60) : -62167219200 ≤ timegm tm ∧ timegm tm ≤ 253402300800 := by
  obtain ⟨hfirst, hlast⟩ := @daysFromCivil_year tm.year _ _ hm hd
  have hleast : daysBefore (-1) ≤ daysBefore (tm.year - 1) := daysBefore_le (by omega)
  have hgreatest : daysBefore tm.year ≤ daysBefore 9999 := daysBefore_le hy.2
  rw [show daysBefore (-1) = -366 from rfl] at hleast
  rw [show daysBefore 9999 = 3652059 from rfl] at hgreatest
  rw [timegm]
  omega

/-- The same fields in an earlier year lie at least 365 days for each year
earlier, up to three leap days lost to centuries. -/
theorem timegm_year_le (tm : Tm) (y : Int) (h : y ≤ tm.year) :
    timegm { tm with year := y } ≤ timegm tm - 86400 * (365 * (tm.year - y) - 3) := by
  simp only [timegm, daysFromCivil]
  split <;> omega

/-- Fields that are each in its range name an instant near their year. -/
theorem gmtime_timegm_year {tm : Tm} (hm : 1 ≤ tm.month ∧ tm.month ≤ 12) (hd : 1 ≤ tm.day ∧ tm.day ≤ 31)
    (hh : 0 ≤ tm.hour ∧ tm.hour ≤ 23) (hmi : 0 ≤ tm.minute ∧ tm.minute ≤ 59) (hs : 0 ≤ tm.second ∧ tm.second ≤ 60) :
    tm.year - 2 ≤ (gmtime (timegm tm)).year ∧ (gmtime (timegm tm)).year ≤ tm.year + 2 := by
  have ht := timegm_gmtime (timegm tm)
  obtain ⟨hm', hd', hh', hmi', hs'⟩ := gmtime_fields (timegm tm)
  generalize gmtime (timegm tm) = tm' at *
  have hyear := @daysFromCivil_year tm.year _ _ hm hd
  have hyear' := @daysFromCivil_year tm'.year _ _ hm' hd'
  rw [timegm, timegm] at ht
  constructor
  · by_contra hlt
    have hbefore : daysBefore (tm'.year + 1) ≤ daysBefore (tm.year - 1) := daysBefore_le (by omega)
    have hlen := (daysBefore_succ tm'.year).1
    omega
  · by_contra hlt
    have hbefore : daysBefore (tm.year + 1) ≤ daysBefore (tm'.year - 1) := daysBefore_le (by omega)
    have hlen := (daysBefore_succ tm.year).1
    omega

/-! ## Dates that exist -/

/-- The number of days of a month. -/
def daysInMonth (y m : Int) : Int :=
  if m = 2 then (if y % 4 = 0 ∧ (y % 100 ≠ 0 ∨ y % 400 = 0) then 29 else 28)
  else if m = 4 ∨ m = 6 ∨ m = 9 ∨ m = 11 then 30
  else 31

theorem daysInMonth_le (y m : Int) : daysInMonth y m ≤ 31 := by
  unfold daysInMonth
  split_ifs <;> omega

/-- The day that `marchDate` gives lies in its year. -/
theorem marchDate_lt (n : Int) : (marchDate n).2 < daysBefore ((marchDate n).1 + 1) - daysBefore (marchDate n).1 := by
  obtain ⟨hle, hleap⟩ := daysBefore_succ (marchDate n).1
  have hday := (marchDate_day n).2
  by_cases h365 : (marchDate n).2 = 365
  · -- The last day of a leap year.
    have hyear : (marchDate n).1 % 4 = 3 ∧ ((marchDate n).1 % 100 ≠ 99 ∨ (marchDate n).1 % 400 = 399) := by
      simp only [marchDate] at h365 ⊢
      obtain ⟨c, hc⟩ : ∃ c, c = min (n % 146097 / 36524) 3 := ⟨_, rfl⟩
      obtain ⟨o, ho⟩ : ∃ o, o = n % 146097 - 36524 * c := ⟨_, rfl⟩
      obtain ⟨a, ha⟩ : ∃ a, a = min (o % 1461 / 365) 3 := ⟨_, rfl⟩
      rw [← hc, ← ho, ← ha] at h365 ⊢
      clear hle hleap hday
      have ha3 : a = 3 := by omega
      have hg : 0 ≤ o / 1461 ∧ o / 1461 ≤ 24 := by omega
      rcases (show o / 1461 ≤ 23 ∨ o / 1461 = 24 by omega) with h | h
      · omega
      · have hc3 : c = 3 := by omega
        omega
    have := hleap hyear.1 hyear.2
    omega
  · omega

/-- A day of a year is found again. -/
theorem marchDate_eq {y d : Int} (h0 : 0 ≤ d) (h1 : d < daysBefore (y + 1) - daysBefore y) :
    marchDate (daysBefore y + d) = (y, d) := by
  have hdays := marchDate_days (daysBefore y + d)
  have hday := marchDate_day (daysBefore y + d)
  have hlt := marchDate_lt (daysBefore y + d)
  rcases hm : marchDate (daysBefore y + d) with ⟨y', d'⟩
  rw [hm] at hdays hday hlt
  simp only at hdays hday hlt
  have hy : y' = y := by
    rcases Int.lt_trichotomy y' y with h | h | h
    · have := @daysBefore_le (y' + 1) y h
      omega
    · exact h
    · have := @daysBefore_le (y + 1) y' h
      omega
  subst hy
  rw [Prod.mk.injEq]
  exact ⟨rfl, by omega⟩

/-- Counted from March, month `mp` starts on day `(153 * mp + 2) / 5` of the year. -/
theorem month_of_day {mp d : Int} (h0 : 1 ≤ d) (h1 : d ≤ (153 * (mp + 1) + 2) / 5 - (153 * mp + 2) / 5) :
    (5 * ((153 * mp + 2) / 5 + d - 1) + 2) / 153 = mp := by
  omega

theorem daysInMonth_le_march (y : Int) {m : Int} (hm : 1 ≤ m ∧ m ≤ 12) :
    daysInMonth y m ≤ (153 * ((m + 9) % 12 + 1) + 2) / 5 - (153 * ((m + 9) % 12) + 2) / 5 := by
  unfold daysInMonth
  split
  · rename_i h
    subst h
    split <;> decide
  split
  · rename_i h
    rcases h with rfl | rfl | rfl | rfl <;> decide
  · have hlong : m = 1 ∨ m = 3 ∨ m = 5 ∨ m = 7 ∨ m = 8 ∨ m = 10 ∨ m = 12 := by omega
    rcases hlong with rfl | rfl | rfl | rfl | rfl | rfl | rfl <;> decide

/-- A date that exists is the date of its day. -/
theorem civilFromDays_daysFromCivil {y m d : Int} (hm : 1 ≤ m ∧ m ≤ 12) (hd : 1 ≤ d ∧ d ≤ daysInMonth y m) :
    civilFromDays (daysFromCivil y m d) = (y, m, d) := by
  obtain ⟨y', hy'⟩ : ∃ y', y' = if m ≤ 2 then y - 1 else y := ⟨_, rfl⟩
  obtain ⟨mp, hmp⟩ : ∃ mp, mp = (m + 9) % 12 := ⟨_, rfl⟩
  have hmarch : (mp < 10 → 3 ≤ m ∧ m = mp + 3) ∧ (10 ≤ mp → m ≤ 2 ∧ m = mp - 9) := by
    clear hy' hd
    omega
  have hdays : daysFromCivil y m d + 719468 = daysBefore y' + ((153 * mp + 2) / 5 + d - 1) := by
    rw [daysFromCivil_eq, ← hy', ← hmp]
    ring
  have hlen := hd.2.trans (daysInMonth_le_march y hm)
  rw [← hmp] at hlen
  have hmonth := month_of_day hd.1 hlen
  have hlt : (153 * mp + 2) / 5 + d - 1 < daysBefore (y' + 1) - daysBefore y' := by
    obtain ⟨hle, hleap⟩ := daysBefore_succ y'
    by_cases h2 : m = 2
    · -- February is the last month of its year, and its last day depends on the year.
      subst h2
      rw [if_pos (le_refl _)] at hy'
      obtain rfl : mp = 11 := hmp
      unfold daysInMonth at hd
      rw [if_pos rfl] at hd
      split at hd
      · have := hleap (by omega) (by omega)
        omega
      · omega
    · have hnext : (153 * (mp + 1) + 2) / 5 ≤ 337 := by omega
      omega
  have hdate := @marchDate_eq y' _ (show 0 ≤ (153 * mp + 2) / 5 + d - 1 by omega) hlt
  simp only [civilFromDays, hdays, hdate, hmonth, Prod.mk.injEq]
  clear hdays hlt hdate hd hmp hmonth hlen
  by_cases h : mp < 10
  · have := hmarch.1 h
    simp only [if_pos h]
    rw [if_neg (show ¬ m ≤ 2 by omega)] at hy'
    omega
  · have := hmarch.2 (by omega)
    simp only [if_neg h]
    rw [if_pos (show m ≤ 2 by omega)] at hy'
    omega

/-- Fields that name an instant. -/
structure Tm.Real (tm : Tm) : Prop where
  month : 1 ≤ tm.month ∧ tm.month ≤ 12
  day : 1 ≤ tm.day ∧ tm.day ≤ daysInMonth tm.year tm.month
  hour : 0 ≤ tm.hour ∧ tm.hour ≤ 23
  minute : 0 ≤ tm.minute ∧ tm.minute ≤ 59
  second : 0 ≤ tm.second ∧ tm.second ≤ 59

/-- They are those of the instant. -/
theorem gmtime_timegm {tm : Tm} (h : tm.Real) : gmtime (timegm tm) = tm := by
  obtain ⟨hm, hd, hh, hmi, hs⟩ := h
  have hday : timegm tm / 86400 = daysFromCivil tm.year tm.month tm.day := by
    unfold timegm
    omega
  have hrest : timegm tm % 86400 = 3600 * tm.hour + 60 * tm.minute + tm.second := by
    unfold timegm
    omega
  have hsec : timegm tm % 60 = tm.second := by
    unfold timegm
    omega
  simp only [gmtime, hday, hrest, hsec, civilFromDays_daysFromCivil hm hd]
  congr 1 <;> omega

end BaseLib
