import Codemod.Decimal.Places

/-!
# Dates

Days are counted from the first of January 1970. The calendar has a leap day in every fourth year, of
the hundredth years only in every fourth.  Years are taken to begin in March, so that a leap day is the
last day of its year; four hundred such years are an era of always the same length.

Main statements:

* `Date.toDays_ofDays` says that the date of a day tells that day;
* `Date.month_ofDays` and `Date.day_ofDays` bound the parts of a date.
-/

namespace Codemod.Log

/-- A day of the calendar; months and days are counted from one. -/
structure Date where
  year : Int
  month : Nat
  day : Nat
  deriving DecidableEq, Repr

namespace Date

/-- The days of an era. -/
def eraDays : Nat := 146097

/-- The days from the first day of the era in which the count of days begins. -/
def epochDays : Nat := 719468

/-- The century of an era that a day of the era falls into; the last one is a day longer. -/
def centuryOf (d : Nat) : Nat :=
  min 3 (d / 36524)

/-- The year of an era that a day of the era falls into: centuries, then groups of four years, of which
the last year is a day longer. -/
def yearOfEra (d : Nat) : Nat :=
  let rest := d - centuryOf d * 36524
  100 * centuryOf d + 4 * (rest / 1461) + min 3 (rest % 1461 / 365)

/-- The days of an era before one of its years. -/
def daysBefore (year : Nat) : Nat :=
  365 * year + year / 4 - year / 100

/-- The days of a year before one of its months, March being month zero. -/
def daysBeforeMonth (month : Nat) : Nat :=
  (153 * month + 2) / 5

/-- The month that a day of the year falls into, March being month zero. -/
def monthOfYear (d : Nat) : Nat :=
  (5 * d + 2) / 153

/-- The date that lies `day` days behind the first day of a month, March being month zero of the
year. -/
def ofMarch (year : Int) (month day : Nat) : Date where
  year := if month < 10 then year else year + 1
  month := if month < 10 then month + 3 else month - 9
  day := day + 1

/-- The date of a day. -/
def ofDays (days : Int) : Date :=
  let shifted := days + epochDays
  let d := (shifted % eraDays).toNat
  let y := yearOfEra d
  let dayOfYear := d - daysBefore y
  let m := monthOfYear dayOfYear
  ofMarch (shifted / eraDays * 400 + y) m (dayOfYear - daysBeforeMonth m)

/-- The day of a date. -/
def toDays (t : Date) : Int :=
  let year : Int := if 2 < t.month then t.year else t.year - 1
  let m := if 2 < t.month then t.month - 3 else t.month + 9
  let y := (year % 400).toNat
  year / 400 * eraDays + (daysBefore y + daysBeforeMonth m + (t.day - 1) : Nat) - epochDays

/-- The days before a year, by its century, its group of four years and its place there. -/
theorem daysBefore_parts {c q y : Nat} (hq : q < 25) (hy : y < 4) :
    daysBefore (100 * c + 4 * q + y) = 36524 * c + 1461 * q + 365 * y := by
  have h4 : (100 * c + 4 * q + y) / 4 = 25 * c + q := by omega
  have h100 : (100 * c + 4 * q + y) / 100 = c := by omega
  unfold daysBefore
  omega

/-- A day of an era falls into a year of that era, which has begun and has at most 366 days. -/
theorem yearOfEra_bounds {d : Nat} (h : d < eraDays) :
    yearOfEra d < 400 ∧ daysBefore (yearOfEra d) ≤ d ∧ d < daysBefore (yearOfEra d) + 366 := by
  unfold eraDays at h
  have hc : centuryOf d * 36524 ≤ d ∧ centuryOf d < 4 ∧ d ≤ centuryOf d * 36524 + 36524 := by
    unfold centuryOf
    omega
  unfold yearOfEra
  generalize centuryOf d = c at *
  obtain ⟨hle, hc4, hlt⟩ := hc
  obtain ⟨r, hr⟩ : ∃ r, d = c * 36524 + r := ⟨d - c * 36524, by omega⟩
  have hrest : d - c * 36524 = r := by omega
  simp only [hrest]
  have hq : r / 1461 < 25 := by omega
  have hsplit : r = 1461 * (r / 1461) + r % 1461 := (Nat.div_add_mod r 1461).symm
  have hs : r % 1461 < 1461 := Nat.mod_lt _ (by decide)
  generalize r / 1461 = q at *
  generalize r % 1461 = s at *
  rw [daysBefore_parts hq (by omega)]
  omega

/-- A day of a year falls into one of twelve months. -/
theorem monthOfYear_lt {d : Nat} (h : d < 366) : monthOfYear d < 12 := by
  unfold monthOfYear
  omega

/-- The month that a day falls into has begun. -/
theorem daysBeforeMonth_monthOfYear_le (d : Nat) : daysBeforeMonth (monthOfYear d) ≤ d := by
  unfold daysBeforeMonth monthOfYear
  omega

/-- A month has at most 31 days. -/
theorem lt_daysBeforeMonth_monthOfYear_add (d : Nat) :
    d < daysBeforeMonth (monthOfYear d) + 31 := by
  unfold daysBeforeMonth monthOfYear
  omega

/-- The months are counted from one to twelve. -/
theorem month_ofDays (days : Int) : 1 ≤ (ofDays days).month ∧ (ofDays days).month ≤ 12 := by
  have hd : ((days + epochDays) % eraDays).toNat < eraDays := by unfold eraDays; omega
  have hy := (yearOfEra_bounds hd).2.2
  have hm := monthOfYear_lt (d := ((days + epochDays) % eraDays).toNat -
    daysBefore (yearOfEra ((days + epochDays) % eraDays).toNat)) (by omega)
  simp only [ofDays, ofMarch]
  split <;> omega

/-- The days are counted from one to thirty-one. -/
theorem day_ofDays (days : Int) : 1 ≤ (ofDays days).day ∧ (ofDays days).day ≤ 31 := by
  simp only [ofDays, ofMarch]
  have := lt_daysBeforeMonth_monthOfYear_add (((days + epochDays) % eraDays).toNat -
    daysBefore (yearOfEra ((days + epochDays) % eraDays).toNat))
  omega

/-- The day of a date in a year that begins in March. -/
theorem toDays_ofMarch (era : Int) {y m : Nat} (day : Nat) (hy : y < 400) (hm : m < 12) :
    (ofMarch (era * 400 + y) m day).toDays =
      era * eraDays + (daysBefore y + daysBeforeMonth m + day : Nat) - epochDays := by
  have hera : (era * 400 + (y : Int)) / 400 = era := by omega
  have hrest : ((era * 400 + (y : Int)) % 400).toNat = y := by omega
  unfold ofMarch toDays
  by_cases h : m < 10
  · simp only [h, if_true, show 2 < m + 3 by omega, show m + 3 - 3 = m by omega, hera, hrest,
      Nat.add_sub_cancel]
  · simp only [h, if_false, show ¬ 2 < m - 9 by omega, show m - 9 + 9 = m by omega,
      Int.add_sub_cancel, hera, hrest, Nat.add_sub_cancel]

/-- The date of a day tells that day. -/
theorem toDays_ofDays (days : Int) : (ofDays days).toDays = days := by
  have hpos : (0 : Int) < eraDays := by decide
  have hd : ((days + epochDays) % eraDays).toNat < eraDays := by
    have := Int.emod_lt_of_pos (days + epochDays) hpos
    omega
  have hsplit := Int.mul_ediv_add_emod (days + epochDays) eraDays
  have hnonneg := Int.emod_nonneg (days + epochDays) (Int.ne_of_gt hpos)
  obtain ⟨hlt, hy, hy'⟩ := yearOfEra_bounds hd
  have hm := monthOfYear_lt (d := ((days + epochDays) % eraDays).toNat -
    daysBefore (yearOfEra ((days + epochDays) % eraDays).toNat)) (by omega)
  have hle := daysBeforeMonth_monthOfYear_le (((days + epochDays) % eraDays).toNat -
    daysBefore (yearOfEra ((days + epochDays) % eraDays).toNat))
  simp only [ofDays]
  rw [toDays_ofMarch _ _ hlt hm, Int.mul_comm]
  generalize (days + epochDays) / eraDays * (eraDays : Int) = base at *
  omega

end Date
end Codemod.Log
