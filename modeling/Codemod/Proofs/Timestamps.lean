import Codemod.Log.Instant
import Mathlib.Data.Nat.Digits.Defs

/-!
# Times that can be written

The text of an instant tells it to the microsecond: its parts have fixed widths, and the date of a day tells the day. An
instant has a text from the beginning of the year 1 to the end of the year 9999.

Main statements:

* `Date.le_year_ofDays_iff` says that a year begins with its first day;
* `Instant.exists_text_iff` says which instants have a text;
* `Instant.eq_of_text` says that no two instants have the same text.
-/

namespace Codemod.Log

namespace Date

/-! ### Years -/

/-- The days from the start of the count to the first of March of a year. -/
def marchDays (year : Int) : Int :=
  year / 400 * eraDays + daysBefore (year % 400).toNat

theorem marchDays_succ (year : Int) : marchDays year + 365 ≤ marchDays (year + 1) := by
  have hera : (eraDays : Int) = 146097 := rfl
  obtain ⟨y, hy⟩ : ∃ y : Nat, (year % 400).toNat = y := ⟨_, rfl⟩
  simp only [marchDays, hera]
  by_cases hlast : year % 400 = 399
  · have hnext : (year + 1) % 400 = 0 := by omega
    have hcarry : (year + 1) / 400 = year / 400 + 1 := by omega
    have hbefore : daysBefore 399 = 145731 := rfl
    have hzero : daysBefore 0 = 0 := rfl
    rw [hnext, hcarry, hlast, show Int.toNat 399 = 399 from rfl, show Int.toNat 0 = 0 from rfl, hbefore, hzero]
    omega
  · have hnext : ((year + 1) % 400).toNat = y + 1 := by omega
    have hcarry : (year + 1) / 400 = year / 400 := by omega
    have hgrows : daysBefore y + 365 ≤ daysBefore (y + 1) := by
      unfold daysBefore
      omega
    rw [hnext, hcarry, hy]
    omega

theorem marchDays_le {year later : Int} (h : year ≤ later) : marchDays year ≤ marchDays later := by
  have hsteps : ∀ n : Nat, marchDays year ≤ marchDays (year + n) := by
    intro n
    induction n with
    | zero => simp
    | succ n ih =>
      have hnext := marchDays_succ (year + n)
      rw [Int.add_assoc] at hnext
      push_cast
      omega
  have hlater : year + ((later - year).toNat : Int) = later := by omega
  have hle := hsteps (later - year).toNat
  rwa [hlater] at hle

/-- A day lies in a year that begins in March and there less than 366 days behind its beginning. -/
theorem exists_ofDays (days : Int) : ∃ (year : Int) (offset : Nat), offset < 366 ∧
    days + epochDays = marchDays year + offset ∧
    (ofDays days).year = if offset < 306 then year else year + 1 := by
  have hera : (eraDays : Int) = 146097 := rfl
  have hd : ((days + epochDays) % eraDays).toNat < eraDays := by
    unfold eraDays
    omega
  obtain ⟨hlt, hbegun, hends⟩ := yearOfEra_bounds hd
  obtain ⟨d, hdef⟩ : ∃ d, ((days + epochDays) % eraDays).toNat = d := ⟨_, rfl⟩
  rw [hdef] at hlt hbegun hends
  have hyear : (((days + epochDays) / eraDays * 400 + yearOfEra d) % 400).toNat = yearOfEra d := by omega
  have hcount : ((days + epochDays) / eraDays * 400 + (yearOfEra d : Int)) / 400 = (days + epochDays) / eraDays := by
    omega
  refine ⟨(days + epochDays) / eraDays * 400 + yearOfEra d, d - daysBefore (yearOfEra d), by omega, ?_, ?_⟩
  · have hsplit := Int.mul_ediv_add_emod (days + epochDays) eraDays
    have hnonneg := Int.emod_nonneg (days + epochDays) (show (eraDays : Int) ≠ 0 by omega)
    rw [marchDays, hyear, hcount, Int.mul_comm]
    omega
  · have hmonth : monthOfYear (d - daysBefore (yearOfEra d)) < 10 ↔ d - daysBefore (yearOfEra d) < 306 := by
      unfold monthOfYear
      omega
    simp only [ofDays, ofMarch, hdef, hmonth]

/-- A year begins with its first day. -/
theorem le_year_ofDays_iff (year days : Int) : year ≤ (ofDays days).year ↔ (Date.mk year 1 1).toDays ≤ days := by
  obtain ⟨march, offset, hoffset, hdays, hyear⟩ := exists_ofDays days
  have hfirst : (Date.mk year 1 1).toDays = marchDays (year - 1) + 306 - epochDays := by
    have hmonths : daysBeforeMonth (1 + 9) = 306 := rfl
    simp only [toDays, marchDays, hmonths, show ¬ 2 < 1 by omega, if_false, Nat.sub_self]
    omega
  rw [hfirst, hyear]
  have hnext := marchDays_succ march
  rcases Int.lt_trichotomy year (march + 1) with hle | rfl | hlt
  · have hmono := marchDays_le (show year - 1 ≤ march - 1 by omega)
    have hbefore := marchDays_succ (march - 1)
    rw [Int.sub_add_cancel] at hbefore
    split <;> omega
  · rw [Int.add_sub_cancel]
    split <;> omega
  · have hmono := marchDays_le (show march + 1 ≤ year - 1 by omega)
    split <;> omega

end Date

namespace Instant

variable {i j : Instant} {s : String} {n m w : Nat} {cs ds : List Char}

/-! ### Parts of fixed widths -/

theorem ofDigitChars_padded (w n : Nat) : Nat.ofDigitChars 10 (padded w n) 0 = n := by
  rw [padded, Decimal.padLeft, Nat.ofDigitChars_append, Nat.ofDigitChars_replicate_zero, Nat.mul_zero]
  exact Nat.ofDigitChars_ten_toDigits

theorem length_padded (hn : n < 10 ^ w) (hw : 0 < w) : (padded w n).length = w := by
  have hlen : (Decimal.digits n).length ≤ w := Nat.toDigits_length 10 n w hw hn
  rw [padded, Decimal.length_padLeft]
  omega

/-- A number of known width can be told from what stands behind it. -/
theorem padded_append_inj (hn : n < 10 ^ w) (hm : m < 10 ^ w) (hw : 0 < w) (h : padded w n ++ cs = padded w m ++ ds) :
    n = m ∧ cs = ds := by
  obtain ⟨hnumbers, hrest⟩ := List.append_inj h ((length_padded hn hw).trans (length_padded hm hw).symm)
  refine ⟨?_, hrest⟩
  rw [← ofDigitChars_padded w n, hnumbers, ofDigitChars_padded]

/-- The text of a date. -/
def dayText (t : Date) : List Char :=
  padded 4 t.year.toNat ++ '-' :: padded 2 t.month ++ '-' :: padded 2 t.day

/-- The text of the microseconds within a second. -/
def fractionText (n : Nat) : List Char :=
  if n = 0 then [] else '.' :: padded 6 n

theorem dayText_append_inj {t u : Date} (ht : t.year.toNat < 10000 ∧ t.month < 100 ∧ t.day < 100)
    (hu : u.year.toNat < 10000 ∧ u.month < 100 ∧ u.day < 100) (h : dayText t ++ cs = dayText u ++ ds) :
    (t.year.toNat = u.year.toNat ∧ t.month = u.month ∧ t.day = u.day) ∧ cs = ds := by
  simp only [dayText, List.append_assoc, List.cons_append] at h
  obtain ⟨hyear, h⟩ := padded_append_inj (w := 4) ht.1 hu.1 (by decide) h
  obtain ⟨hmonth, h⟩ := padded_append_inj (w := 2) ht.2.1 hu.2.1 (by decide) (List.cons.inj h).2
  obtain ⟨hday, hrest⟩ := padded_append_inj (w := 2) ht.2.2 hu.2.2 (by decide) (List.cons.inj h).2
  exact ⟨⟨hyear, hmonth, hday⟩, hrest⟩

theorem timeText_append_inj (hn : n < 86400) (hm : m < 86400) (h : timeText n ++ cs = timeText m ++ ds) :
    n = m ∧ cs = ds := by
  simp only [timeText, List.append_assoc, List.cons_append] at h
  obtain ⟨hhours, h⟩ := padded_append_inj (w := 2) (by omega) (by omega) (by decide) h
  obtain ⟨hminutes, h⟩ := padded_append_inj (w := 2) (by omega) (by omega) (by decide) (List.cons.inj h).2
  obtain ⟨hseconds, hrest⟩ := padded_append_inj (w := 2) (by omega) (by omega) (by decide) (List.cons.inj h).2
  exact ⟨by omega, hrest⟩

theorem fractionText_inj (hn : n < 1000000) (hm : m < 1000000) (h : fractionText n = fractionText m) : n = m := by
  unfold fractionText at h
  split_ifs at h with hzero hzero' hzero'
  · rw [hzero, hzero']
  · have hparts : padded 6 n ++ [] = padded 6 m ++ [] := congrArg (· ++ []) (List.cons.inj h).2
    exact (padded_append_inj (w := 6) hn hm (by decide) hparts).1

/-- An instant of the years 1 to 9999 has a text, and no other one. -/
theorem text_eq_ok_iff : i.text = .ok s ↔ (1 ≤ i.date.year ∧ i.date.year ≤ 9999) ∧ s = String.ofList
    (dayText i.date ++ 'T' :: timeText i.timeOfDay ++ fractionText i.fraction ++ "+00:00".toList) := by
  have hcounted : 1 ≤ i.date.year ∧ i.date.year ≤ 9999 → Decimal.fitsBits 31 (i.date.year - 1900) = true := by
    intro hyears
    rw [Decimal.fitsBits_iff]
    have hpow : ((Nat.pow 2 31 : Nat) : Int) = 2147483648 := rfl
    omega
  by_cases hyears : 1 ≤ i.date.year ∧ i.date.year ≤ 9999
  · have hwithin : (i.date.year < 1 || 9999 < i.date.year) = false := by simp; omega
    simp only [text, dated, hcounted hyears, if_true, bind, Except.bind, hwithin, hyears, true_and]
    simp [pure, Except.pure, dayText, fractionText, eq_comm]
  · have hbeyond : (i.date.year < 1 || 9999 < i.date.year) = true := by simp; omega
    unfold text dated
    split_ifs <;> simp [bind, Except.bind, hbeyond, hyears]

/-- An instant has a text from the beginning of the year 1 to the end of the year 9999. -/
theorem exists_text_iff : (∃ s, i.text = .ok s) ↔ -62135596800 ≤ i.seconds ∧ i.seconds < 253402300800 := by
  have hfirst := Date.le_year_ofDays_iff 1 (i.seconds / 86400)
  have hlast := Date.le_year_ofDays_iff 10000 (i.seconds / 86400)
  have hbegin : (Date.mk 1 1 1).toDays = -719162 := by decide
  have hend : (Date.mk 10000 1 1).toDays = 2932897 := by decide
  rw [hbegin] at hfirst
  rw [hend] at hlast
  have hyears : -62135596800 ≤ i.seconds ∧ i.seconds < 253402300800 ↔ 1 ≤ i.date.year ∧ i.date.year ≤ 9999 := by
    unfold date
    omega
  simp only [text_eq_ok_iff, hyears, exists_and_left, exists_eq, and_true]

example : (Instant.ofSeconds 951782400).text = .ok "2000-02-29T00:00:00+00:00" := by decide +kernel

/-- The text of an instant tells it. -/
theorem eq_of_text (hi : i.text = .ok s) (hj : j.text = .ok s) : i = j := by
  obtain ⟨hyears, rfl⟩ := text_eq_ok_iff.mp hi
  obtain ⟨hyears', htexts⟩ := text_eq_ok_iff.mp hj
  have hlists := String.ofList_injective htexts
  simp only [List.append_assoc, List.cons_append] at hlists
  have hwidths : ∀ k : Instant, 1 ≤ k.date.year ∧ k.date.year ≤ 9999 →
      k.date.year.toNat < 10000 ∧ k.date.month < 100 ∧ k.date.day < 100 := by
    intro k hk
    have hmonth := Date.month_ofDays (k.seconds / 86400)
    have hday := Date.day_ofDays (k.seconds / 86400)
    unfold date at hk ⊢
    omega
  obtain ⟨⟨hyear, hmonth, hday⟩, hrest⟩ := dayText_append_inj (hwidths i hyears) (hwidths j hyears') hlists
  obtain ⟨htime, hrest⟩ := timeText_append_inj i.timeOfDay_lt j.timeOfDay_lt (List.cons.inj hrest).2
  have hfraction : i.fraction = j.fraction := by
    refine fractionText_inj ?_ ?_ (List.append_cancel_right hrest) <;>
    · unfold fraction
      omega
  have hdate : i.date = j.date := by
    have hyear : i.date.year = j.date.year := by omega
    cases hd : i.date
    cases hd' : j.date
    rw [hd, hd'] at hyear hmonth hday
    congr
  have hdays : i.seconds / 86400 = j.seconds / 86400 := by
    rw [← Date.toDays_ofDays (i.seconds / 86400), ← Date.toDays_ofDays (j.seconds / 86400)]
    exact congrArg Date.toDays hdate
  have hmicros : i.micros = j.micros := by
    simp only [timeOfDay, fraction, seconds] at htime hfraction hdays
    omega
  cases i
  cases j
  congr

end Instant
end Codemod.Log
