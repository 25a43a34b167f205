import Codemod.Decimal.Range
import Codemod.Json.Value
import Codemod.Log.Date

/-!
# Instants

An instant is given by a number of seconds from the start of 1970 and kept in whole microseconds. It is
written with its date, in universal time, or as the time of day alone.

Main statements:

* `Instant.seconds_ofSeconds` says that whole seconds are kept;
* `Instant.timeOfDay_lt` says that the time of day is less than a day.
-/

namespace Codemod.Log

open Json (Value)
open Decimal (Binary64 padLeft digits)

/-- Why a value names no instant that can be written. -/
inductive InstantFault where
  | notANumber
  /-- A number in form only. -/
  | undefined
  /-- The count of seconds does not fit into 64 bits. -/
  | beyondCount
  /-- The count of years since 1900 does not fit into 32 bits. -/
  | beyondCalendar
  /-- A year that has not one to four digits. -/
  | beyondYears
  deriving DecidableEq, Repr

/-- A point in time: microseconds from the start of 1970. -/
structure Instant where
  micros : Int
  deriving DecidableEq, Repr

namespace Instant

/-- The instant after a whole number of seconds. -/
def ofSeconds (n : Int) : Instant :=
  ⟨n * 1000000⟩

/-- The whole seconds of an instant. -/
def seconds (i : Instant) : Int :=
  i.micros / 1000000

/-- Whole seconds are kept. -/
@[simp] theorem seconds_ofSeconds (n : Int) : (ofSeconds n).seconds = n := by
  simp [ofSeconds, seconds]

/-- The microseconds within the second. -/
def fraction (i : Instant) : Nat :=
  (i.micros % 1000000).toNat

/-- The day of an instant. -/
def date (i : Instant) : Date :=
  Date.ofDays (i.seconds / 86400)

/-- The seconds since the day began. -/
def timeOfDay (i : Instant) : Nat :=
  (i.seconds % 86400).toNat

/-- The time of day is less than a day. -/
theorem timeOfDay_lt (i : Instant) : i.timeOfDay < 86400 := by
  unfold timeOfDay
  omega

/-- The microseconds of a magnitude below one, after rounding it to a floating-point number: the
nearest whole number, the even one of two. -/
def roundMicros (num den : Nat) : Nat :=
  match Binary64.ofRatio false (num * 1000000) den with
  | .finite _ m q =>
    let (n, d) := Binary64.ratio m q
    Decimal.roundDiv n d
  | _ => 0

/-- An instant whose seconds fit into 64 bits, the sign included. -/
def counted (i : Instant) : Except InstantFault Instant :=
  if Decimal.fitsBits 63 i.seconds then .ok i else .error .beyondCount

/-- The instant that a number of seconds names, its fraction rounded to microseconds. -/
def ofValue : Value → Except InstantFault Instant
  | .int n => counted (ofSeconds n)
  | .bool b => .ok (ofSeconds (if b then 1 else 0))
  | .real (.finite s m q) =>
    let (num, den) := Binary64.ratio m q
    let micros : Int := (num / den * 1000000 + roundMicros (num % den) den : Nat)
    counted ⟨if s then -micros else micros⟩
  | .real (.infinite _) => .error .beyondCount
  | .real .nan => .error .undefined
  | _ => .error .notANumber

/-- The instant that a number of seconds names, its fraction left out. -/
def ofValueFloor : Value → Except InstantFault Instant
  | .real x =>
    match x.floor? with
    | some n => counted (ofSeconds n)
    | none => ofValue (.real x)
  | v => ofValue v

/-- An instant whose year the calendar can count. -/
def dated (i : Instant) : Except InstantFault Instant :=
  if Decimal.fitsBits 31 (i.date.year - 1900) then .ok i else .error .beyondCalendar

/-- A number with at least the given count of digits. -/
def padded (width n : Nat) : List Char :=
  padLeft '0' width (digits n)

/-- Hours, minutes and seconds of a time of day. -/
def timeText (seconds : Nat) : List Char :=
  padded 2 (seconds / 3600) ++ ':' :: padded 2 (seconds / 60 % 60) ++ ':' :: padded 2 (seconds % 60)

/-- Date and time of an instant in universal time; the microseconds are left out when there are
none. -/
def text (i : Instant) : Except InstantFault String := do
  let i ← i.dated
  let d := i.date
  if d.year < 1 || 9999 < d.year then .error .beyondYears
  else
    let day := padded 4 d.year.toNat ++ '-' :: padded 2 d.month ++ '-' :: padded 2 d.day
    let fraction := if i.fraction = 0 then [] else '.' :: padded 6 i.fraction
    return String.ofList (day ++ 'T' :: timeText i.timeOfDay ++ fraction ++ "+00:00".toList)

/-- The time of day of an instant in universal time. -/
def clock (i : Instant) : Except InstantFault String := do
  let i ← i.dated
  return String.ofList (timeText i.timeOfDay)

end Instant
end Codemod.Log
