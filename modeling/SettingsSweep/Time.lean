/-!
Points in time, as calendar time in UTC and where they were taken.
-/

set_option autoImplicit false

namespace SettingsSweep

/-- Seconds since the start of 1970, and how many seconds the local clock is ahead of UTC. -/
structure Instant where
  seconds : Int
  offset : Int
  deriving DecidableEq

structure CalendarDate where
  year : Int
  month : Nat
  day : Nat

namespace CalendarDate

/-- The date that lies some days after 1 January 1970. Years are counted from March, so that the leap
    day ends a year, in eras of 400 years. -/
def ofDays (days : Int) : CalendarDate :=
  let shifted := days + 719468
  let era := shifted / 146097
  let dayOfEra := (shifted % 146097).toNat
  let yearOfEra := (dayOfEra - dayOfEra / 1460 + dayOfEra / 36524 - dayOfEra / 146096) / 365
  let dayOfYear := dayOfEra - (365 * yearOfEra + yearOfEra / 4 - yearOfEra / 100)
  let marchMonth := (5 * dayOfYear + 2) / 153
  let day := dayOfYear - (153 * marchMonth + 2) / 5 + 1
  let month := if marchMonth < 10 then marchMonth + 3 else marchMonth - 9
  let year := yearOfEra + era * 400
  ⟨if month ≤ 2 then year + 1 else year, month, day⟩

end CalendarDate

namespace Instant

def date (t : Instant) : CalendarDate := .ofDays (t.seconds / 86400)

def secondOfDay (t : Instant) : Nat := (t.seconds % 86400).toNat

def hour (t : Instant) : Nat := t.secondOfDay / 3600

def minute (t : Instant) : Nat := t.secondOfDay / 60 % 60

def second (t : Instant) : Nat := t.secondOfDay % 60

def padded (width n : Nat) : String :=
  let digits := Nat.toDigits 10 n
  String.ofList (List.replicate (width - digits.length) '0' ++ digits)

def two (n : Nat) : String := padded 2 n

/-- Four digits; a year outside them has a sign. -/
def yearText (year : Int) : String :=
  if 0 ≤ year ∧ year ≤ 9999 then padded 4 year.natAbs
  else (if year < 0 then "-" else "+") ++ padded 4 year.natAbs

def weekdays : List String := ["Thu", "Fri", "Sat", "Sun", "Mon", "Tue", "Wed"]

def months : List String :=
  ["Jan", "Feb", "Mar", "Apr", "May", "Jun", "Jul", "Aug", "Sep", "Oct", "Nov", "Dec"]

def weekday (t : Instant) : String := weekdays.getD (t.seconds / 86400 % 7).toNat ""

/-- What the local clock shows, read as a time in UTC. -/
def wallClock (t : Instant) : Instant := ⟨t.seconds + t.offset, 0⟩

/-- Local date and time as digits, for file names. -/
def stamp (t : Instant) : String :=
  let clock := t.wallClock
  let d := clock.date
  yearText d.year ++ two d.month ++ two d.day ++ "_" ++
    two clock.hour ++ two clock.minute ++ two clock.second

/-- Date and time in UTC, as in the headers of a message. -/
def header (t : Instant) : String :=
  let d := t.date
  t.weekday ++ ", " ++ two d.day ++ " " ++ months.getD (d.month - 1) "" ++ " " ++
    yearText d.year ++ " " ++ two t.hour ++ ":" ++ two t.minute ++ ":" ++ two t.second ++ " GMT"

example : stamp ⟨-1, 7200⟩ = "19700101_015959" ∧ header ⟨-1, 7200⟩ = "Wed, 31 Dec 1969 23:59:59 GMT" := by
  decide +kernel

end Instant

end SettingsSweep
