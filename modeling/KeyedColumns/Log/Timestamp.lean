import KeyedColumns.Text.Layout

/-!
# Time stamps

A time is a count of microseconds since the start of 1970. Its seconds are cut toward zero, so the
two fields of a time before 1970 are both without a positive part.
-/

namespace KeyedColumns.Log

/-- Microseconds since the start of 1970, in UTC. -/
structure Timestamp where
  micros : Int
deriving DecidableEq

namespace Timestamp

/-- Whole seconds, cut toward zero. -/
def seconds (t : Timestamp) : Int := t.micros.tdiv 1000000

/-- The microseconds that the whole seconds leave, with the sign of the time. -/
def fraction (t : Timestamp) : Int := t.micros.tmod 1000000

theorem seconds_fraction (t : Timestamp) : t.seconds * 1000000 + t.fraction = t.micros := by
  have h := Int.tdiv_mul_add_tmod t.micros 1000000
  simpa [seconds, fraction] using h

/-- The microseconds with six characters, a sign among them. -/
def fractionText (t : Timestamp) : String := Text.zeroPadded 6 t.fraction

/-- The time as seconds since the start of 1970. -/
def plainText (t : Timestamp) : String := Text.decimal t.seconds ++ "." ++ t.fractionText

/-! ## Calendar dates -/

/-- A day of the Gregorian calendar. -/
structure Date where
  year : Int
  month : Int
  day : Int
deriving DecidableEq

/-- Days from the first of March of the year 0 to the first of January 1970. -/
def epochDay : Int := 719468

/-- The date of a day counted from the start of 1970. -/
def Date.ofDay (dayNumber : Int) : Date :=
  -- Years start in March here, so a leap day is the last of its year and any four centuries have
  -- the same number of days.
  let z := dayNumber + epochDay
  let era := z / 146097
  let dayOfEra := z % 146097
  let yearOfEra := (dayOfEra - dayOfEra / 1460 + dayOfEra / 36524 - dayOfEra / 146096) / 365
  let dayOfYear := dayOfEra - (365 * yearOfEra + yearOfEra / 4 - yearOfEra / 100)
  let monthFromMarch := (5 * dayOfYear + 2) / 153
  let month := if monthFromMarch < 10 then monthFromMarch + 3 else monthFromMarch - 9
  { year := yearOfEra + era * 400 + (if month ≤ 2 then 1 else 0)
    month
    day := dayOfYear - (153 * monthFromMarch + 2) / 5 + 1 }

/-- A leap day and the ends of the years around it. -/
example :
    Date.ofDay 0 = ⟨1970, 1, 1⟩ ∧ Date.ofDay (-1) = ⟨1969, 12, 31⟩
      ∧ Date.ofDay 11016 = ⟨2000, 2, 29⟩ ∧ Date.ofDay 11017 = ⟨2000, 3, 1⟩ := by decide

/-! ## Local time -/

/-- How many seconds local time is ahead of UTC, at each second since the start of 1970. -/
abbrev Zone := Int → Int

def Zone.utc : Zone := fun _ => 0

/-- A distance from UTC in hours and minutes, after a sign. -/
def offsetText (offset : Int) : String :=
  let minutes := offset.natAbs / 60
  let two := Text.zeroPadded 2
  (if offset < 0 then "-" else "+") ++ two (minutes / 60 : Nat) ++ two (minutes % 60 : Nat)

/-- The local date and time of day, and the distance from UTC. -/
def calendarText (zone : Zone) (t : Timestamp) : String :=
  let offset := zone t.seconds
  let date := Date.ofDay ((t.seconds + offset) / 86400)
  let second := (t.seconds + offset) % 86400
  let two := Text.zeroPadded 2
  Text.decimal date.year ++ "-" ++ two date.month ++ "-" ++ two date.day ++ " "
    ++ two (second / 3600) ++ ":" ++ two (second / 60 % 60) ++ ":" ++ two (second % 60)
    ++ "." ++ t.fractionText ++ " " ++ offsetText offset

/-- One moment east and west of where UTC is kept. -/
example :
    calendarText (fun _ => 16200) ⟨-1000001⟩ = "1970-01-01 04:29:59.-00001 +0430"
      ∧ calendarText (fun _ => -34200) ⟨-1000001⟩ = "1969-12-31 14:29:59.-00001 -0930" := by decide

end Timestamp

end KeyedColumns.Log
