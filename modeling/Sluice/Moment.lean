/-! Moments of time and how they are written: `2024-02-29T12:00:00.000Z`. -/
namespace Sluice

/-- A moment, by the milliseconds since the start of the year 1970. -/
structure Moment where
  millis : Nat := 0
deriving DecidableEq, Repr

namespace Moment

/-- The days of 400 years. The calendar repeats after them. -/
def eraDays : Nat := 146097

/-- The days from the first of March of the year 0 to the start of the year 1970. -/
def epochDays : Nat := 719468

/-- Year, month and day. Years are first counted from March, so that a leap day is the last one
of its year. -/
def date (m : Moment) : Nat × Nat × Nat :=
  let days := m.millis / 86400000 + epochDays
  let dayOfEra := days % eraDays
  let yearOfEra :=
    (dayOfEra - dayOfEra / 1460 + dayOfEra / 36524 - dayOfEra / 146096) / 365
  let dayOfYear := dayOfEra - (365 * yearOfEra + yearOfEra / 4 - yearOfEra / 100)
  let monthFromMarch := (5 * dayOfYear + 2) / 153
  let day := dayOfYear - (153 * monthFromMarch + 2) / 5 + 1
  let month := if monthFromMarch < 10 then monthFromMarch + 3 else monthFromMarch - 9
  let year := yearOfEra + 400 * (days / eraDays)
  (if month ≤ 2 then year + 1 else year, month, day)

def padded (width n : Nat) : String :=
  let ds := Nat.toDigits 10 n
  String.ofList (List.replicate (width - ds.length) '0' ++ ds)

def text (m : Moment) : String :=
  let (year, month, day) := m.date
  let ms := m.millis % 86400000
  padded 4 year ++ "-" ++ padded 2 month ++ "-" ++ padded 2 day ++ "T" ++
    padded 2 (ms / 3600000) ++ ":" ++ padded 2 (ms / 60000 % 60) ++ ":" ++
    padded 2 (ms / 1000 % 60) ++ "." ++ padded 3 (ms % 1000) ++ "Z"

end Moment

end Sluice
