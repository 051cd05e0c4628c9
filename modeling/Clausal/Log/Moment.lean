import Clausal.Fault

/-!
# Moments

A moment is a number of microseconds since the start of 1970 in universal time. Its date follows the
Gregorian calendar, counted in cycles of 400 years that start on the first of March.
-/

namespace Clausal.Log

-- Powers are the built-in ones, also where an algebraic structure on the numbers has others.
attribute [local instance (high)] instPowNat

/-- Microseconds since the start of 1970. -/
abbrev Moment := Int

/-- A day of the Gregorian calendar. -/
structure Date where
  year : Int
  month : Int
  day : Int
deriving DecidableEq

namespace Date

/-- The days of 400 years. -/
def cycle : Int := 146097

/-- The year within a cycle in which a day of the cycle lies, years starting in March. -/
def yearOfCycle (day : Int) : Int :=
  (day - day / 1460 + day / 36524 - day / 146096) / 365

/-- The date of a day, counted from the start of 1970. -/
def ofDay (days : Int) : Date :=
  let fromMarch := days + 719468
  let day := fromMarch % cycle
  let year := yearOfCycle day
  let dayOfYear := day - (365 * year + year / 4 - year / 100)
  let month := (5 * dayOfYear + 2) / 153
  let next : Int := if month < 10 then 0 else 1
  { year := year + 400 * (fromMarch / cycle) + next
    month := if month < 10 then month + 3 else month - 9
    day := dayOfYear - (153 * month + 2) / 5 + 1 }

end Date

/-- A number with at least the given count of digits. -/
def padded (width : Nat) (n : Int) : String :=
  let digits := toString n
  String.ofList (List.replicate (width - digits.length) '0') ++ digits

namespace Moment

/-- The moment that lies the given number of seconds after the start of 1970, to the nearest
microsecond. Only the years from 1 to 9999 have dates. -/
def ofSeconds (x : Float) : Except Fault Moment := do
  match Decimal.view x with
  | .nan => throw (.log .noMoment)
  | .infinite _ => throw (.log .farMoment)
  | .finite p =>
    let whole := p.truncate
    if whole < -2 ^ (63 : Nat) || 2 ^ (63 : Nat) ≤ whole then throw (.log .farMoment)
    let rest := (x - (Decimal.ofInt? whole).getD 0) * 1000000.0
    let micros := (Decimal.nearestWhole? rest).getD 0
    let moment := whole * 1000000 + micros
    let year := (Date.ofDay (moment / 86400000000)).year
    if year < 1 || 9999 < year then throw (.log (.year year))
    return moment

def date (t : Moment) : Date := Date.ofDay (t / 86400000000)

/-- The microseconds since midnight. -/
def ofDay (t : Moment) : Int := t % 86400000000

/-- The microseconds since the last full second. -/
def micros (t : Moment) : Int := t % 1000000

/-- The year, month and day of a moment. -/
def dateText (t : Moment) : String :=
  padded 4 t.date.year ++ "-" ++ padded 2 t.date.month ++ "-" ++ padded 2 t.date.day

/-- The hours, minutes and seconds of a moment. -/
def timeText (t : Moment) : String :=
  let seconds := t.ofDay / 1000000
  padded 2 (seconds / 3600) ++ ":" ++ padded 2 (seconds / 60 % 60) ++ ":" ++ padded 2 (seconds % 60)

/-- A moment with microseconds if they are not zero. -/
def stamp (t : Moment) : String :=
  t.dateText ++ "T" ++ t.timeText ++
    (if t.micros = 0 then "" else "." ++ padded 6 t.micros)

/-- A moment with milliseconds. -/
def lineStamp (t : Moment) : String :=
  t.dateText ++ " " ++ t.timeText ++ "," ++ padded 3 (t.micros / 1000)

end Moment

end Clausal.Log
