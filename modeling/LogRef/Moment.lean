/-!
# Dates and times of day

A day of the calendar, with a time of day or without. A time may say how far it is from universal time; two
such times are the same if they are the same instant.
-/
namespace LogRef

/-- A time of day, with its distance from universal time in minutes, if that is given. -/
structure Clock where
  hour : Nat
  minute : Nat
  second : Nat
  micros : Nat
  zone : Option Int
  deriving DecidableEq, Repr

structure Moment where
  year : Nat
  month : Nat
  day : Nat
  clock : Option Clock
  deriving DecidableEq, Repr

namespace Moment

def isLeap (year : Nat) : Bool := year % 4 = 0 && (year % 100 != 0 || year % 400 = 0)

def daysIn (year month : Nat) : Nat :=
  if month = 2 then if isLeap year then 29 else 28
  else if [4, 6, 9, 11].contains month then 30 else 31

/-- How many days lie before a day since the first of the calendar. -/
def dayNumber (m : Moment) : Nat :=
  let years := m.year - 1
  let months := (List.range (m.month - 1)).map fun i => daysIn m.year (i + 1)
  365 * years + years / 4 - years / 100 + years / 400 + months.foldr (· + ·) 0 + (m.day - 1)

/-- The microseconds up to a time of day with a zone, in universal time. -/
def instant (m : Moment) (c : Clock) (zone : Int) : Int :=
  let minutes : Int := ((m.dayNumber * 24 + c.hour) * 60 + c.minute : Nat) - zone
  (minutes * 60 + c.second) * 1000000 + c.micros

/-- Whether two moments are the same. A day is none of its times, and a time with a zone is none
without. -/
def isSame (a b : Moment) : Bool :=
  match a.clock, b.clock with
  | some c, some d =>
    match c.zone, d.zone with
    | some y, some z => a.instant c y == b.instant d z
    | none, none => a == b
    | _, _ => false
  | none, none => a == b
  | _, _ => false

/-- How a span of whole seconds is shown. -/
def spanText (seconds : Int) : String :=
  let days := seconds.fdiv 86400
  let rest := seconds.fmod 86400
  let parts := (if days = 0 then [] else [s!"days={days}"]) ++
    (if rest = 0 then [] else [s!"seconds={rest}"])
  "datetime.timedelta(" ++ (if parts.isEmpty then "0" else ", ".intercalate parts) ++ ")"

/-- How a zone is shown. -/
def zoneText (zone : Int) : String :=
  if zone = 0 then "datetime.timezone.utc"
  else "datetime.timezone(" ++ spanText (zone * 60) ++ ")"

/-- How a moment is shown; seconds and their parts are left out if they are zero. -/
def text (m : Moment) : String :=
  let shown (numbers : List Nat) := numbers.map toString
  match m.clock with
  | none => "datetime.date(" ++ ", ".intercalate (shown [m.year, m.month, m.day]) ++ ")"
  | some c =>
    let seconds :=
      if c.micros != 0 then [c.second, c.micros] else if c.second != 0 then [c.second] else []
    let zone := (c.zone.map fun z => "tzinfo=" ++ zoneText z).toList
    "datetime.datetime(" ++
      ", ".intercalate (shown ([m.year, m.month, m.day, c.hour, c.minute] ++ seconds) ++ zone) ++ ")"

end Moment

end LogRef
