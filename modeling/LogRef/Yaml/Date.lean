import LogRef.Fault
import LogRef.Moment

/-!
# Dates

Dates and times of day as they are written in documents, and the moments they are.
-/
namespace LogRef.Yaml

/-- A date as it is written, with a time of day or without. -/
structure Date where
  year : Nat
  month : List Char
  day : List Char
  clock : Option Clock
  deriving Repr

namespace Date

/-- One or two digits at the front of a text, and the rest. -/
def shortNumber (text : List Char) : Option (List Char × List Char) :=
  let digits := (text.take 2).takeWhile isAsciiDigit
  if digits.isEmpty then none else some (digits, text.drop digits.length)

/-- Exactly `n` digits at the front of a text, and the rest. -/
def exactNumber (n : Nat) (text : List Char) : Option (Nat × List Char) :=
  let digits := text.take n
  if digits.length = n && digits.all isAsciiDigit then some (digitsValue digits, text.drop n)
  else none

/-- What is left behind the character `c`. -/
def behind (c : Char) : List Char → Option (List Char)
  | d :: rest => if c = d then some rest else none
  | [] => none

def isGap (c : Char) : Bool := c = ' ' || c = '\t'

/-- The zone that ends a time; nothing may follow it. -/
def readZone (text : List Char) : Option (Option Int) :=
  if text.isEmpty then some none
  else
    match text.dropWhile isGap with
    | ['Z'] => some (some 0)
    | sign :: rest =>
      if sign != '+' && sign != '-' then none
      else do
        let (hours, rest) ← shortNumber rest
        let minutes ←
          if rest.isEmpty then some 0
          else do
            let (minutes, rest) ← exactNumber 2 (← behind ':' rest)
            if rest.isEmpty then some minutes else none
        let total : Int := digitsValue hours * 60 + minutes
        some (some (if sign = '-' then -total else total))
    | [] => none

/-- The millionths of a second that the digits behind a point stand for. -/
def micros (fraction : List Char) : Nat :=
  digitsValue (fraction.take 6 ++ List.replicate (6 - fraction.length) '0')

/-- The time of day behind a date. -/
def readClock (text : List Char) : Option Clock := do
  let (hour, rest) ← shortNumber text
  let (minute, rest) ← exactNumber 2 (← behind ':' rest)
  let (second, rest) ← exactNumber 2 (← behind ':' rest)
  let fraction := if rest.head? = some '.' then (rest.drop 1).takeWhile isAsciiDigit else []
  let rest := if rest.head? = some '.' then rest.drop (1 + fraction.length) else rest
  let zone ← readZone rest
  return { hour := digitsValue hour, minute, second, micros := micros fraction, zone }

/-- Reads a date; month and day have one or two digits. -/
def read (text : List Char) : Option Date := do
  let (year, rest) ← exactNumber 4 text
  let (month, rest) ← shortNumber (← behind '-' rest)
  let (day, rest) ← shortNumber (← behind '-' rest)
  match rest with
  | [] => return { year, month, day, clock := none }
  | c :: more =>
    let start ←
      if c = 'T' || c = 't' then some more
      else if isGap c then some (rest.dropWhile isGap) else none
    let clock ← readClock start
    return { year, month, day, clock := some clock }

/-- Whether a text is taken for a date without being called one: without a time of day, month and day have
two digits. -/
def isWritten (text : List Char) : Bool :=
  match read text with
  | some d => d.clock.isSome || (d.month.length = 2 && d.day.length = 2)
  | none => false

/-- A zone has to be less than a day away. -/
def checkZone (zone : Int) : Except Fault Unit :=
  if -1440 < zone ∧ zone < 1440 then .ok ()
  else .error (.badValue ("offset must be a timedelta strictly between -timedelta(hours=24) and " ++
    "timedelta(hours=24), not " ++ Moment.spanText (zone * 60) ++ "."))

/-- A time of day has to be one. -/
def checkClock (c : Clock) : Except Fault Unit := do
  if 23 < c.hour then throw (.badValue "hour must be in 0..23")
  if 59 < c.minute then throw (.badValue "minute must be in 0..59")
  if 59 < c.second then throw (.badValue "second must be in 0..59")

/-- The moment that a date is; the calendar has to have it. -/
def moment (d : Date) : Except Fault Moment := do
  if let some zone := d.clock.bind Clock.zone then checkZone zone
  let month := digitsValue d.month
  let day := digitsValue d.day
  if d.year = 0 then throw (.badValue "year 0 is out of range")
  if month = 0 || 12 < month then throw (.badValue "month must be in 1..12")
  if day = 0 || Moment.daysIn d.year month < day then
    throw (.badValue "day is out of range for month")
  if let some c := d.clock then checkClock c
  return { year := d.year, month, day, clock := d.clock }

end Date

end LogRef.Yaml
