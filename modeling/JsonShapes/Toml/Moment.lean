import JsonShapes.Text.Digits

/-!
# Dates and times

Days of the calendar, times of day, and their texts as ISO 8601 writes them. A time is exact to the
microsecond. A moment may say how far its place is from the meridian; without that it is local.
-/

namespace JsonShapes

/-- A day of the calendar. -/
structure Date where
  year : Nat
  month : Nat
  day : Nat
deriving DecidableEq, Repr

/-- A time of day. -/
structure Time where
  hour : Nat
  minute : Nat
  second : Nat
  microsecond : Nat
deriving DecidableEq, Repr

/-- A time on a day, at a place that is `offset` minutes ahead of the meridian if that is known. -/
structure Moment where
  date : Date
  time : Time
  offset : Option Int
deriving DecidableEq, Repr

namespace Date

/-- Whether a year has a 29th of February. -/
def isLeap (year : Nat) : Bool :=
  year % 4 = 0 && (year % 100 ≠ 0 || year % 400 = 0)

/-- How many days a month has. -/
def daysIn (year month : Nat) : Nat :=
  if month = 2 then (if isLeap year then 29 else 28)
  else if month = 4 ∨ month = 6 ∨ month = 9 ∨ month = 11 then 30
  else 31

/-- Whether the calendar has the day. There is no year zero. -/
def isReal (d : Date) : Bool :=
  1 ≤ d.year && 1 ≤ d.month && d.month ≤ 12 && 1 ≤ d.day && d.day ≤ daysIn d.year d.month

/-- The text of a day. -/
def text (d : Date) : List Char :=
  paddedDigits 4 d.year ++ '-' :: paddedDigits 2 d.month ++ '-' :: paddedDigits 2 d.day

end Date

/-- The text of a time. A fraction of a second is written in six digits, and left out if there is
none. -/
def Time.text (t : Time) : List Char :=
  paddedDigits 2 t.hour ++ ':' :: paddedDigits 2 t.minute ++ ':' :: paddedDigits 2 t.second
    ++ if t.microsecond = 0 then [] else '.' :: paddedDigits 6 t.microsecond

/-- The text of a distance from the meridian. -/
def offsetText (minutes : Int) : List Char :=
  (if minutes < 0 then '-' else '+') :: paddedDigits 2 (minutes.natAbs / 60)
    ++ ':' :: paddedDigits 2 (minutes.natAbs % 60)

/-- The text of a moment. -/
def Moment.text (m : Moment) : List Char :=
  m.date.text ++ 'T' :: m.time.text ++ (m.offset.map offsetText).getD []

end JsonShapes
