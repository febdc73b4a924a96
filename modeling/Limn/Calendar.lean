/-! # Dates and times of day

Calendar dates of the years 1 to 9999 and times of day to the microsecond, with the offset from
universal time in minutes where one is known. A value of these types has been checked, so the
constructors of callers are `Date.of?` and `Clock.of?`.

Each has two texts: the plain one, and the one that stands inside a list or a mapping, which names
the parts.
-/

namespace Limn

def padded (width n : Nat) : String :=
  let ds := Nat.toDigits 10 n
  String.ofList (List.replicate (width - ds.length) '0' ++ ds)

/-! ## Dates -/

structure Date where
  year : Nat
  month : Nat
  day : Nat
deriving DecidableEq, Repr

namespace Date

/-- Every fourth year is a leap year, of the centuries every fourth. -/
def isLeap (year : Nat) : Bool :=
  year % 4 == 0 && (year % 100 != 0 || year % 400 == 0)

def daysIn (year month : Nat) : Nat :=
  match month with
  | 2 => if isLeap year then 29 else 28
  | 4 | 6 | 9 | 11 => 30
  | _ => 31

/-- The day with these numbers, if the calendar has it. -/
def of? (year month day : Nat) : Option Date :=
  if 1 ≤ year && year ≤ 9999 && 1 ≤ month && month ≤ 12 && 1 ≤ day && day ≤ daysIn year month then
    some ⟨year, month, day⟩
  else none

/-- The number of days from the first day of year 1, that day being number 1. -/
def ordinal (d : Date) : Nat :=
  let y := d.year - 1
  let months := (List.range (d.month - 1)).foldl (fun n m => n + daysIn d.year (m + 1)) 0
  y * 365 + y / 4 - y / 100 + y / 400 + months + d.day

/-- `1979-05-27`. -/
def text (d : Date) : String :=
  padded 4 d.year ++ "-" ++ padded 2 d.month ++ "-" ++ padded 2 d.day

end Date

/-! ## Times of day -/

structure Clock where
  hour : Nat
  minute : Nat
  second : Nat
  micro : Nat
deriving DecidableEq, Repr

namespace Clock

/-- The time with these numbers, if the day has it. -/
def of? (hour minute second micro : Nat) : Option Clock :=
  if hour < 24 && minute < 60 && second < 60 && micro < 1000000 then
    some ⟨hour, minute, second, micro⟩
  else none

/-- `07:32:00`, with six more places when there are microseconds. -/
def text (t : Clock) : String :=
  padded 2 t.hour ++ ":" ++ padded 2 t.minute ++ ":" ++ padded 2 t.second ++
    (if t.micro == 0 then "" else "." ++ padded 6 t.micro)

/-- The parts from the hour on, leaving out trailing zeros from the second on. -/
def parts (t : Clock) : List Nat :=
  if t.micro != 0 then [t.hour, t.minute, t.second, t.micro]
  else if t.second != 0 then [t.hour, t.minute, t.second]
  else [t.hour, t.minute]

def micros (t : Clock) : Nat :=
  ((t.hour * 60 + t.minute) * 60 + t.second) * 1000000 + t.micro

end Clock

/-! ## Moments -/

/-- A time on a day, with its offset from universal time in minutes if it is known. -/
structure Moment where
  date : Date
  clock : Clock
  offset : Option Int := none
deriving DecidableEq, Repr

namespace Moment

/-- `+02:00`. -/
def offsetText (minutes : Int) : String :=
  let n := minutes.natAbs
  (if minutes < 0 then "-" else "+") ++ padded 2 (n / 60) ++ ":" ++ padded 2 (n % 60)

/-- `1979-05-27 07:32:00+02:00`. -/
def text (m : Moment) : String :=
  m.date.text ++ " " ++ m.clock.text ++ (m.offset.map offsetText).getD ""

/-- The instant in microseconds, as if the offset were zero when it is not known. -/
def instant (m : Moment) : Int :=
  (m.date.ordinal : Int) * 86400000000 + m.clock.micros - m.offset.getD 0 * 60000000

/-- Two moments are the same when both or neither know their offset and the instants agree. -/
def same (a b : Moment) : Bool :=
  a.offset.isSome == b.offset.isSome && a.instant == b.instant

end Moment

end Limn
