import MailArchive.Calendar.Date

/-!
# MailArchive.Calendar.Timestamp

A timestamp is a date and a time of day as a clock somewhere shows them, with the distance of that
clock from UTC. The distance is counted in seconds; what is written of it are whole minutes
(`Timestamp.offset`). Two timestamps with different distances can be the same instant
(`Timestamp.sameInstant`). Second 60 is a leap second.
-/

namespace MailArchive

/-- What a clock shows. -/
structure TimeOfDay where
  hour : Nat
  minute : Nat
  second : Nat
  nano : Nat
  exists_time : hour ≤ 23 ∧ minute ≤ 59 ∧ second ≤ 60 ∧ nano < 1000000000
  deriving DecidableEq, Repr

namespace TimeOfDay

def of? (hour minute second nano : Nat) : Option TimeOfDay :=
  if h : hour ≤ 23 ∧ minute ≤ 59 ∧ second ≤ 60 ∧ nano < 1000000000 then
    some ⟨hour, minute, second, nano, h⟩
  else none

def minutes (t : TimeOfDay) : Nat := 60 * t.hour + t.minute

def writeMinutes (t : TimeOfDay) : Text :=
  Text.padded 2 t.hour ++ ":".toList ++ Text.padded 2 t.minute

def write (t : TimeOfDay) : Text := t.writeMinutes ++ ":".toList ++ Text.padded 2 t.second

end TimeOfDay

structure Timestamp where
  date : Date
  time : TimeOfDay
  /-- The seconds that the clock is ahead of UTC. -/
  ahead : Int
  ahead_lt_day : ahead.natAbs < 86400
  deriving DecidableEq, Repr

namespace Timestamp

def epoch : Timestamp where
  date := ⟨1970, 1, 1, by decide⟩
  time := ⟨0, 0, 0, 0, by decide⟩
  ahead := 0
  ahead_lt_day := by decide

/-- The minutes that the clock is ahead of UTC, to the nearest whole number. -/
def offset (t : Timestamp) : Int :=
  if t.ahead < 0 then -(((t.ahead.natAbs + 30) / 60 : Nat) : Int)
  else ((t.ahead.natAbs + 30) / 60 : Nat)

/-- The seconds since the epoch, as a clock counts them that repeats second 59 in place of a leap
second. -/
def epochSeconds (t : Timestamp) : Int :=
  86400 * t.date.dayNumber + 60 * t.time.minutes + (min t.time.second 59 : Nat) - t.ahead

/-- The nanoseconds since the second began; a leap second goes on from second 59. -/
def nanos (t : Timestamp) : Nat := t.time.nano + 1000000000 * (t.time.second - 59)

def sameInstant (a b : Timestamp) : Bool := a.epochSeconds == b.epochSeconds && a.nanos == b.nanos

def firstYear : Int := -262143

def lastYear : Int := 262142

def isYear (year : Int) : Bool := firstYear ≤ year && year ≤ lastYear

/-- Whether the instant has a date in UTC that belongs to the calendar. -/
def inCalendar (t : Timestamp) : Bool :=
  match Date.of? firstYear 1 1, Date.of? lastYear 12 31 with
  | some first, some last =>
    86400 * first.dayNumber ≤ t.epochSeconds && t.epochSeconds < 86400 * (last.dayNumber + 1)
  | _, _ => false

/-- The parts of a timestamp as they are read, before it is known whether it exists. The offset is
read in minutes. -/
structure Parts where
  weekday : Option Nat := none
  year : Int
  month : Nat
  day : Nat
  hour : Nat
  minute : Nat
  second : Nat := 0
  nano : Nat := 0
  offset : Int := 0
  deriving DecidableEq, Repr

/-- The timestamp with these parts, if there is one and the day of the week is right. -/
def ofParts? (p : Parts) : Option Timestamp := do
  let date ← Date.of? p.year p.month p.day
  let time ← TimeOfDay.of? p.hour p.minute p.second p.nano
  if h : (60 * p.offset).natAbs < 86400 then
    let t : Timestamp := ⟨date, time, 60 * p.offset, h⟩
    if isYear p.year && t.inCalendar && p.weekday.all (· == date.weekday) then some t else none
  else none

/-- The sign of the offset, its hours, the separator and its minutes. A clock that is behind UTC by
less than half a minute has its sign too. -/
def writeOffset (separator : Text) (t : Timestamp) : Text :=
  (if t.ahead < 0 then '-' else '+') :: Text.padded 2 (t.offset.natAbs / 60) ++ separator ++
    Text.padded 2 (t.offset.natAbs % 60)

end Timestamp
end MailArchive
