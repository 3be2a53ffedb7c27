import MailArchive.Text.Basic

/-!
# MailArchive.Calendar.Date

Dates of the Gregorian calendar, extended to all years, with the number of days since 1 January
1970 and the day of the week. A `Date` exists only for a day that the calendar has.
-/

namespace MailArchive

/-- Whether a year has a 29 February. -/
def isLeapYear (year : Int) : Bool := year % 4 == 0 && (year % 100 != 0 || year % 400 == 0)

/-- The number of days of a month; zero if there is no such month. -/
def daysInMonth (year : Int) : Nat → Nat
  | 1 | 3 | 5 | 7 | 8 | 10 | 12 => 31
  | 4 | 6 | 9 | 11 => 30
  | 2 => if isLeapYear year then 29 else 28
  | _ => 0

structure Date where
  year : Int
  month : Nat
  day : Nat
  exists_day : 1 ≤ day ∧ day ≤ daysInMonth year month
  deriving DecidableEq, Repr

namespace Date

/-- The date with these parts, if the calendar has it. -/
def of? (year : Int) (month day : Nat) : Option Date :=
  if h : 1 ≤ day ∧ day ≤ daysInMonth year month then some ⟨year, month, day, h⟩ else none

/-- The number of days since 1 January 1970. Counted from March, so that the leap day is the last
day of its year. -/
def dayNumber (d : Date) : Int :=
  let year := if d.month ≤ 2 then d.year - 1 else d.year
  let month := (d.month + 9) % 12
  365 * year + year / 4 - year / 100 + year / 400 + ((153 * month + 2) / 5 + d.day : Nat) - 719469

def weekdayNames : List Text :=
  ["Mon".toList, "Tue".toList, "Wed".toList, "Thu".toList, "Fri".toList, "Sat".toList,
    "Sun".toList]

def monthNames : List Text :=
  ["Jan".toList, "Feb".toList, "Mar".toList, "Apr".toList, "May".toList, "Jun".toList,
    "Jul".toList, "Aug".toList, "Sep".toList, "Oct".toList, "Nov".toList, "Dec".toList]

/-- The place of the date's day in the week, which begins with Monday. -/
def weekday (d : Date) : Nat := ((d.dayNumber + 3) % 7).toNat

def weekdayName (d : Date) : Text := weekdayNames[d.weekday]?.getD []

def monthName (d : Date) : Text := monthNames[d.month - 1]?.getD []

/-- A year with at least four digits, and with its sign if it is not between 0 and 9999. -/
def writeYear (year : Int) : Text :=
  if year < 0 then '-' :: Text.padded 4 year.natAbs
  else if 9999 < year then '+' :: Text.padded 4 year.natAbs
  else Text.padded 4 year.natAbs

def write (d : Date) : Text :=
  writeYear d.year ++ "-".toList ++ Text.padded 2 d.month ++ "-".toList ++ Text.padded 2 d.day

end Date
end MailArchive
