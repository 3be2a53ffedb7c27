import MailArchive.Calendar.Field

/-!
# MailArchive.Calendar.Rfc2822

Dates as mail headers carry them, `Tue, 2 Jan 2024 10:30:00 +0100`. Reading takes the old forms
too: no day name, no seconds, years of two or three digits, named zones, and comments at the end.
-/

namespace MailArchive
namespace Rfc2822

/-- The date in the form that mail headers carry, which has four digits for the year. -/
def write? (t : Timestamp) : Option Text :=
  if 0 ≤ t.date.year ∧ t.date.year ≤ 9999 then
    some (t.date.weekdayName ++ ", ".toList ++ Text.ofNat t.date.day ++ " ".toList ++
      t.date.monthName ++ " ".toList ++ Text.padded 4 t.date.year.natAbs ++ " ".toList ++
      t.time.write ++ " ".toList ++ Timestamp.writeOffset [] t)
  else none

/-- The day name and its comma, if there is one. -/
def dayName? (t : Text) : Option (Option Nat × Text) :=
  match Field.name? Date.weekdayNames t with
  | none => some (none, t)
  | some (i, t) => (Field.after? ',' t).map fun t => (some i, t)

/-- A year of two digits is one of 1950 to 2049, a year of three digits counts from 1900. -/
def fullYear (digits year : Nat) : Nat :=
  if digits = 2 then (if year ≤ 49 then year + 2000 else year + 1900)
  else if digits = 3 then year + 1900
  else year

/-- The seconds and the colon before them, which may be missing. A colon that no seconds follow is
an error. -/
def seconds? (t : Text) : Option (Nat × Text) :=
  match Text.trimStart t with
  | ':' :: rest => Field.number? 2 2 rest
  | _ => some (0, t)

/-- The zones that have a name, with their hours from UTC. -/
def zones : List (Text × Int) :=
  [("gmt".toList, 0), ("ut".toList, 0), ("z".toList, 0), ("edt".toList, -4), ("est".toList, -5),
    ("cdt".toList, -5), ("cst".toList, -6), ("mdt".toList, -6), ("mst".toList, -7),
    ("pdt".toList, -7), ("pst".toList, -8)]

/-- The offset of a named zone in minutes. A single letter is a military zone, taken as UTC; there
is none for `J`. -/
def namedZone? (name : Text) : Option Int :=
  match zones.find? fun zone => Text.sameName zone.1 name with
  | some zone => some (60 * zone.2)
  | none => if name.length = 1 ∧ name ≠ ['j'] ∧ name ≠ ['J'] then some 0 else none

def zone? (t : Text) : Option (Int × Text) :=
  match t.takeWhile Char.isAlpha with
  | [] => if t.head? = some Field.minusSign then none else Field.offset? some t
  | name => (namedZone? name).map fun offset => (offset, t.drop name.length)

/-- Whether a text holds only comments and blanks, with as many comments open as `depth` says. A
comment stands in parentheses, which nest; a backslash takes the meaning from what follows it. -/
def onlyComments : Nat → Text → Bool
  | depth, [] => depth == 0
  | 0, c :: t =>
    if c = '(' then onlyComments 1 t else if Text.isBlank c then onlyComments 0 t else false
  | depth + 1, c :: t =>
    if c = '\\' then
      match t with
      | [] => false
      | _ :: t => onlyComments (depth + 1) t
    else if c = '(' then onlyComments (depth + 2) t
    else if c = ')' then onlyComments depth t
    else onlyComments (depth + 1) t

def parts? (t : Text) : Option Timestamp.Parts := do
  let (weekday, t) ← dayName? (Text.trimStart t)
  let (day, t) ← Field.number? 1 2 (Text.trimStart t)
  let t ← Field.afterBlanks? t
  let (month, t) ← Field.name? Date.monthNames t
  let t ← Field.afterBlanks? t
  let (year, afterYear) ← Field.longNumber? 2 t
  let year := fullYear (t.length - afterYear.length) year
  let t ← Field.afterBlanks? afterYear
  let (hour, t) ← Field.number? 2 2 t
  let t ← Field.after? ':' (Text.trimStart t)
  let (minute, t) ← Field.number? 2 2 (Text.trimStart t)
  let (second, t) ← seconds? t
  let t ← Field.afterBlanks? t
  let (offset, t) ← zone? t
  if onlyComments 0 t then
    some { weekday, year, month := month + 1, day, hour, minute, second, offset }
  else none

def read? (t : Text) : Option Timestamp := (parts? t).bind Timestamp.ofParts?

end Rfc2822
end MailArchive
