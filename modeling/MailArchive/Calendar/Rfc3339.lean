import MailArchive.Calendar.Field

/-!
# MailArchive.Calendar.Rfc3339

Dates as `2024-01-02T10:30:00+01:00`, with a fraction of a second where there is one. `read?` takes
this form with every field at its full width; `readRelaxed?` allows blanks between the fields,
fewer digits, and years with a sign.
-/

namespace MailArchive
namespace Rfc3339

/-- The fraction of a second in three, six or nine digits, as few as are exact; nothing for none. -/
def writeFraction (nano : Nat) : Text :=
  if nano = 0 then []
  else if nano % 1000000 = 0 then '.' :: Text.padded 3 (nano / 1000000)
  else if nano % 1000 = 0 then '.' :: Text.padded 6 (nano / 1000)
  else '.' :: Text.padded 9 nano

def writeLocal (t : Timestamp) : Text :=
  t.date.write ++ "T".toList ++ t.time.write ++ writeFraction t.time.nano

def write (t : Timestamp) : Text := writeLocal t ++ Timestamp.writeOffset [':'] t

/-- A timestamp with `Z` for a clock that shows UTC. -/
def writeZulu (t : Timestamp) : Text :=
  if t.ahead = 0 then writeLocal t ++ ['Z'] else write t

/-- The parts of a date with every field at its full width. -/
def parts? (t : Text) : Option Timestamp.Parts := do
  let (year, t) ← Field.number? 4 4 t
  let t ← Field.after? '-' t
  let (month, t) ← Field.number? 2 2 t
  let t ← Field.after? '-' t
  let (day, t) ← Field.number? 2 2 t
  let t ← Field.afterDate? t
  let (hour, t) ← Field.number? 2 2 t
  let t ← Field.after? ':' t
  let (minute, t) ← Field.number? 2 2 t
  let t ← Field.after? ':' t
  let (second, t) ← Field.number? 2 2 t
  let (nano, t) ← Field.fraction? t
  let (offset, t) ← zone? t
  if t.isEmpty then some { year := year, month, day, hour, minute, second, nano, offset } else none
where
  /-- An offset with a colon, or `Z`. -/
  zone? : Text → Option (Int × Text)
    | 'Z' :: t => some (0, t)
    | 'z' :: t => some (0, t)
    | t => Field.offset? (Field.after? ':') t

def read? (t : Text) : Option Timestamp := (parts? t).bind Timestamp.ofParts?

/-- A number of one or two digits behind any blanks. -/
def short? (t : Text) : Option (Nat × Text) := Field.number? 1 2 (Text.trimStart t)

/-- What follows a character behind any blanks. -/
def after? (c : Char) (t : Text) : Option Text := Field.after? c (Text.trimStart t)

/-- An offset, in which blanks and colons may stand between hours and minutes, or `Z` or `UTC`. -/
def relaxedZone? (t : Text) : Option (Int × Text) :=
  if Text.sameName (t.take 3) "UTC".toList then some (0, t.drop 3)
  else
    match t with
    | 'Z' :: t => some (0, t)
    | 'z' :: t => some (0, t)
    | t => Field.offset? (fun t => some (t.dropWhile fun c => c == ':' || Text.isBlank c)) t

/-- The parts of a date with blanks between its fields and short fields. -/
def relaxedParts? (t : Text) : Option Timestamp.Parts := do
  let (year, t) ← Field.signedNumber? 4 (Text.trimStart t)
  let t ← after? '-' t
  let (month, t) ← short? t
  let t ← after? '-' t
  let (day, t) ← short? t
  let t ← Field.afterDate? t
  let (hour, t) ← short? t
  let t ← after? ':' t
  let (minute, t) ← short? t
  let t ← after? ':' t
  let (second, t) ← short? t
  let (nano, t) ← Field.fraction? t
  let (offset, t) ← relaxedZone? (Text.trimStart t)
  if (Text.trimStart t).isEmpty then
    some { year, month, day, hour, minute, second, nano, offset }
  else none

def readRelaxed? (t : Text) : Option Timestamp := (relaxedParts? t).bind Timestamp.ofParts?

end Rfc3339
end MailArchive
