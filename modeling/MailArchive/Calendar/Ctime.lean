import MailArchive.Calendar.Field

/-!
# MailArchive.Calendar.Ctime

Dates as the first line of a message in an archive carries them, `Tue Jan 02 10:30:00 2024`. There
is no offset in them: reading takes the clock to show UTC.
-/

namespace MailArchive
namespace Ctime

/-- The date and time that the timestamp's clock shows. -/
def write (t : Timestamp) : Text :=
  t.date.weekdayName ++ " ".toList ++ t.date.monthName ++ " ".toList ++ Text.padded 2 t.date.day ++
    " ".toList ++ t.time.write ++ " ".toList ++ Date.writeYear t.date.year

/-- A number of one or two digits behind any blanks. -/
def short? (t : Text) : Option (Nat × Text) := Field.number? 1 2 (Text.trimStart t)

/-- The parts of a timestamp that is written in this form from its first to its last character. -/
def parts? (t : Text) : Option Timestamp.Parts := do
  let (weekday, t) ← Field.name? Date.weekdayNames t
  let (month, t) ← Field.name? Date.monthNames (Text.trimStart t)
  let (day, t) ← short? t
  let (hour, t) ← short? t
  let t ← Field.after? ':' t
  let (minute, t) ← short? t
  let t ← Field.after? ':' t
  let (second, t) ← short? t
  let (year, t) ← Field.signedNumber? 4 (Text.trimStart t)
  if t.isEmpty then
    some { weekday := some weekday, year, month := month + 1, day, hour, minute, second }
  else none

def read? (t : Text) : Option Timestamp := (parts? t).bind Timestamp.ofParts?

end Ctime
end MailArchive
