import MailArchive.Calendar.Ctime
import MailArchive.Calendar.Rfc2822
import MailArchive.Calendar.Rfc3339
import MailArchive.Calendar.Tolerant
import MailArchive.Notice

/-!
# MailArchive.Calendar.Reading

The dates of old mail come in many forms. The strict ones are tried first, so a date that has one
of them never depends on the tolerant reader.
-/

namespace MailArchive
namespace Timestamp

/-- The forms in which dates are read, in the order in which they are tried. -/
def readers : List (Text → Option Timestamp) :=
  [Rfc2822.read?, Rfc3339.read?, Ctime.read?, Tolerant.read?]

def read? (t : Text) : Option Timestamp := readers.findSome? fun read => read (Text.trim t)

/-- What there is to report about the reading of a date: that it cannot be read, unless it is
blank. -/
def readNotices (t : Text) : List Notice :=
  if (read? t).isNone && !(Text.trim t).isEmpty then [.dateUnreadable (Text.trim t)] else []

end Timestamp
end MailArchive
