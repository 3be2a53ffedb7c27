import MailArchive.Calendar.Ctime
import MailArchive.Calendar.Rfc2822
import MailArchive.EncodedWord
import MailArchive.FromLine
import MailArchive.Message

/-!
# MailArchive.Fragment

The form in which a message stands in an archive: an empty line, the envelope line, the headers, an
empty line and the body. What is outside ASCII becomes encoded words, and lines of the body that
would start a message are escaped. A fragment can be put at the end of an archive as it is.
-/

namespace MailArchive

structure FormatOptions where
  /-- Whether the at sign of author and sender is spelled out. -/
  obfuscateAddresses : Bool := true
  deriving DecidableEq, Repr

namespace Fragment

def headerLine (name value : Text) : Text := name ++ ": ".toList ++ value ++ "\n".toList

def person (options : FormatOptions) (a : Address) : Text :=
  if options.obfuscateAddresses then a.obfuscated else a.toHeader

/-- The line that starts the message in an archive. -/
def envelopeLine (m : Message) : Text :=
  FromLine.separator ++ m.sender.mailbox ++ "  ".toList ++ Ctime.write m.date ++ "\n".toList

/-- The headers of a message, with the date as it is written. The sender is left out if it is the
author. -/
def headerLines (options : FormatOptions) (m : Message) (date : Text) : List Text :=
  [headerLine "From".toList (person options m.author)] ++
    (if m.author = m.sender then []
      else [headerLine "Sender".toList (person options m.sender)]) ++
    (if m.recipients.isEmpty then []
      else
        [headerLine "To".toList (Text.join ", ".toList (m.recipients.map Address.toHeader))]) ++
    [headerLine "Date".toList date, headerLine "Subject".toList m.subject,
      headerLine "Message-Id".toList m.id] ++
    m.headers.map fun h => headerLine h.name h.value

/-- The fragment of a message, as yet without encoded words. -/
def plain (options : FormatOptions) (m : Message) (date : Text) : Text :=
  "\n".toList ++ envelopeLine m ++ (headerLines options m date).flatten ++ "\n".toList ++
    FromLine.escape m.body ++ "\n".toList

/-- The fragment of a message. There is none if the year of the date does not have four digits. -/
def format? (options : FormatOptions) (m : Message) : Option Text :=
  (Rfc2822.write? m.date).map fun date => EncodedWord.encode (plain options m date)

end Fragment
end MailArchive
