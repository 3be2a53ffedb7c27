import MailArchive.Address
import MailArchive.Calendar.Timestamp

/-!
# MailArchive.Message

A message of an archive. What every message has is a field of its own; all other headers stay in
the order in which they were written, with their names as they were written. Names are compared
without regard to case. Whether a message is a reply depends on a header alone
(`Message.inReplyTo?`).
-/

namespace MailArchive

structure Header where
  name : Text
  value : Text
  deriving DecidableEq, Repr

namespace Header

/-- The value of the first header with a name. -/
def find? (name : Text) (hs : List Header) : Option Text :=
  (hs.find? fun h => Text.sameName h.name name).map Header.value

end Header

/-- The form in which identifiers are compared: without blanks around it, and only the first token
in angle brackets if there is one. -/
def normalizeId (t : Text) : Text :=
  let t := Text.trim t
  match Text.cut? ['<'] t with
  | none => t
  | some (_, rest) =>
    match Text.cut? ['>'] rest with
    | none => t
    | some (inner, _) => '<' :: inner ++ ['>']

structure Message where
  id : Text
  author : Address
  sender : Address
  recipients : List Address
  date : Timestamp
  subject : Text
  headers : List Header
  body : Text
  deriving DecidableEq, Repr

namespace Message

/-- A message of which only the identifier and the author are known. -/
def new (id : Text) (author : Address) : Message where
  id
  author
  sender := author
  recipients := []
  date := .epoch
  subject := []
  headers := []
  body := []

def withHeader (m : Message) (name value : Text) : Message :=
  { m with headers := m.headers ++ [⟨name, value⟩] }

def header? (m : Message) (name : Text) : Option Text := Header.find? name m.headers

def hasHeader (m : Message) (name : Text) : Bool := (m.header? name).isSome

/-- The identifier of the message that this one replies to. A message with a blank `In-Reply-To`
header is still a reply, to the empty identifier. -/
def inReplyTo? (m : Message) : Option Text := (m.header? "In-Reply-To".toList).map normalizeId

/-- Whether two messages are the same but for the clock that shows the date. -/
def same (a b : Message) : Bool :=
  a.date.sameInstant b.date && decide ({ a with date := b.date } = b)

end Message
end MailArchive
