import MailArchive.Calendar.Reading
import MailArchive.Message.Envelope
import MailArchive.Message.HeaderBlock

/-!
# MailArchive.Message.Parser

Reading a message from its text. The text is taken apart into a `Draft`, from which the fields of
the message follow; only `Message-Id` has to be there (`Message.parse_eq_ok_iff`). A `MessageParser`
can be any function from texts to messages; `MessageParser.standard` is the one for mail.
-/

namespace MailArchive

inductive Malformation where
  | noHeaderBlock
  | missingMessageId
  | other (reason : Text)
  deriving DecidableEq, Repr

def Malformation.reason : Malformation → Text
  | .noHeaderBlock => "no header block".toList
  | .missingMessageId => "missing Message-Id header".toList
  | .other reason => reason

/-- The text of a message, taken apart. -/
structure Draft where
  envelope : Option Envelope
  headers : List Header
  /-- The lines among the headers that are no headers. -/
  skipped : List Text
  body : Text
  deriving DecidableEq, Repr

namespace Draft

/-- Takes a text apart. There has to be something in front of the first empty line. -/
def ofText? (t : Text) : Option Draft :=
  let (envelope, rest) := Envelope.split t
  let (block, body) := Header.splitBlock rest
  if (Text.trim block).isEmpty then none
  else some ⟨envelope, Header.unfold block, Header.skipped block, body⟩

def header? (d : Draft) (name : String) : Option Text := Header.find? name.toList d.headers

/-- The identifier, empty if there is none. -/
def id (d : Draft) : Text := ((d.header? "message-id").map normalizeId).getD []

/-- The author: from the header, else from the envelope. -/
def author (d : Draft) : Address :=
  match d.header? "from", d.envelope with
  | some value, _ => Address.parse value
  | none, some envelope => Address.parse envelope.sender
  | none, none => .empty

/-- The sender, who is the author if nothing else is said. -/
def sender (d : Draft) : Address :=
  match d.header? "sender" with
  | some value => Address.parse value
  | none => d.author

/-- The recipients, in the order in which they are written. -/
def recipients (d : Draft) : List Address :=
  match d.header? "to" with
  | some value => Address.parseList value
  | none => []

/-- The dates of the header and of the envelope, as they are written. -/
def dates (d : Draft) : List Text :=
  (d.header? "date").toList ++ (d.envelope.map Envelope.date).toList

/-- The first date that can be read, else the epoch. -/
def date (d : Draft) : Timestamp := (d.dates.findSome? Timestamp.read?).getD .epoch

/-- What there is to report about the dates that are tried, up to the first that can be read. -/
def dateNotices (d : Draft) : List Notice :=
  (d.dates.takeWhile fun date => (Timestamp.read? date).isNone).flatMap Timestamp.readNotices

def toMessage (d : Draft) : Message where
  id := d.id
  author := d.author
  sender := d.sender
  recipients := d.recipients
  date := d.date
  subject := (d.header? "subject").getD []
  headers := d.headers.filter (!·.isLifted)
  body := d.body

end Draft

namespace Message

def parse (t : Text) : Except Malformation Message :=
  match Draft.ofText? t with
  | none => .error .noHeaderBlock
  | some d => if d.id.isEmpty then .error .missingMessageId else .ok d.toMessage

theorem parse_eq_ok_iff {t : Text} {m : Message} :
    parse t = .ok m ↔ ∃ d, Draft.ofText? t = some d ∧ d.id ≠ [] ∧ m = d.toMessage := by
  unfold parse
  constructor
  · intro h
    split at h
    · cases h
    · rename_i d hd
      split at h
      · cases h
      · rename_i hid
        cases h
        exact ⟨d, hd, by simpa using hid, rfl⟩
  · rintro ⟨d, hd, hid, rfl⟩
    simp [hd, hid]

/-- What `parse` leaves out or cannot read. -/
def parseNotices (t : Text) : List Notice :=
  match Draft.ofText? t with
  | none => []
  | some d =>
    d.skipped.map .headerLineSkipped ++ if d.id.isEmpty then [] else d.dateNotices

end Message

structure MessageParser where
  parse : Text → Except Malformation Message
  /-- What there is to report about the reading of a text. -/
  notices : Text → List Notice := fun _ => []

def MessageParser.standard : MessageParser := ⟨Message.parse, Message.parseNotices⟩

end MailArchive
