import MailArchive.Archive
import MailArchive.Calendar.Rfc3339
import MailArchive.Json.Value

/-!
# MailArchive.Json.Record

The JSON form of messages, conversations, replies that are in no conversation, and options. Members
are written in the order of their names. A record that is read may also be an array of its fields
in the order of its type.
-/

namespace MailArchive

/-! ### Writing -/

def Address.toJson (a : Address) : Json :=
  .object [("address".toList, .string a.mailbox), ("display_name".toList, .string a.name)]

def Header.toJson (h : Header) : Json := .array [.string h.name, .string h.value]

namespace Message

def membersBefore (m : Message) : List (Text × Json) :=
  [("author".toList, m.author.toJson), ("body".toList, .string m.body),
    ("date".toList, .string (Rfc3339.writeZulu m.date)),
    ("headers".toList, .array (m.headers.map Header.toJson)), ("id".toList, .string m.id),
    ("recipients".toList, .array (m.recipients.map Address.toJson))]

def membersAfter (m : Message) : List (Text × Json) :=
  [("sender".toList, m.sender.toJson), ("subject".toList, .string m.subject)]

def toJson (m : Message) : Json := .object (m.membersBefore ++ m.membersAfter)

end Message

namespace Conversation

mutual

/-- A message with its replies nested in it. -/
def toJson : Conversation → Json
  | node m rs =>
    .object (m.membersBefore ++ [("replies".toList, .array (toJsonIn rs))] ++ m.membersAfter)

def toJsonIn : List Conversation → List Json
  | [] => []
  | c :: cs => toJson c :: toJsonIn cs

end

end Conversation

def Reason.name : Reason → Text
  | .missingParent => "missing-parent".toList
  | .parentNotInConversation => "parent-not-in-conversation".toList

def Unresolved.toJson (u : Unresolved) : Json :=
  .object [("in_reply_to".toList, .string u.target), ("message_id".toList, .string u.id),
    ("reason".toList, .string u.reason.name)]

/-! ### Reading -/

def Address.ofJson? (j : Json) : Option Address := do
  match ← j.fields? ["display_name".toList, "address".toList] with
  | [name, mailbox] => some ⟨← (← name).text?, ← (← mailbox).text?⟩
  | _ => none

def Header.ofJson? (j : Json) : Option Header := do
  match ← j.items? with
  | [name, value] => some ⟨← name.text?, ← value.text?⟩
  | _ => none

/-- A list in which every item can be read. -/
def Json.list? {α : Type} (read : Json → Option α) (j : Json) : Option (List α) :=
  j.items?.bind (·.mapM read)

namespace Message

def fieldNames : List Text :=
  ["id".toList, "author".toList, "sender".toList, "recipients".toList, "date".toList,
    "subject".toList, "headers".toList, "body".toList]

/-- The message that a record stands for. Every field has to be there. -/
def ofJson? (j : Json) : Option Message := do
  match ← j.fields? fieldNames with
  | [id, author, sender, recipients, date, subject, headers, body] =>
    some {
      id := ← (← id).text?
      author := ← Address.ofJson? (← author)
      sender := ← Address.ofJson? (← sender)
      recipients := ← (← recipients).list? Address.ofJson?
      date := ← Rfc3339.readRelaxed? (← (← date).text?)
      subject := ← (← subject).text?
      headers := ← (← headers).list? Header.ofJson?
      body := ← (← body).text? }
  | _ => none

end Message

namespace Resolution

def name : Resolution → Text
  | .singlePass => "single-pass".toList
  | .fixedPoint => "fixed-point".toList

def ofName? (t : Text) : Option Resolution := [singlePass, fixedPoint].find? (·.name = t)

/-- The resolution with a name; the name may be the only member of an object, with nothing as its
value. -/
def ofJson? : Json → Option Resolution
  | .string t => ofName? t
  | .object [(t, .null)] => ofName? t
  | _ => none

end Resolution

/-- The options that a record stands for. No field has to be there. -/
def ArchiveOptions.ofJson? (j : Json) : Option ArchiveOptions := do
  match ← j.fields? ["resolution".toList] with
  | [none] => some {}
  | [some resolution] => some ⟨← Resolution.ofJson? resolution⟩
  | _ => none

end MailArchive
