import MailArchive.Json.Record
import MailArchive.Json.Write

/-!
# MailArchive.Report

What there is to tell about the conversations of an archive: the messages as an outline, and their
numbers; each for people and as JSON.
-/

namespace MailArchive

/-! ### Sizes -/

namespace Report

/-- The names of sizes, each 1024 times the one before. -/
def units : List Text :=
  ["B".toList, "KiB".toList, "MiB".toList, "GiB".toList, "TiB".toList, "PiB".toList, "EiB".toList]

/-- A quotient, rounded to the nearest number; a half goes to the even one. -/
def rounded (n divisor : Nat) : Nat :=
  let q := n / divisor
  let r := 2 * (n % divisor)
  if divisor < r ∨ (r = divisor ∧ q % 2 = 1) then q + 1 else q

/-- A quotient with two decimals, or with none if it is whole. -/
def quotient (n divisor : Nat) : Text :=
  if n % divisor = 0 then Text.ofNat (n / divisor)
  else
    let hundredths := rounded (100 * n) divisor
    Text.ofNat (hundredths / 100) ++ ".".toList ++ Text.padded 2 (hundredths % 100)

/-- A size in the first of the units in which it is less than 1024, where the first of them is
`divisor` bytes. -/
def sizeIn (bytes divisor : Nat) : List Text → Text
  | [] => []
  | unit :: larger =>
    if bytes < 1024 * divisor ∨ larger.isEmpty then
      quotient bytes divisor ++ " ".toList ++ unit
    else sizeIn bytes (1024 * divisor) larger

def size (bytes : Nat) : Text := sizeIn bytes 1 units

/-! ### Conversations -/

/-- A line of text with its end. -/
def line (t : Text) : Text := t ++ "\n".toList

def outlineLine (depth : Nat) (m : Message) : Text :=
  line <|
    List.replicate (2 * depth) ' ' ++ m.date.date.write ++ " ".toList ++
      m.date.time.writeMinutes ++ "  ".toList ++ m.author.display ++ "  ".toList ++ m.subject

/-- The messages of a conversation, each deeper than the one it replies to, and an empty line. -/
def outline (c : Conversation) : Text :=
  ((c.outline 0).map fun (depth, m) => outlineLine depth m).flatten ++ line []

def outlines (cs : List Conversation) : Text := (cs.map outline).flatten

def droppedLine (u : Unresolved) : Text :=
  line ("dropped ".toList ++ u.id ++ " (in reply to ".toList ++ u.target ++ ")".toList)

/-- The conversations and the replies that are in none. -/
def threadsJson (o : Threading.Outcome) : Json :=
  .object [("conversations".toList, .array (o.conversations.map Conversation.toJson)),
    ("dropped".toList, .array (o.unresolved.map Unresolved.toJson))]

end Report

/-! ### Numbers -/

structure Statistics where
  file : Text
  bytes : Nat
  conversations : Nat
  threadedMessages : Nat
  /-- The messages in the largest conversation. -/
  largestConversation : Nat
  droppedReplies : Nat
  deriving DecidableEq, Repr

namespace Statistics

/-- The numbers of an archive with this text and these conversations. -/
def ofOutcome (file archive : Text) (o : Threading.Outcome) : Statistics where
  file
  bytes := Text.byteLength archive
  conversations := o.conversations.length
  threadedMessages := (o.conversations.map Conversation.size).foldl (· + ·) 0
  largestConversation := (o.conversations.map Conversation.size).foldl max 0
  droppedReplies := o.unresolved.length

def write (s : Statistics) : Text :=
  Report.line ("File:                  ".toList ++ s.file) ++
    Report.line ("Size:                  ".toList ++ Report.size s.bytes) ++
    Report.line ("Conversations:         ".toList ++ Text.ofNat s.conversations) ++
    Report.line ("Threaded messages:     ".toList ++ Text.ofNat s.threadedMessages) ++
    Report.line ("Largest conversation:  ".toList ++ Text.ofNat s.largestConversation) ++
    Report.line ("Dropped replies:       ".toList ++ Text.ofNat s.droppedReplies)

def toJson (s : Statistics) : Json :=
  .object [("bytes".toList, .ofNat s.bytes), ("conversations".toList, .ofNat s.conversations),
    ("dropped_replies".toList, .ofNat s.droppedReplies), ("file".toList, .string s.file),
    ("largest_conversation".toList, .ofNat s.largestConversation),
    ("threaded_messages".toList, .ofNat s.threadedMessages)]

end Statistics
end MailArchive
