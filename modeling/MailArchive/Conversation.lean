import MailArchive.Message

/-!
# MailArchive.Conversation

A conversation is a message with the conversations that reply to it, in the order in which the
replies came. Messages are found by their identifiers, which `add?` keeps distinct: it refuses a
reply with an identifier that is taken. The functions over a conversation come in pairs, one for a
conversation and one for a list of replies.
-/

namespace MailArchive

/-- A message, and under it what its replies begin, in the order in which they were added. -/
inductive Conversation where
  | node (message : Message) (replies : List Conversation)
  deriving Repr

namespace Conversation

/-- A conversation in which nobody has replied. -/
def new (root : Message) : Conversation := node root []

/-- The message that began the conversation. -/
def first : Conversation → Message
  | node m _ => m

/-- The conversations that reply to the first message. -/
def branches : Conversation → List Conversation
  | node _ rs => rs

mutual

/-- The messages, each before its replies. -/
def messages : Conversation → List Message
  | node m rs => m :: messagesIn rs

def messagesIn : List Conversation → List Message
  | [] => []
  | c :: cs => messages c ++ messagesIn cs

end

mutual

/-- The messages with their depths, where the first one has the given depth. -/
def outline (depth : Nat) : Conversation → List (Nat × Message)
  | node m rs => (depth, m) :: outlineIn (depth + 1) rs

def outlineIn (depth : Nat) : List Conversation → List (Nat × Message)
  | [] => []
  | c :: cs => outline depth c ++ outlineIn depth cs

end

def size (c : Conversation) : Nat := c.messages.length

/-- The identifiers of the messages, each before those of its replies. -/
def ids (c : Conversation) : List Text := c.messages.map Message.id

mutual

def contains (id : Text) : Conversation → Bool
  | node m rs => m.id == id || containsIn id rs

def containsIn (id : Text) : List Conversation → Bool
  | [] => false
  | c :: cs => contains id c || containsIn id cs

end

mutual

theorem contains_iff {id : Text} {c : Conversation} : c.contains id ↔ id ∈ c.ids := by
  cases c with
  | node m rs =>
    simp only [contains, ids, messages, Bool.or_eq_true, beq_iff_eq, containsIn_iff, List.map_cons,
      List.mem_cons, List.mem_map]
    exact or_congr_left eq_comm

theorem containsIn_iff {id : Text} {cs : List Conversation} :
    containsIn id cs ↔ ∃ m ∈ messagesIn cs, m.id = id := by
  cases cs with
  | nil => simp [containsIn, messagesIn]
  | cons c cs =>
    simp [containsIn, messagesIn, contains_iff, containsIn_iff, ids, or_and_right, exists_or]

end

mutual

/-- The part of the conversation that begins with the message with an identifier. -/
def find? (id : Text) : Conversation → Option Conversation
  | node m rs => if m.id = id then some (node m rs) else findIn? id rs

def findIn? (id : Text) : List Conversation → Option Conversation
  | [] => none
  | c :: cs => (find? id c).or (findIn? id cs)

end

def get? (c : Conversation) (id : Text) : Option Message := (c.find? id).map first

/-- The direct replies to the message with an identifier. -/
def replies (c : Conversation) (id : Text) : List Message :=
  ((c.find? id).map fun part => part.branches.map first).getD []

mutual

/-- The message to which the message with an identifier replies. -/
def parent? (id : Text) : Conversation → Option Message
  | node m rs =>
    if m.id = id then none
    else if rs.any (·.first.id == id) then some m
    else parentIn? id rs

def parentIn? (id : Text) : List Conversation → Option Message
  | [] => none
  | c :: cs => (parent? id c).or (parentIn? id cs)

end

mutual

/-- How many replies lead from the first message to the one with an identifier. -/
def depth? (id : Text) : Conversation → Option Nat
  | node m rs => if m.id = id then some 0 else (depthIn? id rs).map (· + 1)

def depthIn? (id : Text) : List Conversation → Option Nat
  | [] => none
  | c :: cs => (depth? id c).or (depthIn? id cs)

end

mutual

/-- The conversation with one more reply at the end of those to a message. -/
def insert (parent : Text) (reply : Message) : Conversation → Conversation
  | node m rs =>
    let rs := insertIn parent reply rs
    node m (if m.id = parent then rs ++ [new reply] else rs)

def insertIn (parent : Text) (reply : Message) : List Conversation → List Conversation
  | [] => []
  | c :: cs => insert parent reply c :: insertIn parent reply cs

end

/-- The conversation with one more reply to a message in it, if the reply's identifier is new. -/
def add? (c : Conversation) (parent : Text) (reply : Message) : Option Conversation :=
  if c.contains parent && !c.contains reply.id then some (c.insert parent reply) else none

/-- The conversation after a reply has been offered to it, and the reply if it is handed back. -/
def offer (c : Conversation) (parent : Text) (reply : Message) : Conversation × Option Message :=
  match c.add? parent reply with
  | some c => (c, none)
  | none => (c, some reply)

end Conversation
end MailArchive
