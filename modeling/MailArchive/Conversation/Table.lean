import MailArchive.Conversation

/-!
# MailArchive.Conversation.Table

A conversation kept as a table. The messages stand in it in the order in which they came and never
move. Each one has the place of the message it replies to and the places of its replies, and the
identifiers have the places of their messages (`Table.place?`). Adding a reply writes all three of
them (`Table.insert`); nothing in the table itself keeps them together.
-/

namespace MailArchive
namespace Conversation

/-- A message with the places of its parent and of its replies. -/
structure Entry where
  message : Message
  parent : Option Nat
  children : List Nat
  deriving DecidableEq, Repr

structure Table where
  entries : List Entry
  /-- The identifiers with the places of their messages. -/
  places : List (Text × Nat)
  deriving DecidableEq, Repr

namespace Table

def new (root : Message) : Table := ⟨[⟨root, none, []⟩], [(root.id, 0)]⟩

def size (t : Table) : Nat := t.entries.length

def place? (t : Table) (id : Text) : Option Nat := t.places.lookup id

def contains (t : Table) (id : Text) : Bool := (t.place? id).isSome

def message? (t : Table) (place : Nat) : Option Message := t.entries[place]?.map Entry.message

/-- The entry of the message with an identifier. -/
def entry? (t : Table) (id : Text) : Option Entry := (t.place? id).bind fun i => t.entries[i]?

def get? (t : Table) (id : Text) : Option Message := (t.entry? id).map Entry.message

/-- The direct replies to the message with an identifier. -/
def replies (t : Table) (id : Text) : List Message :=
  ((t.entry? id).map fun e => e.children.filterMap t.message?).getD []

/-- The message to which the message with an identifier replies. -/
def parent? (t : Table) (id : Text) : Option Message :=
  ((t.entry? id).bind Entry.parent).bind t.message?

/-- The table with one more message at its end, as the last reply to the one at a place. -/
def insert (t : Table) (parent : Nat) (reply : Message) : Table where
  entries :=
    (t.entries ++ [Entry.mk reply (some parent) []]).modify parent fun e =>
      { e with children := e.children ++ [t.size] }
  places := (reply.id, t.size) :: t.places

/-- The table with one more reply to a message in it, if the reply's identifier is new. -/
def add? (t : Table) (parent : Text) (reply : Message) : Option Table :=
  match t.place? parent with
  | none => none
  | some i => if t.contains reply.id then none else some (t.insert i reply)

/-- The table after a reply has been offered to it, and the reply if it is handed back. -/
def offer (t : Table) (parent : Text) (reply : Message) : Table × Option Message :=
  match t.add? parent reply with
  | some t => (t, none)
  | none => (t, some reply)

end Table
end Conversation
end MailArchive
