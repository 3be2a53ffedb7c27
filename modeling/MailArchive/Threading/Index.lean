import MailArchive.Conversation.Table
import MailArchive.Threading

/-!
# MailArchive.Threading.Index

Building conversations with tables and a register. The register has, for each identifier that is in
a conversation, the place of that conversation, so a reply is added without looking for its parent
in one conversation after the other (`Index.attach?`). Nothing in an index itself keeps its tables
and its register together. Events and notices stand in the order in which they are given.
-/

namespace MailArchive
namespace Threading

/-! ### Tables and register -/

structure Index where
  tables : List Conversation.Table := []
  /-- The identifiers with the places of their conversations, the last one that was added in
  front. -/
  homes : List (Text × Nat) := []
  deriving DecidableEq, Repr

/-- What became of a reply that was to be attached. -/
inductive Attachment where
  | attached (index : Index)
  /-- The register does not have the message to which it replies. -/
  | handedBack
  /-- The table refuses it. -/
  | rejected
  deriving DecidableEq, Repr

namespace Index

/-- The place of the conversation in which an identifier is. -/
def home? (x : Index) (id : Text) : Option Nat := x.homes.lookup id

/-- The index with one more conversation, which the message begins. -/
def start (x : Index) (m : Message) : Index where
  tables := x.tables ++ [.new m]
  homes := (m.id, x.tables.length) :: x.homes

/-- Adds a reply to the conversation in which the register has the message to which it replies.
There is no answer if no conversation is at that place. -/
def attach? (x : Index) (r : Reply) : Option Attachment :=
  match x.home? r.target with
  | none => some .handedBack
  | some i =>
    match x.tables[i]? with
    | none => none
    | some t =>
      match t.add? r.target r.message with
      | none => some .rejected
      | some t => some (.attached ⟨x.tables.set i t, (r.message.id, i) :: x.homes⟩)

end Index

/-! ### Sorting the messages -/

/-- The messages that have been looked at for the first time, and what is known by then. -/
structure Sieve where
  known : List Text := []
  unique : List Message := []
  notices : List Notice := []

def Sieve.step (s : Sieve) (m : Message) : Sieve :=
  if m.id ∈ s.known then { s with notices := s.notices ++ [.duplicateIgnored m.id] }
  else { s with known := m.id :: s.known, unique := s.unique ++ [m] }

/-- The conversations that have been begun, and the replies that are to be attached to them. -/
structure Planting where
  index : Index := {}
  replies : List Reply := []

def Planting.step (p : Planting) (m : Message) : Planting :=
  match m.inReplyTo? with
  | some target => { p with replies := p.replies ++ [⟨target, m⟩] }
  | none => { p with index := p.index.start m }

/-! ### Attaching the replies -/

structure Builder where
  index : Index
  pending : List Reply := []
  events : List Unresolved := []
  notices : List Notice := []

namespace Builder

/-- Tries a reply; it is pending if the register does not have the message to which it replies. -/
def attach? (b : Builder) (r : Reply) : Option Builder :=
  match b.index.attach? r with
  | none => none
  | some (.attached index) => some { b with index }
  | some .handedBack => some { b with pending := b.pending ++ [r] }
  | some .rejected =>
    some { b with notices := b.notices ++ [.replyRejected r.message.id r.target] }

/-- Tries a reply, unless no message has the identifier to which it replies. -/
def attachKnown? (known : List Text) (b : Builder) (r : Reply) : Option Builder :=
  if r.target ∈ known then b.attach? r
  else
    some { b with
      events := b.events ++ [r.unresolved .missingParent]
      notices := b.notices ++ [.parentMissing r.message.id r.target] }

theorem length_pending_attach?_le {b b' : Builder} {r : Reply} (h : b.attach? r = some b') :
    b'.pending.length ≤ b.pending.length + 1 := by
  unfold attach? at h
  split at h <;> cases h <;> simp

theorem length_pending_foldlM_le {b b' : Builder} {rs : List Reply}
    (h : rs.foldlM attach? b = some b') : b'.pending.length ≤ b.pending.length + rs.length := by
  induction rs generalizing b with
  | nil =>
    cases h
    simp
  | cons r rs ih =>
    rw [List.foldlM_cons] at h
    obtain ⟨next, hr, hrs⟩ := Option.bind_eq_some_iff.mp h
    have hstep := length_pending_attach?_le hr
    have hrest := ih hrs
    rw [List.length_cons]
    omega

/-- Tries the pending replies again, until as many are pending as before. `passes` is the number of
the passes so far. -/
def settle? (passes : Nat) (b : Builder) : Option Builder :=
  match _h : b.pending.foldlM attach? { b with pending := [] } with
  | none => none
  | some next =>
    if next.pending.length = b.pending.length then
      some { next with notices := next.notices ++ [.fixedPointReached (passes + 1)] }
    else settle? (passes + 1) next
termination_by b.pending.length
decreasing_by
  have := length_pending_foldlM_le _h
  simp only [List.length_nil] at this
  omega

/-- Gives up the pending replies. -/
def giveUp (b : Builder) : Builder :=
  { b with
    pending := []
    events := b.events ++ b.pending.map (·.unresolved .parentNotInConversation)
    notices := b.notices ++ b.pending.map fun r => .parentUnplaced r.message.id r.target }

/-- The conversations of a list of messages in tables, with the events and the notices on the way to
them. There is no answer if the register ever has a conversation that is not there. -/
def run? (resolution : Resolution) (ms : List Message) : Option Builder :=
  let sieve := ms.foldl Sieve.step {}
  let planting := sieve.unique.foldl Planting.step {}
  let start : Builder := { index := planting.index, notices := sieve.notices }
  match planting.replies.foldlM (attachKnown? sieve.known) start with
  | none => none
  | some b =>
    match resolution with
    | .singlePass => some b.giveUp
    | .fixedPoint => (b.settle? 1).map giveUp

end Builder
end Threading
end MailArchive
