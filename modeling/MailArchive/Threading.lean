import MailArchive.Conversation
import MailArchive.Notice

/-!
# MailArchive.Threading

Building conversations from a list of messages. A message that replies to nothing begins a
conversation; the replies are then placed one after the other under the message they reply to. A
reply that comes before its parent is placed has to wait. With `Resolution.singlePass` such replies
are dropped, with `Resolution.fixedPoint` they are tried again until a pass places none of them.
-/

namespace MailArchive

/-- What happens to replies that come before the message they reply to. -/
inductive Resolution where
  | singlePass
  | fixedPoint
  deriving DecidableEq, Repr

/-- Why a reply is in no conversation. -/
inductive Reason where
  /-- No message has the identifier to which it replies. -/
  | missingParent
  /-- The message to which it replies is in no conversation. -/
  | parentNotInConversation
  deriving DecidableEq, Repr

/-- A reply that is in no conversation. -/
structure Unresolved where
  id : Text
  target : Text
  reason : Reason
  deriving DecidableEq, Repr

/-- A message with the identifier to which it replies. -/
structure Reply where
  target : Text
  message : Message
  deriving DecidableEq, Repr

namespace Reply

/-- The message as a reply, if it is one. -/
def ofMessage? (m : Message) : Option Reply := m.inReplyTo?.map fun target => ⟨target, m⟩

/-- The event that the reply is in no conversation. -/
def unresolved (reason : Reason) (r : Reply) : Unresolved := ⟨r.message.id, r.target, reason⟩

end Reply

namespace Threading

/-! ### Sorting the messages -/

/-- The messages of which the identifier is neither in `seen` nor that of an earlier one. -/
def firstsAfter (seen : List Text) : List Message → List Message
  | [] => []
  | m :: ms => if m.id ∈ seen then firstsAfter seen ms else m :: firstsAfter (m.id :: seen) ms

/-- The first message with each identifier. -/
def firsts (ms : List Message) : List Message := firstsAfter [] ms

/-- The messages of which the identifier is in `seen` or that of an earlier one. -/
def repeatsAfter (seen : List Text) : List Message → List Message
  | [] => []
  | m :: ms => if m.id ∈ seen then m :: repeatsAfter seen ms else repeatsAfter (m.id :: seen) ms

/-- The messages after the first one with each identifier. -/
def repeats (ms : List Message) : List Message := repeatsAfter [] ms

/-- The messages that reply to nothing. -/
def roots (ms : List Message) : List Message := ms.filter (·.inReplyTo?.isNone)

/-- The messages that reply to something. -/
def replies (ms : List Message) : List Reply := ms.filterMap Reply.ofMessage?

/-- Whether some message has the identifier to which a reply replies. -/
def isAimed (ms : List Message) (r : Reply) : Bool := ms.any (·.id == r.target)

/-! ### Placing the replies -/

/-- What became of a reply. -/
inductive Placement where
  | placed (forest : List Conversation)
  /-- The message to which it replies is in none of the conversations. -/
  | waiting
  /-- The conversation refuses the reply's identifier. -/
  | refused
  deriving Repr

/-- Adds a reply to the conversation that holds the message to which it replies. -/
def place (r : Reply) : List Conversation → Placement
  | [] => .waiting
  | c :: cs =>
    if c.contains r.target then
      match c.add? r.target r.message with
      | some c => .placed (c :: cs)
      | none => .refused
    else
      match place r cs with
      | .placed cs => .placed (c :: cs)
      | .waiting => .waiting
      | .refused => .refused

structure Pass where
  forest : List Conversation
  waiting : List Reply := []
  refused : List Reply := []
  deriving Repr

/-- Tries one reply. -/
def Pass.step (p : Pass) (r : Reply) : Pass :=
  match place r p.forest with
  | .placed forest => { p with forest }
  | .waiting => { p with waiting := p.waiting ++ [r] }
  | .refused => { p with refused := p.refused ++ [r] }

def pass (forest : List Conversation) (rs : List Reply) : Pass := rs.foldl Pass.step { forest }

theorem length_waiting_foldl_le (p : Pass) (rs : List Reply) :
    (rs.foldl Pass.step p).waiting.length ≤ p.waiting.length + rs.length := by
  induction rs generalizing p with
  | nil => simp
  | cons r rs ih =>
    have hs : (p.step r).waiting.length ≤ p.waiting.length + 1 := by
      unfold Pass.step
      split <;> simp
    have := ih (p.step r)
    simp only [List.foldl_cons, List.length_cons]
    omega

/-- No reply is tried that was not given. -/
theorem length_waiting_pass_le (forest : List Conversation) (rs : List Reply) :
    (pass forest rs).waiting.length ≤ rs.length := by
  simpa [pass] using length_waiting_foldl_le { forest } rs

structure Settled where
  forest : List Conversation
  waiting : List Reply
  refused : List Reply
  passes : Nat
  deriving Repr

/-- Goes on with passes over the waiting replies until as many are waiting after a pass as before
it. `passes` and `refused` are those of the passes so far. -/
def settle (passes : Nat) (refused : List Reply) (forest : List Conversation)
    (waiting : List Reply) : Settled :=
  let p := pass forest waiting
  if _h : p.waiting.length = waiting.length then
    ⟨p.forest, p.waiting, refused ++ p.refused, passes + 1⟩
  else settle (passes + 1) (refused ++ p.refused) p.forest p.waiting
termination_by waiting.length
decreasing_by exact Nat.lt_of_le_of_ne (length_waiting_pass_le forest waiting) _h

/-! ### The whole -/

/-- The conversations of a list of messages, and what became of the other messages. -/
structure Outcome where
  conversations : List Conversation
  /-- The replies to a message that does not exist. -/
  missing : List Reply
  /-- The replies to a message that is in no conversation. -/
  waiting : List Reply
  /-- The messages with an identifier that an earlier one has. -/
  repeated : List Message
  /-- The replies that a conversation refused. -/
  refused : List Reply
  /-- The number of passes, if they went on to the fixed point. -/
  passes : Option Nat
  deriving Repr

def build (resolution : Resolution) (ms : List Message) : Outcome :=
  let own := firsts ms
  let aimed := (replies own).filter (isAimed own)
  let missing := (replies own).filter (!isAimed own ·)
  let p := pass ((roots own).map Conversation.new) aimed
  match resolution with
  | .singlePass => ⟨p.forest, missing, p.waiting, repeats ms, p.refused, none⟩
  | .fixedPoint =>
    let s := settle 1 p.refused p.forest p.waiting
    ⟨s.forest, missing, s.waiting, repeats ms, s.refused, some s.passes⟩

namespace Outcome

/-- The replies that are in no conversation, in the order in which they are given up. -/
def unresolved (o : Outcome) : List Unresolved :=
  o.missing.map (·.unresolved .missingParent) ++
    o.waiting.map (·.unresolved .parentNotInConversation)

/-- What there is to report; the replies that are in no conversation only on demand, because
`unresolved` has them too. -/
def notices (o : Outcome) (withUnresolved : Bool) : List Notice :=
  o.repeated.map (fun m => .duplicateIgnored m.id) ++
    (if withUnresolved then o.missing.map fun r => .parentMissing r.message.id r.target else []) ++
    o.refused.map (fun r => .replyRejected r.message.id r.target) ++
    (o.passes.map Notice.fixedPointReached).toList ++
    if withUnresolved then o.waiting.map fun r => .parentUnplaced r.message.id r.target else []

end Outcome
end Threading
end MailArchive
