import MailArchive.Proofs.Conversation.Walk
import MailArchive.Proofs.Json.Message
import MailArchive.Proofs.Json.Record
import MailArchive.Proofs.Report.Outline

/-!
# MailArchive.Proofs.Conversation.Views

All views of a conversation are views of its outline. `Views` says so of a table and a conversation:
what the ways through the table come to, what is written as JSON, what is printed, and the answers
about single messages. `views_grow` is the result, for a table and a conversation after the same
tries to add a reply.
-/

namespace MailArchive
namespace Conversation

/-- A table and a conversation show the same messages in the same order, each as deep as the
conversation says. -/
structure Views (t : Table) (c : Conversation) : Prop where
  /-- The stack of places comes to an end, with the messages of the conversation. -/
  walk : ∀ ms : List Message, t.Walks [0] ms ↔ ms = c.messages
  /-- The links down from the first place make up the conversation. -/
  tree : ∀ d : Conversation, t.Nested 0 d ↔ d = c
  /-- The JSON form is had back from its text. -/
  written : Json.read? c.toJson.write = some c.toJson
  /-- The objects in the JSON form are those of the messages, each one level below its parent. -/
  json : List.Forall₂ (fun l o => o = (l.1, l.2.toJson) ∧ l.2.IsObject o.2) (c.outline 0)
    (c.toJson.preorder 0)
  /-- Going from the first message to the replies and to theirs comes to an end, with the
  outline. -/
  lines : ∀ ls : List (Nat × Message), t.Prints 0 [c.first] ls ↔ ls = c.outline 0
  /-- What is printed on that way is the messages that it finds, each behind as many spaces as tell
  its level, and an empty line. These are the lines of the text if each message fits on one. -/
  report : ∀ ls : List (Nat × Message), t.Prints 0 [c.first] ls → ∃ texts : List Text,
    List.Forall₂ (fun l text => Report.IsLine l.1 l.2 text) ls texts ∧
      Report.outline c = texts.flatten ++ ['\n'] ∧
      ((∀ m ∈ c.messages, m.OneLine) → Text.lines (Report.outline c) = texts ++ [['\n']])
  /-- The outline has the messages of the conversation. -/
  messages : (c.outline 0).map Prod.snd = c.messages
  size : c.messages.length = t.size ∧ c.size = t.size
  /-- There is one message for each identifier that is there, and no other. -/
  ids : c.ids.Nodup ∧ ∀ id : Text, t.contains id = true ↔ id ∈ c.ids
  /-- The table and the conversation answer alike. -/
  answers : ∀ id : Text, t.contains id = c.contains id ∧ t.get? id = c.get? id ∧
    t.replies id = c.replies id ∧ t.parent? id = c.parent? id
  head : c.messages.head? = some c.first ∧ t.message? 0 = some c.first
  /-- A message comes after its parent. -/
  after : ∀ m ∈ c.messages, ∀ p, t.parent? m.id = some p → [p, m].Sublist c.messages
  /-- The number before a message is its depth. -/
  level : ∀ l ∈ c.outline 0, c.depth? l.2.id = some l.1
  /-- The way up from a message comes to an end, after as many links as its depth. -/
  climb : ∀ (id : Text) (n : Nat),
    (∃ i, t.place? id = some i ∧ t.Climbs i n) ↔ c.depth? id = some n
  depthFirst : c.depth? c.first.id = some 0
  depthReply : ∀ m ∈ c.messages, m ≠ c.first → ∃ p n,
    t.parent? m.id = some p ∧ c.depth? p.id = some n ∧ c.depth? m.id = some (n + 1)

theorem head?_messages (c : Conversation) : c.messages.head? = some c.first := by
  cases c with
  | node m rs => rfl

/-- Every message but the first has a parent, and is one deeper than that. -/
theorem exists_depth?_of_ne {c : Conversation} {m : Message} (hn : c.ids.Nodup)
    (hm : m ∈ c.messages) (hne : m ≠ c.first) :
    ∃ p n, c.parent? m.id = some p ∧ c.depth? p.id = some n ∧ c.depth? m.id = some (n + 1) := by
  have hid : m.id ≠ c.first.id := fun h =>
    hne (List.inj_on_of_nodup_map hn hm (first_mem_messages c) h)
  obtain ⟨p, hp⟩ := exists_parent? (id_mem_ids hm) hid
  obtain ⟨n, hdepth⟩ := exists_depth? (id_mem_ids (mem_of_parent? hp).2)
  exact ⟨p, n, hp, hdepth, by rw [depth?_of_parent? hn hp, hdepth, Option.map_some]⟩

theorem forall₂_preorder_toJson (depth : Nat) (c : Conversation) :
    List.Forall₂ (fun l o => o = (l.1, l.2.toJson) ∧ l.2.IsObject o.2) (c.outline depth)
      (c.toJson.preorder depth) := by
  rw [preorder_toJson, List.forall₂_map_right_iff, List.forall₂_same]
  exact fun l _ => ⟨rfl, l.2.isObject_toJson⟩

theorem Table.Holds.views {t : Table} {c : Conversation} (h : t.Holds c) : Views t c where
  walk _ := h.walks_iff
  tree _ := h.nested_iff
  written := Json.read?_write c.plain_toJson
  json := forall₂_preorder_toJson 0 c
  lines _ := h.prints_iff
  report ls hls := by
    rw [h.prints_iff.mp hls]
    exact Report.exists_texts c
  messages := map_snd_outline 0 c
  size := ⟨h.size.symm, h.size.symm⟩
  ids := ⟨h.nodup, fun id => by rw [h.contains, contains_iff]⟩
  answers id := ⟨h.contains id, h.get? id, h.replies id, h.parent? id⟩
  head := ⟨head?_messages c, Table.message?_of_nested h.nested⟩
  after m hm p hp := sublist_messages_of_parent? h.nodup hm (h.parent? m.id ▸ hp)
  level l hl := by
    obtain ⟨n, hdepth, hlevel⟩ := depth?_of_mem_outline h.nodup hl
    rw [hdepth, hlevel, Nat.zero_add]
  climb _ _ := h.climbs_iff
  depthFirst := depth?_first c
  depthReply m hm hne := by
    rw [h.parent?]
    exact exists_depth?_of_ne h.nodup hm hne

/-- **All views of a conversation agree.** After any tries to add a reply to a conversation, whether
they are accepted or refused, the walk with a stack, the objects in its JSON form and the printed
lines are one list of messages, with as many messages as there are identifiers, the first message in
front and every other one after its parent. The level of an object and the spaces in front of a line
both tell the depth of the message, which is had back from the object and follows the spaces in the
line. -/
theorem views_grow (root : Message) (tries : List (Text × Message)) :
    Views (Table.grow root tries) (grow root tries) :=
  (Table.holds_grow root tries).views

end Conversation
end MailArchive
