import MailArchive.Proofs.Archive.RoundTrip
import MailArchive.Proofs.Threading.Rebuild

/-!
# MailArchive.Proofs.Archive.Conversations

Conversations read back from an archive. The fragments of their messages, each before those of its
replies, give back the messages, and from these a single pass builds the same conversations
(`parse_conversations`).
-/

namespace MailArchive
namespace Archive

open Conversation

/-- **Conversations are rebuilt from their fragments.** Conversations of well-formed messages with
different identifiers, which have grown by replies under the messages that their headers name, are
written message by message, each before its replies. The archive is read as the same conversations
in the same order, and no reply is left over. -/
theorem parse_conversations (options : FormatOptions) {cs : List Conversation}
    (hgrown : ∀ c ∈ cs, c.Grown) (hn : (cs.flatMap Conversation.ids).Nodup)
    (hw : ∀ c ∈ cs, ∀ m ∈ c.messages, m.WellFormed) :
    ∃ fragments o, (cs.flatMap Conversation.messages).mapM (Fragment.format? options) =
        some fragments ∧
      parse .standard {} fragments.flatten = .ok o ∧ o.conversations = cs ∧ o.unresolved = [] := by
  rw [← messagesIn_eq_flatMap]
  have hids : (idsIn cs).Nodup := by
    rw [idsIn, messagesIn_eq_flatMap, List.map_flatMap]
    exact hn
  have hwell : ∀ m ∈ messagesIn cs, m.WellFormed := by
    intro m hm
    obtain ⟨c, hc, hmc⟩ := mem_messagesIn.mp hm
    exact hw c hc m hmc
  obtain ⟨fragments, hfragments, hread⟩ :=
    messages_append_fragments options (messagesIn cs) hwell Text.closed_nil (messages_nil _)
  obtain ⟨hconv, hunresolved⟩ := Threading.build_messagesIn (fun c hc => (hgrown c hc).linked)
    (fun c hc => (hgrown c hc).root) hids
  refine ⟨fragments, _, hfragments, ?_, hconv, hunresolved⟩
  rw [List.nil_append, List.nil_append] at hread
  rw [parse, hread]
  rfl

/-- A reply that says nothing. -/
def reply (id target : String) : Message :=
  (Message.new id.toList ⟨[], "ann@example.com".toList⟩).withHeader "In-Reply-To".toList
    target.toList

/-- The reply to the first answer came after the second answer, and is written before it. -/
theorem parse_conversations_late_reply :
    let answered := Conversation.node question
      [.node answer [.new (reply "c" "a")], .new (reply "b" "<q.1@example.org>")]
    let cs := [answered, .new { question with id := "d".toList }]
    (∀ c ∈ cs, c.Grown) ∧ (cs.flatMap Conversation.ids).Nodup ∧
      (∀ c ∈ cs, ∀ m ∈ c.messages, m.WellFormed) ∧
      ∃ fragments o, (cs.flatMap Conversation.messages).mapM (Fragment.format? {}) =
          some fragments ∧
        parse .standard {} fragments.flatten = .ok o ∧ o.conversations = cs ∧
        o.unresolved = [] := by
  intro answered cs
  have hanswered : answered.Grown := by
    have hroot : (new question).Grown := .new (by decide +kernel)
    have ha : (node question [new answer]).Grown :=
      hroot.add (p := question.id) (r := answer) (by decide +kernel) rfl
    have hb : (node question [new answer, new (reply "b" "<q.1@example.org>")]).Grown :=
      ha.add (p := question.id) (r := reply "b" "<q.1@example.org>") (by decide +kernel) rfl
    exact hb.add (p := "a".toList) (r := reply "c" "a") (by decide +kernel) rfl
  have hgrown : ∀ c ∈ cs, c.Grown :=
    List.forall_mem_cons.mpr ⟨hanswered, List.forall_mem_singleton.mpr (.new (by decide +kernel))⟩
  have hn : (cs.flatMap Conversation.ids).Nodup := by decide +kernel
  have hw : ∀ c ∈ cs, ∀ m ∈ c.messages, m.WellFormed := by decide +kernel
  exact ⟨hgrown, hn, hw, parse_conversations {} hgrown hn hw⟩

end Archive
end MailArchive
