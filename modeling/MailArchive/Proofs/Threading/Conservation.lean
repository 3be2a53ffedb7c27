import Mathlib.Algebra.GroupWithZero.Nat
import Mathlib.Data.Finset.Card
import MailArchive.Proofs.Threading.Forest

/-!
# MailArchive.Proofs.Threading.Conservation

Threading loses no message, duplicates none and changes none (`build_conserves`): the first message
with an identifier either stands in one conversation, once (`PlacedOnce`), or there is one event
about it.
-/

namespace MailArchive
namespace Threading

open Conversation

/-- The message stands in one of the conversations, there once, and in no other one. -/
def PlacedOnce (cs : List Conversation) (m : Message) : Prop :=
  ∃ before c after, cs = before ++ c :: after ∧ c.messages.count m = 1 ∧
    ∀ d ∈ before ++ after, m ∉ d.messages

theorem placedOnce_of_mem {cs : List Conversation} {m : Message} (hn : (idsIn cs).Nodup)
    (hm : m ∈ messagesIn cs) : PlacedOnce cs m := by
  obtain ⟨c, hc, hmc⟩ := mem_messagesIn.mp hm
  obtain ⟨before, after, rfl⟩ := List.append_of_mem hc
  have hnm : (messagesIn (before ++ c :: after)).Nodup := hn.of_map Message.id
  rw [messagesIn_append, messagesIn, List.nodup_append, List.nodup_append] at hnm
  obtain ⟨-, ⟨hnc, -, hca⟩, hb⟩ := hnm
  refine ⟨before, c, after, rfl, List.count_eq_one_of_mem hnc hmc, ?_⟩
  intro d hd hmd
  rcases List.mem_append.mp hd with hd | hd
  · exact hb m (mem_messagesIn.mpr ⟨d, hd, hmd⟩) m (List.mem_append_left _ hmc) rfl
  · exact hca m hmc m (mem_messagesIn.mpr ⟨d, hd, hmd⟩) rfl

theorem length_messagesIn (cs : List Conversation) :
    (messagesIn cs).length = (cs.map size).sum := by
  rw [messagesIn_eq_flatMap, List.length_flatMap]
  rfl

theorem length_firsts (ms : List Message) :
    (firsts ms).length = (ms.map Message.id).toFinset.card := by
  have hset : (ms.map Message.id).toFinset = ((firsts ms).map Message.id).toFinset := by
    ext id
    rw [List.mem_toFinset, List.mem_toFinset, mem_ids_firsts]
  rw [hset, List.toFinset_card_of_nodup (nodup_ids_firsts ms), List.length_map]

/-- Sizes and events add up to the number of different identifiers. -/
theorem sum_size_add_length_unresolved (resolution : Resolution) (ms : List Message) :
    ((build resolution ms).conversations.map size).sum + (build resolution ms).unresolved.length =
      (ms.map Message.id).toFinset.card := by
  have hlen := (outcome_perm resolution ms).length_eq
  rw [List.length_append, List.length_map, length_messagesIn, length_firsts] at hlen
  rw [← hlen, Outcome.unresolved, List.length_append, List.length_map, List.length_map,
    List.length_append]

/-- **No message is lost, duplicated or altered.** The first message with an identifier is either in
one conversation, once, or the subject of one event, and not both. Nothing else is in a conversation
or in an event, sizes and events add up to the number of different identifiers, and no conversation
has refused a reply. -/
theorem build_conserves (resolution : Resolution) (ms : List Message) :
    let o := build resolution ms
    (∀ m, IsFirst ms m →
      (PlacedOnce o.conversations m ∧ (o.unresolved.map Unresolved.id).count m.id = 0) ∨
      (m.id ∉ idsIn o.conversations ∧ (o.unresolved.map Unresolved.id).count m.id = 1)) ∧
    (∀ c ∈ o.conversations, ∀ m ∈ c.messages, IsFirst ms m) ∧
    (∀ e ∈ o.unresolved, ∃ m, IsFirst ms m ∧ m.id = e.id ∧ m.inReplyTo? = some e.target) ∧
    (o.conversations.map size).sum + o.unresolved.length = (ms.map Message.id).toFinset.card ∧
    o.refused = [] := by
  intro o
  have hall := outcome_perm resolution ms
  obtain ⟨hnc, hnu, hdisj⟩ := List.nodup_append.mp (nodup_ids_outcome resolution ms)
  refine ⟨?_, ?_, ?_, ?_, ?_⟩
  · intro m hm
    rcases List.mem_append.mp (hall.mem_iff.mpr (mem_firsts_iff.mpr hm)) with hin | hout
    · refine .inl ⟨placedOnce_of_mem hnc hin, List.count_eq_zero.mpr fun hu => ?_⟩
      exact hdisj m.id (List.mem_map_of_mem hin) m.id hu rfl
    · have hu : m.id ∈ o.unresolved.map Unresolved.id := by
        rw [map_id_unresolved]
        obtain ⟨r, hr, rfl⟩ := List.mem_map.mp hout
        exact List.mem_map.mpr ⟨r, hr, rfl⟩
      refine .inr ⟨fun hin => hdisj m.id hin m.id hu rfl, ?_⟩
      exact List.count_eq_one_of_mem hnu hu
  · exact fun c hc m hm => isFirst_of_mem_messages hc hm
  · intro e he
    obtain ⟨m, t, hfirst, hreply, -, rfl⟩ := mem_unresolved_iff.mp he
    exact ⟨m, hfirst, rfl, hreply⟩
  · exact sum_size_add_length_unresolved resolution ms
  · obtain ⟨_, _, _, href⟩ := build_grows resolution ms
    exact href

end Threading
end MailArchive
