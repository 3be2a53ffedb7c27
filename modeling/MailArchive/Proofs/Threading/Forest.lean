import MailArchive.Proofs.Conversation.Depth
import MailArchive.Proofs.Threading.Pass

/-!
# MailArchive.Proofs.Threading.Forest

What the conversations and the events of `build` have in common, whatever the resolution.

* `outcome_perm`: the messages in the conversations and those that were given up are together the
  first messages with their identifiers.
* `map_first_build`, `linked_build`: one conversation for each root, in the order of the archive, in
  which every message stands under the one that its header names.
* `inReplyTo?_eq_parent?`: so headers and parents say the same.
* `build_forest`: the conversations are trees below the roots, in which the depth of a message
  counts its ancestors.
* `mem_unresolved_iff`: there is an event about every first message that is in no conversation, and
  its reason depends on the target alone.
-/

namespace MailArchive
namespace Threading

open Conversation

/-- The replies are those that were given up at once, those that were placed and those that wait. -/
theorem replies_perm {resolution : Resolution} {ms : List Message} {placed : List Reply}
    (h : (placed ++ (build resolution ms).waiting).Perm (aimed (firsts ms))) :
    ((build resolution ms).missing ++ (placed ++ (build resolution ms).waiting)).Perm
      (replies (firsts ms)) := by
  rw [missing_build]
  refine (h.append_left _).trans ?_
  exact List.perm_append_comm.trans (List.filter_append_perm _ _)

theorem outcome_perm (resolution : Resolution) (ms : List Message) :
    (messagesIn (build resolution ms).conversations ++
      ((build resolution ms).missing ++ (build resolution ms).waiting).map Reply.message).Perm
        (firsts ms) := by
  obtain ⟨placed, hg, hperm, -⟩ := build_grows resolution ms
  have hconv := hg.messages_perm (fresh_seedlings (nodup_ids_firsts ms)).forest
  rw [messagesIn_seedlings] at hconv
  have hshift : (placed ++ ((build resolution ms).missing ++ (build resolution ms).waiting)).Perm
      ((build resolution ms).missing ++ (placed ++ (build resolution ms).waiting)) := by
    rw [← List.append_assoc, ← List.append_assoc]
    exact List.perm_append_comm.append_right _
  calc
    (messagesIn (build resolution ms).conversations ++
      ((build resolution ms).missing ++ (build resolution ms).waiting).map Reply.message).Perm
        ((roots (firsts ms) ++ placed.map Reply.message) ++
          ((build resolution ms).missing ++ (build resolution ms).waiting).map Reply.message) :=
      (hconv.trans List.perm_append_comm).append_right _
    List.Perm _ (roots (firsts ms) ++ (replies (firsts ms)).map Reply.message) := by
      rw [List.append_assoc, ← List.map_append]
      exact ((hshift.trans (replies_perm hperm)).map _).append_left _
    List.Perm _ (firsts ms) := List.perm_append_comm.trans (replies_roots_perm (firsts ms))

theorem nodup_idsIn_build (resolution : Resolution) (ms : List Message) :
    (idsIn (build resolution ms).conversations).Nodup := by
  obtain ⟨_, hg, -⟩ := build_grows resolution ms
  exact hg.nodup (fresh_seedlings (nodup_ids_firsts ms)).forest

/-! ## Conversations -/

theorem map_first_build (resolution : Resolution) (ms : List Message) :
    (build resolution ms).conversations.map first = roots (firsts ms) := by
  obtain ⟨_, hg, -⟩ := build_grows resolution ms
  rw [hg.map_first, seedlings, List.map_map]
  exact List.map_id _

theorem linked_build (resolution : Resolution) (ms : List Message) :
    ∀ c ∈ (build resolution ms).conversations, Linked c := by
  obtain ⟨placed, hg, hperm, -⟩ := build_grows resolution ms
  refine hg.linked ?_ ?_
  · intro c hc
    obtain ⟨m, -, rfl⟩ := List.mem_map.mp hc
    exact linked_new m
  · intro r hr
    have haimed : r ∈ aimed (firsts ms) := hperm.subset (List.mem_append_left _ hr)
    exact (mem_replies.mp (List.mem_of_mem_filter haimed)).2

section

variable {resolution : Resolution} {ms : List Message} {c : Conversation}

theorem isFirst_of_mem_messages (hc : c ∈ (build resolution ms).conversations) {m : Message}
    (hm : m ∈ c.messages) : IsFirst ms m := by
  rw [← mem_firsts_iff, ← (outcome_perm resolution ms).mem_iff]
  exact List.mem_append_left _ (mem_messagesIn.mpr ⟨c, hc, hm⟩)

theorem nodup_ids_of_mem_build (hc : c ∈ (build resolution ms).conversations) : c.ids.Nodup :=
  nodup_ids_of_mem (nodup_idsIn_build resolution ms) hc

theorem first_inReplyTo? (hc : c ∈ (build resolution ms).conversations) :
    c.first.inReplyTo? = none := by
  have h : c.first ∈ roots (firsts ms) := map_first_build resolution ms ▸ List.mem_map_of_mem hc
  exact (mem_roots.mp h).2

/-- A message replies to its parent, and the first one to nothing. -/
theorem inReplyTo?_eq_parent? (hc : c ∈ (build resolution ms).conversations) {m : Message}
    (hm : m ∈ c.messages) : m.inReplyTo? = (c.parent? m.id).map Message.id := by
  by_cases hne : m = c.first
  · rw [hne, parent?_first, first_inReplyTo? hc]
    rfl
  · obtain ⟨p, -, hp, hreply⟩ :=
      (linked_build resolution ms c hc).exists_parent (nodup_ids_of_mem_build hc) hm hne
    rw [hp, hreply]
    rfl

/-- First messages are known by their identifiers. -/
theorem isFirst_inj {a b : Message} (ha : IsFirst ms a) (hb : IsFirst ms b) (h : a.id = b.id) :
    a = b :=
  List.inj_on_of_nodup_map (nodup_ids_firsts ms) (mem_firsts_iff.mpr ha) (mem_firsts_iff.mpr hb) h

end

/-- The roots are the messages without an `In-Reply-To` header. -/
theorem roots_eq_filter (ms : List Message) :
    roots ms = ms.filter (!·.hasHeader "In-Reply-To".toList) := by
  refine List.filter_congr fun m _ => ?_
  rw [Message.hasHeader, Message.inReplyTo?, Option.isNone_map, Option.not_isSome]

/-- **The conversations are a forest.** There is one for each first message without an `In-Reply-To`
header, in the order of the archive, and it begins with this message; no identifier comes twice in
them. Every other message in them has the message it replies to as its parent, and going from parent
to parent one comes to the first message after as many steps as the depth says. -/
theorem build_forest (resolution : Resolution) (ms : List Message) :
    let o := build resolution ms
    o.conversations.map first = (firsts ms).filter (!·.hasHeader "In-Reply-To".toList) ∧
    (idsIn o.conversations).Nodup ∧
    ∀ c ∈ o.conversations, ∀ m ∈ c.messages,
      (m ≠ c.first → ∃ p ∈ c.messages, c.parent? m.id = some p ∧ m.inReplyTo? = some p.id) ∧
      ∃ d, c.depth? m.id = some d ∧ ∀ n, c.ancestor? n m = some c.first ↔ n = d := by
  intro o
  refine ⟨?_, nodup_idsIn_build resolution ms, fun c hc m hm => ?_⟩
  · rw [← roots_eq_filter]
    exact map_first_build resolution ms
  · have hn : c.ids.Nodup := nodup_ids_of_mem_build hc
    refine ⟨fun hne => (linked_build resolution ms c hc).exists_parent hn hm hne, ?_⟩
    obtain ⟨d, hd⟩ := exists_depth? (id_mem_ids hm)
    exact ⟨d, hd, fun n => ancestor?_eq_first_iff hn hm hd⟩

/-! ## Events -/

/-- Why a reply to this target is in no conversation, if it is in none. -/
def reasonFor (ms : List Message) (target : Text) : Reason :=
  if target ∈ ms.map Message.id then .parentNotInConversation else .missingParent

theorem map_id_unresolved (o : Outcome) :
    o.unresolved.map Unresolved.id = (o.missing ++ o.waiting).map (·.message.id) := by
  rw [Outcome.unresolved, List.map_append, List.map_map, List.map_map, List.map_append]
  rfl

theorem mem_missing_iff {resolution : Resolution} {ms : List Message} {r : Reply} :
    r ∈ (build resolution ms).missing ↔
      IsFirst ms r.message ∧ r.message.inReplyTo? = some r.target ∧
        r.target ∉ ms.map Message.id := by
  rw [missing_build, List.mem_filter, mem_replies, mem_firsts_iff, Bool.not_eq_true',
    ← mem_ids_firsts, ← isAimed_iff, Bool.not_eq_true, and_assoc]

theorem of_mem_waiting {resolution : Resolution} {ms : List Message} {r : Reply}
    (h : r ∈ (build resolution ms).waiting) :
    IsFirst ms r.message ∧ r.message.inReplyTo? = some r.target ∧ r.target ∈ ms.map Message.id := by
  obtain ⟨placed, -, hperm, -⟩ := build_grows resolution ms
  have haimed : r ∈ aimed (firsts ms) := hperm.subset (List.mem_append_right _ h)
  rw [aimed, List.mem_filter, mem_replies, mem_firsts_iff, isAimed_iff, mem_ids_firsts,
    and_assoc] at haimed
  exact haimed

theorem nodup_ids_outcome (resolution : Resolution) (ms : List Message) :
    (idsIn (build resolution ms).conversations ++
      (build resolution ms).unresolved.map Unresolved.id).Nodup := by
  have h := (outcome_perm resolution ms).map Message.id
  rw [List.map_append, List.map_map] at h
  rw [map_id_unresolved]
  exact h.nodup_iff.mpr (nodup_ids_firsts ms)

theorem notMem_of_mem_waiting {resolution : Resolution} {ms : List Message} {r : Reply}
    (h : r ∈ (build resolution ms).waiting) :
    r.message ∉ messagesIn (build resolution ms).conversations := by
  intro hin
  have hid : r.message.id ∈ (build resolution ms).unresolved.map Unresolved.id := by
    rw [map_id_unresolved]
    exact List.mem_map.mpr ⟨r, List.mem_append_right _ h, rfl⟩
  have hdisj := (List.nodup_append.mp (nodup_ids_outcome resolution ms)).2.2
  exact hdisj r.message.id (List.mem_map_of_mem hin) r.message.id hid rfl

/-- The events are about the first messages that are in no conversation. -/
theorem mem_unresolved_iff {resolution : Resolution} {ms : List Message} {e : Unresolved} :
    e ∈ (build resolution ms).unresolved ↔
      ∃ m t, IsFirst ms m ∧ m.inReplyTo? = some t ∧
        m ∉ messagesIn (build resolution ms).conversations ∧ e = ⟨m.id, t, reasonFor ms t⟩ := by
  constructor
  · intro he
    have hnot : e.id ∉ idsIn (build resolution ms).conversations := fun hid =>
      (List.nodup_append.mp (nodup_ids_outcome resolution ms)).2.2 e.id hid e.id
        (List.mem_map_of_mem he) rfl
    rcases List.mem_append.mp he with he | he
    · obtain ⟨r, hr, rfl⟩ := List.mem_map.mp he
      obtain ⟨hfirst, hreply, htarget⟩ := mem_missing_iff.mp hr
      refine ⟨r.message, r.target, hfirst, hreply, fun h => hnot (List.mem_map_of_mem h), ?_⟩
      rw [reasonFor, if_neg htarget]
      rfl
    · obtain ⟨r, hr, rfl⟩ := List.mem_map.mp he
      obtain ⟨hfirst, hreply, htarget⟩ := of_mem_waiting hr
      refine ⟨r.message, r.target, hfirst, hreply, fun h => hnot (List.mem_map_of_mem h), ?_⟩
      rw [reasonFor, if_pos htarget]
      rfl
  · rintro ⟨m, t, hfirst, hreply, hnot, rfl⟩
    have hall := (outcome_perm resolution ms).mem_iff.mpr (mem_firsts_iff.mpr hfirst)
    obtain ⟨r, hr, rfl⟩ := List.mem_map.mp ((List.mem_append.mp hall).resolve_left hnot)
    rcases List.mem_append.mp hr with hr | hr
    · obtain ⟨-, hreply', htarget⟩ := mem_missing_iff.mp hr
      obtain rfl : r.target = t := Option.some.inj (hreply'.symm.trans hreply)
      rw [reasonFor, if_neg htarget]
      exact List.mem_append_left _ (List.mem_map.mpr ⟨r, hr, rfl⟩)
    · obtain ⟨-, hreply', htarget⟩ := of_mem_waiting hr
      obtain rfl : r.target = t := Option.some.inj (hreply'.symm.trans hreply)
      rw [reasonFor, if_pos htarget]
      exact List.mem_append_right _ (List.mem_map.mpr ⟨r, hr, rfl⟩)

end Threading
end MailArchive
