import Mathlib.Logic.Relation
import MailArchive.Proofs.Conversation.Shape

/-!
# MailArchive.Proofs.Conversation.Subtree

The part of a conversation that begins with a message. It holds the messages to which replies lead
from that message, and no others (`mem_messages_iff_of_find?`). They stand together in the order of
the conversation, and a new reply to the message comes right after the last one of them
(`exists_messages_insert`).
-/

namespace MailArchive
namespace Conversation

variable {c part : Conversation} {p : Text} {m n r : Message} {listed : Text → List Message}

/-- Replies lead from the first message to the second one, in any number of steps. -/
def Leads (c : Conversation) : Message → Message → Prop :=
  Relation.ReflTransGen fun m n => n ∈ c.replies m.id

theorem Shaped.of_find? (h : Shaped listed c) (hp : c.find? p = some part) :
    Shaped listed part := by
  induction h with
  | @node m rs here below ih =>
    by_cases hm : m.id = p
    · rw [find?, if_pos hm, Option.some.injEq] at hp
      exact hp ▸ .node here below
    · rw [find?_node_of_ne hm] at hp
      obtain ⟨r, hr, hrp⟩ := List.exists_of_findSome?_eq_some hp
      exact ih r hr hrp

/-- The replies to a message of a conversation are in it too. -/
theorem Shaped.mem_messages (h : Shaped listed c) (hm : m ∈ c.messages) (hn : n ∈ listed m.id) :
    n ∈ c.messages := by
  induction h with
  | @node k rs here _ ih =>
    rw [messages, List.mem_cons, mem_messagesIn] at hm ⊢
    rcases hm with rfl | ⟨r, hr, hmr⟩
    · rw [← here] at hn
      obtain ⟨r, hr, rfl⟩ := List.mem_map.mp hn
      exact .inr ⟨r, hr, first_mem_messages r⟩
    · exact .inr ⟨r, hr, ih r hr hmr⟩

theorem Shaped.mem_messages_iff (h : Shaped listed c) :
    m ∈ c.messages ↔ Relation.ReflTransGen (fun m n => n ∈ listed m.id) c.first m := by
  constructor
  · intro hm
    induction h with
    | @node k rs here _ ih =>
      rw [messages, List.mem_cons, mem_messagesIn] at hm
      rcases hm with rfl | ⟨r, hr, hmr⟩
      · exact .refl
      · have hfirst : r.first ∈ listed k.id := here ▸ List.mem_map_of_mem hr
        exact (ih r hr hmr).head hfirst
  · intro hm
    induction hm with
    | refl => exact first_mem_messages c
    | tail _ hstep ih => exact h.mem_messages ih hstep

theorem shaped_replies (hn : c.ids.Nodup) : Shaped c.replies c :=
  shaped_of_replies hn fun _ _ => rfl

/-- The part that begins with a message holds the messages to which replies lead from it. -/
theorem mem_messages_iff_of_find? (hn : c.ids.Nodup) (h : c.find? p = some part) :
    m ∈ part.messages ↔ c.Leads part.first m :=
  ((shaped_replies hn).of_find? h).mem_messages_iff

theorem mem_messages_of_mem_replies (hn : c.ids.Nodup) (h : m ∈ c.replies p) : m ∈ c.messages := by
  have hp : p ∈ c.ids := by
    by_contra hno
    rw [replies_of_notMem hno] at h
    cases h
  obtain ⟨q, hq, rfl⟩ := List.mem_map.mp hp
  exact (shaped_replies hn).mem_messages hq h

/-- A new reply comes right after the part that begins with its parent, and nothing else moves. -/
theorem exists_messages_insert (hn : c.ids.Nodup) (h : c.find? p = some part) (r : Message) :
    ∃ before after, c.messages = before ++ (part.messages ++ after) ∧
      (c.insert p r).messages = before ++ (part.messages ++ r :: after) := by
  induction c with
  | node m rs ih =>
    rw [ids_node, List.nodup_cons] at hn
    obtain ⟨hm, hrs⟩ := hn
    by_cases hmp : m.id = p
    · rw [find?, if_pos hmp, Option.some.injEq] at h
      rw [insert, if_pos hmp, insertIn_of_notMem (hmp ▸ hm), ← h]
      exact ⟨[], [], by simp, by simp [messages, messagesIn]⟩
    · rw [find?_node_of_ne hmp] at h
      obtain ⟨xs, d, ys, rfl, hd, hxs⟩ := List.findSome?_eq_some_iff.mp h
      have hsplit : idsIn (xs ++ d :: ys) = idsIn xs ++ idsIn (d :: ys) := by
        rw [idsIn, messagesIn_append, List.map_append]
        rfl
      obtain ⟨hdn, -, hys⟩ := nodup_ids_cons (List.nodup_append.mp (hsplit ▸ hrs)).2.1
      have hpd : p ∈ d.ids := by
        by_contra hno
        rw [find?_eq_none_iff.mpr hno] at hd
        cases hd
      have hpxs : p ∉ idsIn xs := by
        rw [mem_idsIn]
        rintro ⟨x, hx, hpx⟩
        exact find?_eq_none_iff.mp (hxs x hx) hpx
      have hins : insertIn p r (xs ++ d :: ys) = xs ++ d.insert p r :: ys := by
        rw [insertIn_eq_map, List.map_append, ← insertIn_eq_map, insertIn_of_notMem hpxs,
          List.map_cons, ← insertIn_eq_map, insertIn_of_notMem (hys p hpd)]
      obtain ⟨before, after, hold, hnew⟩ := ih d (by simp) hdn hd
      refine ⟨m :: (messagesIn xs ++ before), after ++ messagesIn ys, ?_, ?_⟩
      · rw [messages, messagesIn_append, messagesIn, hold]
        simp
      · rw [insert, if_neg hmp, hins, messages, messagesIn_append, messagesIn, hnew]
        simp

theorem get?_of_mem_messages (hn : c.ids.Nodup) (hm : m ∈ c.messages) : c.get? m.id = some m := by
  obtain ⟨part, hpart⟩ := exists_find? (id_mem_ids hm)
  obtain ⟨before, after, hsplit, -⟩ := exists_messages_insert hn hpart m
  have hfirst : part.first ∈ c.messages := by
    rw [hsplit]
    exact List.mem_append_right _ (List.mem_append_left _ (first_mem_messages part))
  rw [get?, hpart, Option.map_some, Option.some.injEq]
  exact List.inj_on_of_nodup_map hn hfirst hm (first_of_find? hpart)

end Conversation
end MailArchive
