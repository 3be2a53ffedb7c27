import MailArchive.Proofs.Conversation.Depth

/-!
# MailArchive.Proofs.Conversation.Outline

The messages of a conversation in the order in which they are shown. The outline goes through the
same messages (`map_snd_outline`) and gives each one its depth (`depth?_of_mem_outline`), and a
message comes after the one it replies to (`sublist_messages_of_parent?`).
-/

namespace MailArchive
namespace Conversation

theorem outlineIn_eq_flatMap (d : Nat) (cs : List Conversation) :
    outlineIn d cs = cs.flatMap (outline d) := by
  induction cs with
  | nil => rfl
  | cons c cs ih => rw [outlineIn, ih, List.flatMap_cons]

theorem map_snd_outline (d : Nat) (c : Conversation) :
    (c.outline d).map Prod.snd = c.messages := by
  induction c generalizing d with
  | node m rs ih =>
    rw [outline, messages, outlineIn_eq_flatMap, messagesIn_eq_flatMap, List.map_cons,
      List.map_flatMap]
    exact congrArg (m :: ·) (List.flatMap_congr fun r hr => ih r hr (d + 1))

theorem mem_messages_of_mem_outline {d : Nat} {c : Conversation} {l : Nat × Message}
    (h : l ∈ c.outline d) : l.2 ∈ c.messages := by
  rw [← map_snd_outline d]
  exact List.mem_map_of_mem h

theorem exists_mem_outline {d : Nat} {c : Conversation} {m : Message} (h : m ∈ c.messages) :
    ∃ k, (k, m) ∈ c.outline d := by
  rw [← map_snd_outline d] at h
  obtain ⟨⟨k, _⟩, hl, rfl⟩ := List.mem_map.mp h
  exact ⟨k, hl⟩

/-- The outline numbers a message by its depth, counted on from that of the first one. -/
theorem depth?_of_mem_outline {d : Nat} {c : Conversation} {l : Nat × Message}
    (hn : c.ids.Nodup) (h : l ∈ c.outline d) : ∃ k, c.depth? l.2.id = some k ∧ l.1 = d + k := by
  induction c generalizing d with
  | node m rs ih =>
    rw [outline, List.mem_cons, outlineIn_eq_flatMap, List.mem_flatMap] at h
    rcases h with rfl | ⟨r, hr, hl⟩
    · exact ⟨0, depth?_first (node m rs), rfl⟩
    · have hrn : r.ids.Nodup := nodup_ids_of_mem (List.nodup_cons.mp hn).2 hr
      obtain ⟨k, hk, hlevel⟩ := ih r hr hrn hl
      have hid : l.2.id ∈ r.ids := id_mem_ids (mem_messages_of_mem_outline hl)
      refine ⟨k + 1, ?_, ?_⟩
      · rw [depth?_of_mem_branch hn hr hid, hk, Option.map_some]
      · rw [hlevel, Nat.add_assoc, Nat.add_comm 1 k]

theorem sublist_messagesIn {r : Conversation} {rs : List Conversation} (hr : r ∈ rs) :
    r.messages.Sublist (messagesIn rs) := by
  rw [messagesIn_eq_flatMap, List.flatMap_def]
  exact List.sublist_flatten_of_mem (List.mem_map_of_mem hr)

/-- A message comes after its parent. -/
theorem sublist_messages_of_parent? {c : Conversation} {m p : Message} (hn : c.ids.Nodup)
    (hm : m ∈ c.messages) (hp : c.parent? m.id = some p) : [p, m].Sublist c.messages := by
  induction c with
  | node n rs ih =>
    have hne : n.id ≠ m.id := by
      intro h
      rw [parent?, if_pos h] at hp
      cases hp
    have hin : m ∈ messagesIn rs :=
      (List.mem_cons.mp hm).resolve_left fun h => hne (congrArg Message.id h.symm)
    rw [parent?, if_neg hne] at hp
    split at hp
    · cases hp
      exact (List.singleton_sublist.mpr hin).cons_cons p
    · rw [parentIn?_eq_findSome?] at hp
      obtain ⟨r, hr, hpr⟩ := List.exists_of_findSome?_eq_some hp
      have hrs : (idsIn rs).Nodup := (List.nodup_cons.mp hn).2
      have hmr : m ∈ r.messages := by
        obtain ⟨m', hm', hid⟩ := List.mem_map.mp (mem_of_parent? hpr).1
        have heq : m' = m :=
          List.inj_on_of_nodup_map hrs (mem_messagesIn.mpr ⟨r, hr, hm'⟩) hin hid
        exact heq ▸ hm'
      exact ((ih r hr (nodup_ids_of_mem hrs hr) hmr hpr).trans (sublist_messagesIn hr)).cons n

end Conversation
end MailArchive
