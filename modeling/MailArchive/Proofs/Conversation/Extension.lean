import MailArchive.Proofs.Conversation.Linked

/-!
# MailArchive.Proofs.Conversation.Extension

A conversation extends another one if it has come from it by replies alone: all messages are still
there, under the same parents, and new replies to a message come behind the old ones (`Extends`).
Adding a reply does this (`extends_insert`), and so do many replies, one after the other
(`Extends.trans`).
-/

namespace MailArchive
namespace Conversation

theorem parent?_new (m : Message) (id : Text) : (new m).parent? id = none := by
  rw [new, parent?]
  split <;> rfl

/-- A search below a message comes to the same after a reply has been added there if it does so in
each of the old replies and finds nothing in the new one. -/
theorem findSome?_insertIn {α : Type} {f : Conversation → Option α} {p : Text} {r m : Message}
    {rs : List Conversation} (hnew : f (new r) = none) (h : ∀ c ∈ rs, f (c.insert p r) = f c) :
    (if m.id = p then insertIn p r rs ++ [new r] else insertIn p r rs).findSome? f =
      rs.findSome? f := by
  have hrest : (insertIn p r rs).findSome? f = rs.findSome? f := by
    rw [insertIn_eq_map, List.findSome?_map, ← List.head?_filterMap, ← List.head?_filterMap]
    exact congrArg List.head? (List.filterMap_congr h)
  split
  · rw [List.findSome?_append, List.findSome?_singleton, hrest, hnew, Option.or_none]
  · exact hrest

/-- A new reply changes the parent of no other message. -/
theorem parent?_insert {id p : Text} {r : Message} (h : r.id ≠ id) (c : Conversation) :
    (c.insert p r).parent? id = c.parent? id := by
  induction c with
  | node m rs ih =>
    have hany : (if m.id = p then insertIn p r rs ++ [new r] else insertIn p r rs).any
        (·.first.id == id) = rs.any (·.first.id == id) := by
      have hold : (insertIn p r rs).any (·.first.id == id) = rs.any (·.first.id == id) := by
        rw [insertIn_eq_map, List.any_map]
        exact congrArg rs.any (funext fun c => by rw [Function.comp_apply, first_insert])
      have hnew : ((new r).first.id == id) = false := beq_false_of_ne h
      split
      · rw [List.any_append, hold, List.any_cons, List.any_nil, hnew, Bool.or_false, Bool.or_false]
      · exact hold
    rw [insert, parent?, parent?, parentIn?_eq_findSome?, parentIn?_eq_findSome?, hany,
      findSome?_insertIn (parent?_new r id) ih]

/-- The second conversation has come from the first one by replies. -/
structure Extends (c d : Conversation) : Prop where
  first : c.first = d.first
  messages : ∀ m ∈ c.messages, m ∈ d.messages
  parents : ∀ m ∈ c.messages, c.parent? m.id = d.parent? m.id
  replies : ∀ m ∈ c.messages, c.replies m.id <+: d.replies m.id

theorem Extends.refl (c : Conversation) : Extends c c :=
  ⟨rfl, fun _ h => h, fun _ _ => rfl, fun _ _ => List.prefix_refl _⟩

theorem Extends.trans {c d e : Conversation} (h : Extends c d) (h' : Extends d e) :
    Extends c e where
  first := h.first.trans h'.first
  messages m hm := h'.messages m (h.messages m hm)
  parents m hm := (h.parents m hm).trans (h'.parents m (h.messages m hm))
  replies m hm := (h.replies m hm).trans (h'.replies m (h.messages m hm))

theorem extends_insert {p : Text} {r : Message} {c : Conversation} (hn : c.ids.Nodup)
    (hr : r.id ∉ c.ids) : Extends c (c.insert p r) := by
  by_cases hp : p ∈ c.ids
  · refine ⟨(first_insert p r c).symm, fun m hm => ?_, fun m hm => ?_, fun m _ => ?_⟩
    · exact (messages_insert_perm hn hp).mem_iff.mpr (List.mem_cons_of_mem r hm)
    · have hne : r.id ≠ m.id := fun h => hr (h ▸ id_mem_ids hm)
      exact (parent?_insert hne c).symm
    · rw [replies_insert hp hr]
      exact List.prefix_append _ _
  · rw [insert_of_notMem hp]
    exact Extends.refl c

end Conversation
end MailArchive
