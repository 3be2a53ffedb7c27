import MailArchive.Proofs.Conversation.Extension
import MailArchive.Proofs.Conversation.Subtree
import MailArchive.Proofs.Conversation.Views

/-!
# MailArchive.Proofs.Conversation.Offer

What comes of offering a reply to a conversation. Each question about a message is answered as
before, unless it is about the new message or about the replies to its parent (`depth?_insert`,
`get?_insert`, and `replies_insert`, `parent?_insert` before). `Added` says all that a reply changes
when it is taken, `offer_grow` when it is taken and that nothing changes when it is not.
-/

namespace MailArchive
namespace Conversation

variable {c d : Conversation} {id p : Text} {m q r : Message}

/-! ## Questions about one identifier -/

theorem depth?_new (h : m.id ≠ id) : (new m).depth? id = none :=
  depth?_eq_none_iff.mpr (by simpa using Ne.symm h)

/-- A new reply changes the depth of no other message. -/
theorem depth?_insert (h : r.id ≠ id) (c : Conversation) :
    (c.insert p r).depth? id = c.depth? id := by
  induction c with
  | node m rs ih =>
    by_cases hm : m.id = id
    · rw [insert, depth?, depth?, if_pos hm, if_pos hm]
    · rw [insert, depth?_node_of_ne hm, depth?_node_of_ne hm,
        findSome?_insertIn (depth?_new h) ih]

theorem get?_insert (h : r.id ≠ id) (c : Conversation) :
    (c.insert p r).get? id = c.get? id := by
  rw [get?, get?, find?_insert h, Option.map_map]
  exact congrFun (congrArg Option.map (funext (first_insert p r))) _

theorem get?_insert_self (hp : p ∈ c.ids) (hr : r.id ∉ c.ids) :
    (c.insert p r).get? r.id = some r := by
  rw [get?, find?_insert_self hp hr]
  rfl

theorem mem_ids_insert (hn : c.ids.Nodup) (hp : p ∈ c.ids) :
    id ∈ (c.insert p r).ids ↔ id = r.id ∨ id ∈ c.ids := by
  rw [ids, ((messages_insert_perm hn hp).map Message.id).mem_iff, List.map_cons, List.mem_cons]
  rfl

/-- A message that has a parent is among the replies to it. -/
theorem exists_mem_replies_of_parent? (hn : c.ids.Nodup) (h : c.parent? id = some q) :
    ∃ m ∈ c.replies q.id, m.id = id := by
  induction c with
  | node n rs ih =>
    rw [parent?] at h
    split at h
    · cases h
    · split at h
      · rename_i hany
        cases h
        obtain ⟨r, hr, hid⟩ := List.any_eq_true.mp hany
        refine ⟨r.first, ?_, beq_iff_eq.mp hid⟩
        rw [replies_of_find? (find?_node_self _ rs), branches_node]
        exact List.mem_map_of_mem hr
      · rw [parentIn?_eq_findSome?] at h
        obtain ⟨r, hr, hq⟩ := List.exists_of_findSome?_eq_some h
        have hqr : q.id ∈ r.ids := id_mem_ids (mem_of_parent? hq).2
        rw [replies_of_mem_branch hn hr hqr]
        exact ih r hr (nodup_ids_of_mem (List.nodup_cons.mp hn).2 hr) hq

theorem nodup_ids_insert (hn : c.ids.Nodup) (hp : p ∈ c.ids) (hr : r.id ∉ c.ids) :
    (c.insert p r).ids.Nodup :=
  ((messages_insert_perm hn hp).map Message.id).nodup_iff.mpr (List.nodup_cons.mpr ⟨hr, hn⟩)

/-- The new message has the message with the given identifier as its parent. -/
theorem parent?_insert_self (hn : c.ids.Nodup) (hp : p ∈ c.ids) (hr : r.id ∉ c.ids) :
    (c.insert p r).parent? r.id = c.get? p := by
  have hdn := nodup_ids_insert hn hp hr
  have hne : r.id ≠ (c.insert p r).first.id := by
    rw [first_insert]
    exact fun h => hr (h ▸ id_mem_ids (first_mem_messages c))
  obtain ⟨q, hq⟩ := exists_parent? ((mem_ids_insert hn hp).mpr (.inl rfl)) hne
  obtain ⟨m, hm, hid⟩ := exists_mem_replies_of_parent? hdn hq
  rw [replies_insert hp hr, List.mem_append] at hm
  have hqp : q.id = p := by
    rcases hm with hm | hm
    · exact absurd (hid ▸ id_mem_ids (mem_messages_of_mem_replies hn hm)) hr
    · by_contra hne
      rw [if_neg hne] at hm
      cases hm
  have hrq : r.id ≠ q.id := fun h => hr (h ▸ hqp ▸ hp)
  rw [hq, ← hqp, ← get?_insert hrq c, get?_of_mem_messages hdn (mem_of_parent? hq).2]

/-- The new message is one deeper than its parent. -/
theorem depth?_insert_self (hn : c.ids.Nodup) (hp : p ∈ c.ids) (hr : r.id ∉ c.ids) :
    (c.insert p r).depth? r.id = (c.depth? p).map (· + 1) := by
  obtain ⟨q, hq, rfl⟩ := List.mem_map.mp hp
  have hparent : (c.insert q.id r).parent? r.id = some q := by
    rw [parent?_insert_self hn hp hr, get?_of_mem_messages hn hq]
  have hrq : r.id ≠ q.id := fun h => hr (h ▸ hp)
  rw [depth?_of_parent? (nodup_ids_insert hn hp hr) hparent, depth?_insert hrq]

/-! ## All that a reply changes -/

/-- What the second conversation has that the first one has not is a reply to the message with an
identifier. -/
structure Added (c : Conversation) (p : Text) (r : Message) (d : Conversation) : Prop where
  /-- The reply comes right after the last message to which replies lead from its parent. -/
  order : ∃ q before part after, c.get? p = some q ∧ (∀ m, m ∈ part ↔ c.Leads q m) ∧
    c.messages = before ++ (part ++ after) ∧ d.messages = before ++ (part ++ r :: after)
  /-- It is the last one of the replies to its parent, and nobody has replied to it. -/
  repliesParent : d.replies p = c.replies p ++ [r]
  repliesNew : d.replies r.id = []
  parentNew : ∃ q, c.get? p = some q ∧ d.parent? r.id = some q
  depthNew : ∃ n, c.depth? p = some n ∧ d.depth? r.id = some (n + 1)
  messageNew : d.get? r.id = some r
  /-- All other answers are the old ones. -/
  contains : ∀ id, d.contains id = true ↔ id = r.id ∨ c.contains id = true
  replies : ∀ id, id ≠ p → id ≠ r.id → d.replies id = c.replies id
  parent : ∀ id, id ≠ r.id → d.parent? id = c.parent? id
  depth : ∀ id, id ≠ r.id → d.depth? id = c.depth? id
  message : ∀ id, id ≠ r.id → d.get? id = c.get? id
  first : d.first = c.first

theorem added_insert (hn : c.ids.Nodup) (hp : p ∈ c.ids) (hr : r.id ∉ c.ids) :
    Added c p r (c.insert p r) where
  order := by
    obtain ⟨part, hpart⟩ := exists_find? hp
    obtain ⟨before, after, hold, hnew⟩ := exists_messages_insert hn hpart r
    refine ⟨part.first, before, part.messages, after, ?_, fun m => ?_, hold, hnew⟩
    · rw [get?, hpart, Option.map_some]
    · exact mem_messages_iff_of_find? hn hpart
  repliesParent := by rw [replies_insert hp hr, if_pos rfl]
  repliesNew := by
    have hne : r.id ≠ p := fun h => hr (h ▸ hp)
    rw [replies_insert hp hr, replies_of_notMem hr, if_neg hne, List.append_nil]
  parentNew := by
    obtain ⟨q, hq, rfl⟩ := List.mem_map.mp hp
    have hget := get?_of_mem_messages hn hq
    exact ⟨q, hget, by rw [parent?_insert_self hn hp hr, hget]⟩
  depthNew := by
    obtain ⟨n, hdepth⟩ := exists_depth? hp
    exact ⟨n, hdepth, by rw [depth?_insert_self hn hp hr, hdepth, Option.map_some]⟩
  messageNew := get?_insert_self hp hr
  contains id := by rw [contains_iff, contains_iff, mem_ids_insert hn hp]
  replies id hid _ := by rw [replies_insert hp hr, if_neg hid, List.append_nil]
  parent id hid := parent?_insert (Ne.symm hid) c
  depth id hid := depth?_insert (Ne.symm hid) c
  message id hid := get?_insert (Ne.symm hid) c
  first := first_insert p r c

/-- **The effect of a reply.** After any tries to add a reply to a conversation, one more reply is
taken exactly if the message it replies to is there and its own identifier is not. Then it is put
in right after all that stands under its parent, and changes nothing but what `Added` says.
Otherwise it is handed back, and the conversation is what it was. All of this is the same for the
table in which the conversation is kept. -/
theorem offer_grow (root : Message) (tries : List (Text × Message)) (p : Text) (r : Message) :
    let t := Table.grow root tries
    let c := grow root tries
    Views t c ∧
      if c.contains p = true ∧ c.contains r.id = false then
        ∃ t' d, t.offer p r = (t', none) ∧ c.offer p r = (d, none) ∧ Views t' d ∧ Added c p r d
      else t.offer p r = (t, some r) ∧ c.offer p r = (c, some r) := by
  intro t c
  have h : t.Holds c := Table.holds_grow root tries
  have hiff : c.contains p = true ∧ c.contains r.id = false ↔ p ∈ c.ids ∧ r.id ∉ c.ids := by
    rw [contains_iff, ← Bool.not_eq_true, contains_iff]
  refine ⟨h.views, ?_⟩
  rcases h.add? p r with ⟨ht, hc⟩ | ⟨t', d, ht, hc, hd⟩
  · rw [if_neg]
    · exact ⟨by rw [Table.offer, ht], by rw [offer, hc]⟩
    · rw [hiff]
      rintro ⟨hp, hr⟩
      rw [add?_eq_some_iff.mpr ⟨hp, hr, rfl⟩] at hc
      cases hc
  · obtain ⟨hp, hr, rfl⟩ := add?_eq_some_iff.mp hc
    rw [if_pos (hiff.mpr ⟨hp, hr⟩)]
    refine ⟨t', c.insert p r, ?_, ?_, hd.views, added_insert h.nodup hp hr⟩
    · rw [Table.offer, ht]
    · rw [offer, hc]

/-- A reply to a message that has replies comes behind all that stands under them. -/
example :
    let m (id : String) : Message := .new id.toList ⟨[], []⟩
    let c := grow (m "a") [("a".toList, m "b"), ("a".toList, m "c"), ("b".toList, m "d")]
    (c.offer "b".toList (m "e")).1.ids = ["a", "b", "d", "e", "c"].map String.toList := by
  decide

end Conversation
end MailArchive
