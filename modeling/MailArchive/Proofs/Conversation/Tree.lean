import MailArchive.Conversation

/-!
# MailArchive.Proofs.Conversation.Tree

What adding a reply does to a conversation, seen through its messages, its identifiers and the
replies under each message.

* `Conversation.induction`: what holds of a message as soon as it holds of all replies under it
  holds of every conversation.
* `messages_insert_perm`: one more message, and all the others as before.
* `find?_insert`, `find?_insert_self`: the part under an old identifier gets the same insertion, the
  part under the new one holds nothing else.
* `replies_insert`: the new message comes last among the replies to its parent, and the replies to
  every other message stay as they are.
-/

namespace MailArchive
namespace Conversation

/-! ## Induction -/

/-- A conversation is built from the replies to its first message. -/
@[induction_eliminator]
theorem induction {motive : Conversation → Prop}
    (node : ∀ m rs, (∀ r ∈ rs, motive r) → motive (.node m rs)) (c : Conversation) : motive c := by
  refine @Conversation.rec motive (fun rs => ∀ r ∈ rs, motive r) node ?_ ?_ c
  · intro r hr
    cases hr
  · intro d ds hd hds r hr
    rcases List.mem_cons.mp hr with rfl | hr
    · exact hd
    · exact hds r hr

/-! ## Several conversations -/

theorem messagesIn_eq_flatMap (cs : List Conversation) : messagesIn cs = cs.flatMap messages := by
  induction cs with
  | nil => rfl
  | cons c cs ih => rw [messagesIn, ih, List.flatMap_cons]

theorem insertIn_eq_map (p : Text) (r : Message) (cs : List Conversation) :
    insertIn p r cs = cs.map (insert p r) := by
  induction cs with
  | nil => rfl
  | cons c cs ih => rw [insertIn, ih, List.map_cons]

theorem findIn?_eq_findSome? (id : Text) (cs : List Conversation) :
    findIn? id cs = cs.findSome? (find? id) := by
  induction cs with
  | nil => rfl
  | cons c cs ih => cases h : find? id c <;> simp [findIn?, h, ih]

@[simp] theorem messagesIn_append (cs ds : List Conversation) :
    messagesIn (cs ++ ds) = messagesIn cs ++ messagesIn ds := by
  simp [messagesIn_eq_flatMap]

/-- The identifiers of the messages of several conversations. -/
def idsIn (cs : List Conversation) : List Text := (messagesIn cs).map Message.id

theorem mem_idsIn {id : Text} {cs : List Conversation} : id ∈ idsIn cs ↔ ∃ c ∈ cs, id ∈ c.ids := by
  rw [idsIn, messagesIn_eq_flatMap, List.map_flatMap, List.mem_flatMap]
  rfl

theorem mem_messagesIn {m : Message} {cs : List Conversation} :
    m ∈ messagesIn cs ↔ ∃ c ∈ cs, m ∈ c.messages := by
  simp [messagesIn_eq_flatMap]

/-! ## Messages and identifiers -/

theorem ids_node (m : Message) (rs : List Conversation) :
    (node m rs).ids = m.id :: idsIn rs := rfl

theorem first_mem_messages (c : Conversation) : c.first ∈ c.messages := by
  cases c with
  | node m rs => exact List.mem_cons_self

theorem id_mem_ids {c : Conversation} {m : Message} (h : m ∈ c.messages) : m.id ∈ c.ids :=
  List.mem_map_of_mem h

theorem mem_ids_node {id : Text} {m : Message} {rs : List Conversation} :
    id ∈ (node m rs).ids ↔ id = m.id ∨ ∃ r ∈ rs, id ∈ r.ids := by
  rw [ids_node, List.mem_cons, mem_idsIn]

@[simp] theorem messages_new (m : Message) : (new m).messages = [m] := rfl

@[simp] theorem ids_new (m : Message) : (new m).ids = [m.id] := rfl

@[simp] theorem first_new (m : Message) : (new m).first = m := rfl

@[simp] theorem first_node (m : Message) (rs : List Conversation) : (node m rs).first = m := rfl

@[simp] theorem branches_node (m : Message) (rs : List Conversation) : (node m rs).branches = rs :=
  rfl

@[simp] theorem first_insert (p : Text) (r : Message) (c : Conversation) :
    (c.insert p r).first = c.first := by
  cases c with
  | node m rs => rfl

/-- A reply to a message that is not there changes nothing. -/
theorem insert_of_notMem {p : Text} {r : Message} {c : Conversation} (h : p ∉ c.ids) :
    c.insert p r = c := by
  induction c with
  | node m rs ih =>
    rw [mem_ids_node, not_or] at h
    obtain ⟨hm, hrs⟩ := h
    have hmap : rs.map (insert p r) = rs := by
      conv => rhs; rw [← List.map_id rs]
      refine List.map_congr_left fun c hc => ?_
      exact ih c hc fun hp => hrs ⟨c, hc, hp⟩
    rw [insert, insertIn_eq_map, hmap, if_neg (Ne.symm hm)]

theorem insertIn_of_notMem {p : Text} {r : Message} {cs : List Conversation} (h : p ∉ idsIn cs) :
    insertIn p r cs = cs := by
  rw [mem_idsIn] at h
  rw [insertIn_eq_map]
  conv => rhs; rw [← List.map_id cs]
  exact List.map_congr_left fun c hc => insert_of_notMem fun hp => h ⟨c, hc, hp⟩

/-- The identifiers of several conversations are all different if they are so within each of them
and no two of them share one. -/
theorem nodup_ids_cons {c : Conversation} {cs : List Conversation}
    (h : (idsIn (c :: cs)).Nodup) :
    c.ids.Nodup ∧ (idsIn cs).Nodup ∧ ∀ id ∈ c.ids, id ∉ idsIn cs := by
  rw [idsIn, messagesIn, List.map_append, List.nodup_append] at h
  exact ⟨h.1, h.2.1, fun id hc hcs => h.2.2 id hc id hcs rfl⟩

mutual

/-- A reply to a message that is there adds itself to the messages. -/
theorem messages_insert_perm {p : Text} {r : Message} {c : Conversation} (hn : c.ids.Nodup)
    (h : p ∈ c.ids) : (c.insert p r).messages.Perm (r :: c.messages) := by
  cases c with
  | node m rs =>
    rw [ids_node, List.nodup_cons] at hn
    rw [insert, messages, messages]
    by_cases hm : m.id = p
    · rw [if_pos hm, insertIn_of_notMem (hm ▸ hn.1), messagesIn_append]
      refine (List.Perm.cons m List.perm_append_comm).trans ?_
      exact List.Perm.swap r m (messagesIn rs)
    · rw [if_neg hm]
      rw [ids_node, List.mem_cons] at h
      have hp : p ∈ idsIn rs := h.resolve_left (Ne.symm hm)
      exact ((messagesIn_insertIn_perm hn.2 hp).cons m).trans (List.Perm.swap r m (messagesIn rs))

theorem messagesIn_insertIn_perm {p : Text} {r : Message} {cs : List Conversation}
    (hn : (idsIn cs).Nodup) (h : p ∈ idsIn cs) :
    (messagesIn (insertIn p r cs)).Perm (r :: messagesIn cs) := by
  cases cs with
  | nil => cases h
  | cons c cs =>
    obtain ⟨hc, hcs, hd⟩ := nodup_ids_cons hn
    rw [idsIn, messagesIn, List.map_append, List.mem_append] at h
    rw [insertIn, messagesIn, messagesIn]
    by_cases hp : p ∈ c.ids
    · rw [insertIn_of_notMem (hd p hp)]
      exact (messages_insert_perm hc hp).append_right (messagesIn cs)
    · rw [insert_of_notMem hp]
      have hpcs : p ∈ idsIn cs := h.resolve_left hp
      refine ((messagesIn_insertIn_perm hcs hpcs).append_left c.messages).trans ?_
      exact List.perm_middle

end

/-! ## The part under a message -/

@[simp] theorem find?_node_self (m : Message) (rs : List Conversation) :
    (node m rs).find? m.id = some (node m rs) := by
  rw [find?, if_pos rfl]

theorem find?_node_of_ne {id : Text} {m : Message} {rs : List Conversation} (h : m.id ≠ id) :
    (node m rs).find? id = rs.findSome? (find? id) := by
  rw [find?, if_neg h, findIn?_eq_findSome?]

/-- The part that is found begins with the message with the identifier. -/
theorem first_of_find? {id : Text} {c part : Conversation} (h : c.find? id = some part) :
    part.first.id = id := by
  induction c with
  | node m rs ih =>
    by_cases hm : m.id = id
    · rw [find?, if_pos hm, Option.some.injEq] at h
      rw [← h]
      exact hm
    · rw [find?_node_of_ne hm] at h
      obtain ⟨d, hd, hpart⟩ := List.exists_of_findSome?_eq_some h
      exact ih d hd hpart

/-- A search that looks at the first message and then at the replies comes to nothing exactly if
nothing has the identifier. -/
theorem search_eq_none_iff {α : Type} {f : Conversation → Option α} {id : Text}
    (here : ∀ m rs, m.id = id → f (node m rs) ≠ none)
    (below : ∀ m rs, m.id ≠ id → (f (node m rs) = none ↔ ∀ r ∈ rs, f r = none))
    (c : Conversation) : f c = none ↔ id ∉ c.ids := by
  induction c with
  | node m rs ih =>
    rw [mem_ids_node, not_or]
    by_cases hm : m.id = id
    · exact iff_of_false (here m rs hm) fun h => h.1 hm.symm
    · rw [below m rs hm]
      constructor
      · intro h
        refine ⟨Ne.symm hm, fun ⟨r, hr, hid⟩ => ?_⟩
        exact (ih r hr).mp (h r hr) hid
      · intro h r hr
        exact (ih r hr).mpr fun hid => h.2 ⟨r, hr, hid⟩

theorem find?_eq_none_iff {id : Text} {c : Conversation} : c.find? id = none ↔ id ∉ c.ids := by
  refine search_eq_none_iff (f := find? id) ?_ ?_ c
  · rintro m rs rfl
    rw [find?_node_self]
    exact Option.some_ne_none _
  · intro m rs hm
    rw [find?_node_of_ne hm, List.findSome?_eq_none_iff]

/-- The part under any identifier but the new one gets the same insertion. -/
theorem find?_insert {id p : Text} {r : Message} (h : r.id ≠ id) (c : Conversation) :
    (c.insert p r).find? id = (c.find? id).map (insert p r) := by
  induction c with
  | node m rs ih =>
    have hrest : (rs.map (insert p r)).findSome? (find? id) =
        (rs.findSome? (find? id)).map (insert p r) := by
      induction rs with
      | nil => rfl
      | cons d ds ihds =>
        have hd := ih d List.mem_cons_self
        have hds := ihds fun c hc => ih c (List.mem_cons_of_mem d hc)
        rw [List.map_cons, List.findSome?_cons, List.findSome?_cons, hd, hds]
        cases d.find? id <;> rfl
    by_cases hm : m.id = id
    · rw [← hm, find?_node_self, insert]
      exact find?_node_self m _
    · rw [insert, find?_node_of_ne hm, find?_node_of_ne hm, insertIn_eq_map, ← hrest]
      split
      · have hnew : (new r).find? id = none := by simp [find?_eq_none_iff, Ne.symm h]
        rw [List.findSome?_append, List.findSome?_singleton, hnew, Option.or_none]
      · rfl

/-- Nothing stands under a new message. -/
theorem find?_insert_self {p : Text} {r : Message} {c : Conversation} (hp : p ∈ c.ids)
    (hr : r.id ∉ c.ids) : (c.insert p r).find? r.id = some (new r) := by
  induction c with
  | node m rs ih =>
    rw [mem_ids_node, not_or] at hr
    obtain ⟨hm, hrs⟩ := hr
    rw [mem_ids_node] at hp
    rw [insert, find?_node_of_ne (Ne.symm hm), insertIn_eq_map]
    -- Each reply has the new message exactly if it has the parent.
    have hpart : ∀ d ∈ rs,
        (d.insert p r).find? r.id = if p ∈ d.ids then some (new r) else none := by
      intro d hd
      have hrd : r.id ∉ d.ids := fun h => hrs ⟨d, hd, h⟩
      by_cases hpd : p ∈ d.ids
      · rw [if_pos hpd, ih d hd hpd hrd]
      · rw [if_neg hpd, insert_of_notMem hpd, find?_eq_none_iff]
        exact hrd
    have hmap : (rs.map (insert p r)).findSome? (find? r.id) =
        if ∃ d ∈ rs, p ∈ d.ids then some (new r) else none := by
      clear ih hrs hp
      induction rs with
      | nil => simp
      | cons d ds ihds =>
        rw [List.map_cons, List.findSome?_cons, hpart d List.mem_cons_self,
          ihds fun c hc => hpart c (List.mem_cons_of_mem d hc)]
        by_cases hpd : p ∈ d.ids <;> simp [hpd]
    have hnew : (new r).find? r.id = some (new r) := find?_node_self r []
    by_cases hmp : m.id = p
    · rw [if_pos hmp, List.findSome?_append, hmap, List.findSome?_singleton, hnew]
      split <;> rfl
    · rw [if_neg hmp, hmap, if_pos (hp.resolve_left (Ne.symm hmp))]

/-! ## Replies -/

theorem replies_of_find? {id : Text} {c part : Conversation} (h : c.find? id = some part) :
    c.replies id = part.branches.map first := by
  rw [replies, h]
  rfl

theorem replies_of_notMem {id : Text} {c : Conversation} (h : id ∉ c.ids) : c.replies id = [] := by
  rw [replies, find?_eq_none_iff.mpr h]
  rfl

@[simp] theorem replies_new (m : Message) (id : Text) : (new m).replies id = [] := by
  by_cases h : m.id = id
  · exact replies_of_find? (show (new m).find? id = some (new m) from h ▸ find?_node_self m [])
  · exact replies_of_notMem (by simpa using Ne.symm h)

theorem branches_insert (p : Text) (r : Message) (c : Conversation) :
    (c.insert p r).branches.map first =
      c.branches.map first ++ if c.first.id = p then [r] else [] := by
  cases c with
  | node m rs =>
    have h : (rs.map (insert p r)).map first = rs.map first := by
      rw [List.map_map]
      exact List.map_congr_left fun c _ => first_insert p r c
    rw [insert, insertIn_eq_map]
    by_cases hm : m.id = p
    · simp only [hm, if_true, branches_node, first_node, List.map_append, h, List.map_singleton,
        first_new]
    · simp only [hm, if_false, branches_node, first_node, h, List.append_nil]

theorem exists_find? {id : Text} {c : Conversation} (h : id ∈ c.ids) :
    ∃ part, c.find? id = some part := by
  cases hf : c.find? id with
  | none => exact absurd h (find?_eq_none_iff.mp hf)
  | some part => exact ⟨part, rfl⟩

/-- The new message is the last reply to its parent and has no replies; all others have the replies
they had. -/
theorem replies_insert {p : Text} {r : Message} {c : Conversation} (hp : p ∈ c.ids)
    (hr : r.id ∉ c.ids) (id : Text) :
    (c.insert p r).replies id = c.replies id ++ if id = p then [r] else [] := by
  by_cases hid : id ∈ c.ids
  · have hne : r.id ≠ id := fun h => hr (h ▸ hid)
    obtain ⟨part, hpart⟩ := exists_find? hid
    have hins : (c.insert p r).find? id = some (part.insert p r) := by
      rw [find?_insert hne, hpart, Option.map_some]
    rw [replies_of_find? hins, replies_of_find? hpart, branches_insert, first_of_find? hpart]
  · have hpid : id ≠ p := fun h => hid (h ▸ hp)
    rw [replies_of_notMem hid, if_neg hpid, List.append_nil]
    by_cases hne : r.id = id
    · rw [← hne, replies_of_find? (find?_insert_self hp hr)]
      rfl
    · rw [replies, find?_insert hne, find?_eq_none_iff.mpr hid]
      rfl

/-! ## Adding -/

theorem add?_eq_some_iff {p : Text} {r : Message} {c d : Conversation} :
    c.add? p r = some d ↔ p ∈ c.ids ∧ r.id ∉ c.ids ∧ c.insert p r = d := by
  rw [add?, ← contains_iff, ← contains_iff]
  cases c.contains p <;> cases c.contains r.id <;> simp

end Conversation
end MailArchive
