import Mathlib.Data.List.Nodup
import MailArchive.Proofs.Conversation.Tree

/-!
# MailArchive.Proofs.Conversation.Linked

A conversation is linked if every message in it but the first stands under the message that its
`In-Reply-To` header names. `Linked.insert` says that adding a reply under the message it names
keeps this, `Linked.exists_parent` that `parent?` then answers what the headers say.
-/

namespace MailArchive
namespace Conversation

/-- Every message but the first stands under the message to which its header says it replies. -/
inductive Linked : Conversation → Prop where
  | node {m : Message} {rs : List Conversation}
      (links : ∀ r ∈ rs, r.first.inReplyTo? = some m.id) (below : ∀ r ∈ rs, Linked r) :
      Linked (.node m rs)

theorem linked_new (m : Message) : Linked (new m) :=
  .node (fun _ h => nomatch h) (fun _ h => nomatch h)

theorem Linked.insert {p : Text} {r : Message} {c : Conversation} (hr : r.inReplyTo? = some p)
    (hc : Linked c) : Linked (c.insert p r) := by
  induction c with
  | node m rs ih =>
    obtain ⟨links, below⟩ := hc
    rw [Conversation.insert, insertIn_eq_map]
    have hlinks : ∀ d ∈ rs.map (Conversation.insert p r), d.first.inReplyTo? = some m.id := by
      intro d hd
      obtain ⟨e, he, rfl⟩ := List.mem_map.mp hd
      rw [first_insert]
      exact links e he
    have hbelow : ∀ d ∈ rs.map (Conversation.insert p r), Linked d := by
      intro d hd
      obtain ⟨e, he, rfl⟩ := List.mem_map.mp hd
      exact ih e he (below e he)
    by_cases hm : m.id = p
    · rw [if_pos hm]
      refine .node ?_ ?_
      · intro d hd
        rcases List.mem_append.mp hd with hd | hd
        · exact hlinks d hd
        · rw [List.mem_singleton.mp hd, first_new, hr, hm]
      · intro d hd
        rcases List.mem_append.mp hd with hd | hd
        · exact hbelow d hd
        · rw [List.mem_singleton.mp hd]
          exact linked_new r
    · rw [if_neg hm]
      exact .node hlinks hbelow

/-! ## Parents -/

theorem parentIn?_eq_findSome? (id : Text) (cs : List Conversation) :
    parentIn? id cs = cs.findSome? (parent? id) := by
  induction cs with
  | nil => rfl
  | cons c cs ih => cases h : parent? id c <;> simp [parentIn?, h, ih]

theorem parent?_first (c : Conversation) : c.parent? c.first.id = none := by
  cases c with
  | node m rs => rw [first_node, parent?, if_pos rfl]

/-- A message that has a parent is not the only thing that is there: its parent is too. -/
theorem mem_of_parent? {id : Text} {c : Conversation} {p : Message} (h : c.parent? id = some p) :
    id ∈ c.ids ∧ p ∈ c.messages := by
  induction c with
  | node m rs ih =>
    rw [parent?] at h
    split at h
    · cases h
    · rw [mem_ids_node, messages, List.mem_cons]
      split at h
      · rename_i hany
        cases h
        obtain ⟨r, hr, hid⟩ := List.any_eq_true.mp hany
        exact ⟨.inr ⟨r, hr, beq_iff_eq.mp hid ▸ id_mem_ids (first_mem_messages r)⟩, .inl rfl⟩
      · rw [parentIn?_eq_findSome?] at h
        obtain ⟨r, hr, hp⟩ := List.exists_of_findSome?_eq_some h
        obtain ⟨hid, hmem⟩ := ih r hr hp
        exact ⟨.inr ⟨r, hr, hid⟩, .inr (mem_messagesIn.mpr ⟨r, hr, hmem⟩)⟩

/-- Two conversations of several in which no identifier comes twice share an identifier only if they
are the same. -/
theorem eq_of_mem_ids {id : Text} {cs : List Conversation} {c d : Conversation}
    (hn : (idsIn cs).Nodup) (hc : c ∈ cs) (hd : d ∈ cs) (hidc : id ∈ c.ids) (hidd : id ∈ d.ids) :
    c = d := by
  induction cs with
  | nil => cases hc
  | cons e es ih =>
    obtain ⟨-, hes, hdisj⟩ := nodup_ids_cons hn
    rcases List.mem_cons.mp hc with rfl | hc'
    · rcases List.mem_cons.mp hd with rfl | hd'
      · rfl
      · exact absurd (mem_idsIn.mpr ⟨d, hd', hidd⟩) (hdisj id hidc)
    · rcases List.mem_cons.mp hd with rfl | hd'
      · exact absurd (mem_idsIn.mpr ⟨c, hc', hidc⟩) (hdisj id hidd)
      · exact ih hes hc' hd'

theorem nodup_ids_of_mem {cs : List Conversation} {c : Conversation} (hn : (idsIn cs).Nodup)
    (hc : c ∈ cs) : c.ids.Nodup := by
  induction cs with
  | nil => cases hc
  | cons e es ih =>
    obtain ⟨he, hes, -⟩ := nodup_ids_cons hn
    rcases List.mem_cons.mp hc with rfl | hc
    · exact he
    · exact ih hes hc

/-- No identifier under a message is its own. -/
theorem ne_of_mem_branch {id : Text} {m : Message} {rs : List Conversation} {r : Conversation}
    (hn : (node m rs).ids.Nodup) (hr : r ∈ rs) (hid : id ∈ r.ids) : m.id ≠ id :=
  fun h => (List.nodup_cons.mp hn).1 (h ▸ mem_idsIn.mpr ⟨r, hr, hid⟩)

/-- What is nothing for a conversation without the identifier is found in the one that has it. -/
theorem findSome?_of_mem_ids {α : Type} {f : Conversation → Option α} {id : Text}
    {cs : List Conversation} {c : Conversation} (hn : (idsIn cs).Nodup)
    (hf : ∀ d ∈ cs, id ∉ d.ids → f d = none) (hc : c ∈ cs) (hid : id ∈ c.ids) :
    cs.findSome? f = f c := by
  cases h : cs.findSome? f with
  | none => exact (List.findSome?_eq_none_iff.mp h c hc).symm
  | some a =>
    obtain ⟨d, hd, ha⟩ := List.exists_of_findSome?_eq_some h
    have hidd : id ∈ d.ids := by
      by_contra hno
      rw [hf d hd hno] at ha
      cases ha
    rw [← ha, eq_of_mem_ids hn hd hc hidd hid]

/-- Every message but the first has a parent, which is the message that its header names. -/
theorem Linked.exists_parent {c : Conversation} {m : Message} (hl : Linked c) (hn : c.ids.Nodup)
    (hm : m ∈ c.messages) (hne : m ≠ c.first) :
    ∃ p ∈ c.messages, c.parent? m.id = some p ∧ m.inReplyTo? = some p.id := by
  induction c with
  | node n rs ih =>
    obtain ⟨links, below⟩ := hl
    have hrs : (idsIn rs).Nodup := (List.nodup_cons.mp hn).2
    have hin : m ∈ messagesIn rs := (List.mem_cons.mp hm).resolve_left hne
    obtain ⟨r, hr, hmr⟩ := mem_messagesIn.mp hin
    have hrn : r.ids.Nodup := nodup_ids_of_mem hrs hr
    rw [parent?, if_neg (ne_of_mem_branch hn hr (id_mem_ids hmr))]
    by_cases hany : rs.any (·.first.id == m.id) = true
    · obtain ⟨s, hs, hsid⟩ := List.any_eq_true.mp hany
      have hs' : s.first = m :=
        List.inj_on_of_nodup_map hrs (mem_messagesIn.mpr ⟨s, hs, first_mem_messages s⟩) hin
          (beq_iff_eq.mp hsid)
      exact ⟨n, List.mem_cons_self, by rw [if_pos hany], hs' ▸ links s hs⟩
    · have hmf : m ≠ r.first := by
        rintro rfl
        exact hany (List.any_eq_true.mpr ⟨r, hr, beq_self_eq_true _⟩)
      obtain ⟨p, hp, hparent, hreply⟩ := ih r hr (below r hr) hrn hmr hmf
      refine ⟨p, List.mem_cons_of_mem n (mem_messagesIn.mpr ⟨r, hr, hp⟩), ?_, hreply⟩
      rw [if_neg hany, parentIn?_eq_findSome?]
      have hnone : ∀ s ∈ rs, m.id ∉ s.ids → s.parent? m.id = none := by
        intro s _ hno
        exact Option.eq_none_iff_forall_ne_some.mpr fun q hq => hno (mem_of_parent? hq).1
      rw [findSome?_of_mem_ids hrs hnone hr (id_mem_ids hmr), hparent]

end Conversation
end MailArchive
