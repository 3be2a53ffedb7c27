import MailArchive.Proofs.Conversation.Linked

/-!
# MailArchive.Proofs.Conversation.Shape

A conversation is known from its first message and from the replies to each message
(`Shaped.eq`), and so are several conversations in which no identifier comes twice
(`eq_of_replies`).
-/

namespace MailArchive
namespace Conversation

/-- Under each message of the conversation stand the replies that are listed for its identifier. -/
inductive Shaped (listed : Text → List Message) : Conversation → Prop where
  | node {m : Message} {rs : List Conversation} (here : rs.map first = listed m.id)
      (below : ∀ r ∈ rs, Shaped listed r) : Shaped listed (.node m rs)

/-- Conversations with the same first messages are the same if those that begin alike are. -/
theorem eq_of_map_first {rs ss : List Conversation}
    (h : ∀ r ∈ rs, ∀ s ∈ ss, r.first = s.first → r = s) (hmap : rs.map first = ss.map first) :
    rs = ss := by
  induction rs generalizing ss with
  | nil => exact (List.map_eq_nil_iff.mp hmap.symm).symm
  | cons r rs ih =>
    cases ss with
    | nil => cases hmap
    | cons s ss =>
      rw [List.map_cons, List.map_cons, List.cons.injEq] at hmap
      obtain ⟨hfirst, hrest⟩ := hmap
      have hrs : rs = ss := ih (fun a ha b hb =>
        h a (List.mem_cons_of_mem r ha) b (List.mem_cons_of_mem s hb)) hrest
      rw [hrs, h r List.mem_cons_self s List.mem_cons_self hfirst]

theorem Shaped.eq {listed : Text → List Message} {c d : Conversation} (hc : Shaped listed c)
    (hd : Shaped listed d) (h : c.first = d.first) : c = d := by
  induction hc generalizing d with
  | @node m rs here _ ih =>
    obtain ⟨here', below'⟩ := hd
    obtain rfl : m = _ := h
    rw [eq_of_map_first (fun r hr s hs => ih r hr (below' s hs)) (here.trans here'.symm)]

/-- The replies to a message are those in the reply that has the message. -/
theorem replies_of_mem_branch {id : Text} {m : Message} {rs : List Conversation} {r : Conversation}
    (hn : (node m rs).ids.Nodup) (hr : r ∈ rs) (hid : id ∈ r.ids) :
    (node m rs).replies id = r.replies id := by
  have hrs : (idsIn rs).Nodup := (List.nodup_cons.mp hn).2
  rw [replies, replies, find?_node_of_ne (ne_of_mem_branch hn hr hid),
    findSome?_of_mem_ids hrs (fun _ _ => find?_eq_none_iff.mpr) hr hid]

theorem shaped_of_replies {listed : Text → List Message} {c : Conversation} (hn : c.ids.Nodup)
    (h : ∀ m ∈ c.messages, c.replies m.id = listed m.id) : Shaped listed c := by
  induction c with
  | node m rs ih =>
    refine .node ?_ fun r hr => ?_
    · rw [← h m List.mem_cons_self, replies_of_find? (find?_node_self m rs), branches_node]
    · refine ih r hr (nodup_ids_of_mem (List.nodup_cons.mp hn).2 hr) fun x hx => ?_
      rw [← replies_of_mem_branch hn hr (id_mem_ids hx)]
      exact h x (List.mem_cons_of_mem m (mem_messagesIn.mpr ⟨r, hr, hx⟩))

theorem eq_of_replies {listed : Text → List Message} {f g : List Conversation}
    (hf : (idsIn f).Nodup) (hg : (idsIn g).Nodup) (hfirst : f.map first = g.map first)
    (hfr : ∀ c ∈ f, ∀ m ∈ c.messages, c.replies m.id = listed m.id)
    (hgr : ∀ c ∈ g, ∀ m ∈ c.messages, c.replies m.id = listed m.id) : f = g := by
  refine eq_of_map_first (fun c hc d hd h => ?_) hfirst
  have hshape : Shaped listed c := shaped_of_replies (nodup_ids_of_mem hf hc) (hfr c hc)
  exact hshape.eq (shaped_of_replies (nodup_ids_of_mem hg hd) (hgr d hd)) h

end Conversation
end MailArchive
