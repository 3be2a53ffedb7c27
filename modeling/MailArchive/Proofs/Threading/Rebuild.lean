import MailArchive.Proofs.Conversation.Shape
import MailArchive.Proofs.Threading.Reachability
import MailArchive.Proofs.Threading.Resolutions

/-!
# MailArchive.Proofs.Threading.Rebuild

Conversations that have grown from messages without a header by replies that name their parents
(`Conversation.Grown`) can be built again from the list of their messages, each before its replies.
In this list every reply comes behind its parent (`inOrder_messagesIn`), so a single pass places all
that reaches a root, and this is every message. The replies to a message come in the order in which
they stand in the conversation (`filter_messagesIn`), and nothing more is needed to know a
conversation (`eq_of_replies`). So a single pass gives the same conversations (`build_messagesIn`).
-/

namespace MailArchive

namespace Conversation

/-! ## Conversations by their headers -/

/-- What comes from a message that replies to nothing by adding replies, each under the message that
its header names. -/
inductive Grown : Conversation → Prop where
  | new {m : Message} (root : m.inReplyTo? = none) : Grown (new m)
  | add {c d : Conversation} {p : Text} {r : Message} (grown : Grown c)
      (names : r.inReplyTo? = some p) (added : c.add? p r = some d) : Grown d

theorem Grown.linked {c : Conversation} (h : Grown c) : Linked c := by
  induction h with
  | new _ => exact linked_new _
  | add _ names added ih =>
    obtain ⟨-, -, rfl⟩ := add?_eq_some_iff.mp added
    exact ih.insert names

theorem Grown.root {c : Conversation} (h : Grown c) : c.first.inReplyTo? = none := by
  induction h with
  | new root => exact root
  | add _ _ added ih =>
    obtain ⟨-, -, rfl⟩ := add?_eq_some_iff.mp added
    rw [first_insert]
    exact ih

/-! ## The order of the messages -/

/-- A message of several conversations stands in one of them, behind a part of what is before it. -/
theorem exists_of_messagesIn_eq {cs : List Conversation} {before after : List Message} {m : Message}
    (h : messagesIn cs = before ++ m :: after) :
    ∃ c ∈ cs, ∃ b a, c.messages = b ++ m :: a ∧ b ⊆ before := by
  induction cs generalizing before with
  | nil => exact absurd h.symm (by simp [messagesIn])
  | cons c cs ih =>
    rw [messagesIn, List.append_eq_append_iff] at h
    rcases h with ⟨b, hb, hrest⟩ | ⟨b, hc, hrest⟩
    · obtain ⟨d, hd, e, a, hde, hsub⟩ := ih hrest
      exact ⟨d, List.mem_cons_of_mem c hd, e, a, hde,
        hb ▸ List.subset_append_of_subset_right _ hsub⟩
    · cases b with
      | nil =>
        have hcs : messagesIn cs = [] ++ m :: after := hrest.symm
        obtain ⟨d, hd, e, a, hde, hsub⟩ := ih hcs
        refine ⟨d, List.mem_cons_of_mem c hd, e, a, hde, fun x hx => ?_⟩
        cases hsub hx
      | cons x b =>
        rw [List.cons_append, List.cons.injEq] at hrest
        obtain ⟨rfl, -⟩ := hrest
        exact ⟨c, List.mem_cons_self, before, b, hc, List.Subset.refl _⟩

/-- In a linked conversation every reply comes behind the message it replies to. -/
theorem Linked.exists_before {c : Conversation} {before after : List Message} {m : Message}
    (hl : Linked c) (h : c.messages = before ++ m :: after) :
    m = c.first ∨ ∃ p ∈ before, m.inReplyTo? = some p.id := by
  induction c generalizing before after with
  | node n rs ih =>
    obtain ⟨links, below⟩ := hl
    rw [messages] at h
    cases before with
    | nil => exact .inl (List.cons.inj h).1.symm
    | cons x before =>
      obtain ⟨rfl, hrest⟩ := List.cons.inj h
      obtain ⟨r, hr, b, a, hmr, hsub⟩ := exists_of_messagesIn_eq hrest
      rcases ih r hr (below r hr) hmr with rfl | ⟨p, hp, hreply⟩
      · exact .inr ⟨n, List.mem_cons_self, links r hr⟩
      · exact .inr ⟨p, List.mem_cons_of_mem n (hsub hp), hreply⟩

/-- Every message of a linked conversation but the first one replies to something. -/
theorem Linked.isSome_of_mem_branch {m x : Message} {rs : List Conversation}
    (hl : Linked (.node m rs)) (hx : x ∈ messagesIn rs) : x.inReplyTo?.isSome := by
  obtain ⟨links, below⟩ := hl
  obtain ⟨r, hr, hxr⟩ := mem_messagesIn.mp hx
  obtain ⟨b, a, hba⟩ := List.append_of_mem hxr
  rcases (below r hr).exists_before hba with rfl | ⟨p, -, hreply⟩
  · rw [links r hr]
    rfl
  · rw [hreply]
    rfl

end Conversation

namespace Threading

open Conversation

/-! ## The replies to a message -/

theorem replies_node {m : Message} {rs : List Conversation} (hn : (node m rs).ids.Nodup)
    (id : Text) :
    (node m rs).replies id = if m.id = id then rs.map first else repliesIn rs id := by
  by_cases hm : m.id = id
  · rw [if_pos hm, ← hm, replies_of_find? (find?_node_self m rs), branches_node]
  · rw [if_neg hm]
    by_cases hid : id ∈ idsIn rs
    · obtain ⟨r, hr, hidr⟩ := mem_idsIn.mp hid
      rw [replies_of_mem_branch hn hr hidr]
      exact (repliesIn_eq_replies (List.nodup_cons.mp hn).2 hr hidr).symm
    · have hnot : id ∉ (node m rs).ids := fun h =>
        (List.mem_cons.mp h).elim (Ne.symm hm) hid
      rw [replies_of_notMem hnot, repliesIn_of_notMem hid]

/-- Behind the first message, the replies to a message come as they stand under it. -/
theorem filter_tail_messages {c : Conversation} (hl : Linked c) (hn : c.ids.Nodup) (id : Text) :
    c.messages.tail.filter (·.inReplyTo? = some id) = c.replies id := by
  induction c with
  | node m rs ih =>
    obtain ⟨links, below⟩ := hl
    have hrs : (idsIn rs).Nodup := (List.nodup_cons.mp hn).2
    have hpart : ∀ r ∈ rs, r.messages.filter (·.inReplyTo? = some id) =
        (if m.id = id then [r.first] else []) ++ r.replies id := by
      intro r hr
      rw [← ih r hr (below r hr) (nodup_ids_of_mem hrs hr)]
      have hfirst := links r hr
      cases r with
      | node x ss =>
        rw [first_node] at hfirst
        by_cases hm : m.id = id <;> simp [messages, hfirst, hm]
    rw [messages, List.tail_cons, messagesIn_eq_flatMap, List.filter_flatMap,
      List.flatMap_congr hpart, replies_node hn]
    by_cases hm : m.id = id
    · -- Below the message nothing replies to it but what stands directly under it.
      have hone : ∀ r ∈ rs, (if m.id = id then [r.first] else []) ++ r.replies id =
          [r.first] := by
        intro r hr
        have hnot : id ∉ r.ids := fun hid => ne_of_mem_branch hn hr hid hm
        rw [if_pos hm, replies_of_notMem hnot, List.append_nil]
      rw [if_pos hm, List.flatMap_congr hone, ← List.map_eq_flatMap]
    · simp only [hm, if_false, List.nil_append]
      rfl

/-! ## Threading the messages again -/

section

variable {cs : List Conversation} (hl : ∀ c ∈ cs, Linked c)
  (hroot : ∀ c ∈ cs, c.first.inReplyTo? = none) (hn : (idsIn cs).Nodup)

include hl hroot

theorem roots_messagesIn : roots (messagesIn cs) = cs.map first := by
  induction cs with
  | nil => rfl
  | cons c cs ih =>
    obtain ⟨hlc, hlcs⟩ := List.forall_mem_cons.mp hl
    obtain ⟨hc, hcs⟩ := List.forall_mem_cons.mp hroot
    cases c with
    | node m rs =>
      have hrs : roots (messagesIn rs) = [] := by
        refine List.filter_eq_nil_iff.mpr fun x hx => ?_
        rw [Option.isNone_iff_eq_none]
        exact Option.isSome_iff_ne_none.mp (hlc.isSome_of_mem_branch hx)
      have hm : m.inReplyTo?.isNone = true := Option.isNone_iff_eq_none.mpr hc
      rw [roots] at hrs
      rw [messagesIn, messages, roots, List.filter_append, List.filter_cons, if_pos hm, hrs,
        List.map_cons, first_node, ← ih hlcs hcs]
      rfl

include hn

theorem filter_messagesIn (id : Text) :
    (messagesIn cs).filter (·.inReplyTo? = some id) = repliesIn cs id := by
  rw [messagesIn_eq_flatMap, List.filter_flatMap, repliesIn]
  refine List.flatMap_congr fun c hc => ?_
  rw [← filter_tail_messages (hl c hc) (nodup_ids_of_mem hn hc)]
  have hfirst := hroot c hc
  cases c with
  | node m rs =>
    rw [first_node] at hfirst
    simp [messages, hfirst]

theorem inOrder_messagesIn : InOrder (messagesIn cs) := by
  intro before m after t hown hreply _
  rw [firsts_of_nodup hn] at hown
  obtain ⟨c, hc, b, a, hm, hsub⟩ := exists_of_messagesIn_eq hown
  rcases (hl c hc).exists_before hm with rfl | ⟨p, hp, hreply'⟩
  · rw [hroot c hc] at hreply
    cases hreply
  · obtain rfl : p.id = t := Option.some.inj (hreply'.symm.trans hreply)
    exact .inr (List.mem_map_of_mem (hsub hp))

/-- Every message reaches the first one of its conversation. -/
theorem reaches_messagesIn {m : Message} (hm : m ∈ messagesIn cs) :
    ∃ root, Reaches (messagesIn cs) m root := by
  obtain ⟨c, hc, hmc⟩ := mem_messagesIn.mp hm
  have hfirst : ∀ x ∈ c.messages, IsFirst (messagesIn cs) x := fun x hx =>
    (isFirst_iff_mem hn).mpr (mem_messagesIn.mpr ⟨c, hc, hx⟩)
  have hself : Reaches (messagesIn cs) c.first c.first :=
    ⟨hfirst c.first (first_mem_messages c), .refl, hroot c hc⟩
  exact ⟨c.first, reaches_of_linked (hl c hc) hfirst hself m hmc⟩

/-- A single pass places every message. -/
theorem unresolved_messagesIn : (build .singlePass (messagesIn cs)).unresolved = [] := by
  rw [← (build_eq_of_inOrder (inOrder_messagesIn hl hroot hn)).2, List.eq_nil_iff_forall_not_mem]
  intro e he
  obtain ⟨m, t, hm, -, hno, -⟩ := mem_unresolved_iff_not_reaches.mp he
  exact hno (reaches_messagesIn hl hroot hn ((isFirst_iff_mem hn).mp hm))

/-- From the messages of linked conversations, each before its replies, the same conversations are
built, and no reply is left over. -/
theorem build_messagesIn :
    (build .singlePass (messagesIn cs)).conversations = cs ∧
      (build .singlePass (messagesIn cs)).unresolved = [] := by
  have hnone := unresolved_messagesIn hl hroot hn
  refine ⟨?_, hnone⟩
  obtain ⟨placed, ht, -⟩ := build_singlePass (messagesIn cs)
  have hfirsts : firsts (messagesIn cs) = messagesIn cs := firsts_of_nodup hn
  have hplaced : ∀ m ∈ messagesIn cs,
      m ∈ messagesIn (build .singlePass (messagesIn cs)).conversations := by
    have hperm := outcome_perm .singlePass (messagesIn cs)
    rw [Outcome.unresolved, List.append_eq_nil_iff, List.map_eq_nil_iff, List.map_eq_nil_iff]
      at hnone
    rw [hnone.1, hnone.2, List.append_nil, List.map_nil, List.append_nil, hfirsts] at hperm
    exact fun m hm => hperm.mem_iff.mpr hm
  refine @eq_of_replies (repliesIn cs) _ _ (nodup_idsIn_build .singlePass (messagesIn cs)) hn
    ?_ ?_ ?_
  · rw [map_first_build, hfirsts, roots_messagesIn hl hroot]
  · intro c hc m hm
    rw [ht.replies_eq_filter hc hm, hfirsts, ← filter_messagesIn hl hroot hn]
    refine List.filter_congr fun r hr => ?_
    rw [decide_eq_decide, and_iff_left (hplaced r hr)]
  · exact fun c hc m hm => (repliesIn_eq_replies hn hc (id_mem_ids hm)).symm

end

end Threading
end MailArchive
