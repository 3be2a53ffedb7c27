import Mathlib.Data.List.Perm.Subperm
import MailArchive.Proofs.Threading.Forest

/-!
# MailArchive.Proofs.Threading.SinglePass

With `Resolution.singlePass` each reply is tried once, in the order of the archive. It is placed if
its target is a root, wherever that stands, or a reply that was placed before
(`Tries.mem_placed_iff`). Since placing and waiting keep the order in which the replies are tried
(`Tries.placed_eq_filter`, `Tries.waiting_eq_filter`), replies and events come in the order of the
archive (`Tries.replies_eq_filter`, `Tries.waiting_eq_filter_replies`). `build_singlePass_exact` is
the whole.
-/

namespace MailArchive
namespace Threading

open Conversation

/-! ## One pass -/

/-- A part of a list without repetitions is what is left when everything else is taken out. -/
theorem filter_mem_eq {rs ps : List Reply} (hn : rs.Nodup) (h : ps.Sublist rs) :
    rs.filter (· ∈ ps) = ps := by
  have hself : ps.filter (· ∈ ps) = ps := List.filter_eq_self.mpr fun x hx => by simpa using hx
  have hsub : ps.Sublist (rs.filter (· ∈ ps)) := by
    have hfilter := h.filter (· ∈ ps)
    rwa [hself] at hfilter
  have hle : (rs.filter (· ∈ ps)).length ≤ ps.length :=
    (List.Nodup.subperm (hn.filter _) fun x hx => by
      simpa using (List.mem_filter.mp hx).2).length_le
  exact (hsub.eq_of_length_le hle).symm

namespace Tries

variable {f g : List Conversation} {rs ps ws : List Reply}

theorem placed_eq_filter (h : Tries f rs ps ws g) (hn : rs.Nodup) : ps = rs.filter (· ∈ ps) :=
  (filter_mem_eq hn h.placed_sublist).symm

theorem waiting_eq_filter (h : Tries f rs ps ws g) (hn : rs.Nodup) : ws = rs.filter (· ∉ ps) := by
  have hdisj := (List.nodup_append.mp (h.perm.nodup_iff.mpr hn)).2.2
  refine (filter_mem_eq hn h.waiting_sublist).symm.trans (List.filter_congr fun x hx => ?_)
  rw [decide_eq_decide]
  constructor
  · exact fun hw hp => hdisj x hp x hw rfl
  · exact fun hp => (List.mem_append.mp (h.perm.mem_iff.mpr hx)).resolve_left hp

/-- A reply is placed exactly if its target was in the forest before the pass or is that of a reply
that the pass has placed before. -/
theorem mem_placed_iff (h : Tries f rs ps ws g) (hf : Fresh f rs) {before after : List Reply}
    {r : Reply} (hrs : rs = before ++ r :: after) :
    r ∈ ps ↔ r.target ∈ idsIn f ∨ ∃ q ∈ before, q ∈ ps ∧ q.message.id = r.target := by
  have hn : rs.Nodup := hf.replies.of_map _
  induction h generalizing before with
  | nil => exact absurd hrs.symm (by simp)
  | @placed f g s rs ps ws known _ rest ih =>
    cases before with
    | nil =>
      obtain ⟨rfl, rfl⟩ := List.cons.inj hrs
      exact ⟨fun _ => .inl known, fun _ => List.mem_cons_self⟩
    | cons b before =>
      rw [List.cons_append, List.cons.injEq] at hrs
      obtain ⟨rfl, hrs⟩ := hrs
      rw [List.nodup_cons] at hn
      have hmem : r ∈ rs := hrs ▸ List.mem_append_right before List.mem_cons_self
      have hrs' : r ≠ s := fun e => hn.1 (e ▸ hmem)
      have hhead : r ∈ s :: ps ↔ r ∈ ps := by rw [List.mem_cons, or_iff_right hrs']
      refine hhead.trans ((ih (hf.placed known) hrs hn.2).trans ?_)
      rw [mem_idsIn_insertIn hf.forest known]
      -- The reply that was just placed is the first of those before.
      have hbefore : ∀ q ∈ before, (q ∈ s :: ps ↔ q ∈ ps) := by
        intro q hq
        have hqs : q ≠ s := fun e => hn.1 (e ▸ hrs ▸ List.mem_append_left _ hq)
        rw [List.mem_cons, or_iff_right hqs]
      constructor
      · rintro ((hid | hid) | ⟨q, hq, hqps, hid⟩)
        · exact .inr ⟨s, List.mem_cons_self, List.mem_cons_self, hid.symm⟩
        · exact .inl hid
        · exact .inr ⟨q, List.mem_cons_of_mem s hq, (hbefore q hq).mpr hqps, hid⟩
      · rintro (hid | ⟨q, hq, hqps, hid⟩)
        · exact .inl (.inr hid)
        · rcases List.mem_cons.mp hq with rfl | hq
          · exact .inl (.inl hid.symm)
          · exact .inr ⟨q, hq, (hbefore q hq).mp hqps, hid⟩
  | @waiting f g s rs ps ws unknown rest ih =>
    rw [List.nodup_cons] at hn
    have hs : s ∉ ps := fun h => hn.1 (rest.placed_sublist.subset h)
    cases before with
    | nil =>
      obtain ⟨rfl, rfl⟩ := List.cons.inj hrs
      refine ⟨fun h => absurd h hs, ?_⟩
      rintro (h | ⟨_, hq, -⟩)
      · exact absurd h unknown
      · cases hq
    | cons b before =>
      rw [List.cons_append, List.cons.injEq] at hrs
      obtain ⟨rfl, hrs⟩ := hrs
      refine (ih (hf.sublist (List.sublist_cons_self s rs)) hrs hn.2).trans ?_
      refine or_congr_right ⟨?_, ?_⟩
      · rintro ⟨q, hq, h⟩
        exact ⟨q, List.mem_cons_of_mem s hq, h⟩
      · rintro ⟨q, hq, hqps, hid⟩
        rcases List.mem_cons.mp hq with rfl | hq
        · exact absurd hqps hs
        · exact ⟨q, hq, hqps, hid⟩

end Tries

/-! ## Replies and messages -/

section

variable {ms : List Message} {placed : List Reply} {g : List Conversation}

/-- A reply is among the placed ones exactly if its message is in the forest. -/
theorem message_mem_iff_mem_placed (hg : Grows (seedlings (firsts ms)) placed g)
    (hsub : ∀ q ∈ placed, q ∈ replies (firsts ms)) {r : Reply} (hr : r ∈ replies (firsts ms)) :
    r.message ∈ messagesIn g ↔ r ∈ placed := by
  have hn := (fresh_seedlings (nodup_ids_firsts ms)).forest
  rw [hg.mem_messagesIn hn, messagesIn_seedlings]
  constructor
  · rintro (⟨q, hq, hqr⟩ | hroot)
    · have hqt := (mem_replies.mp (hsub q hq)).2
      have hrt := (mem_replies.mp hr).2
      have htarget : q.target = r.target := Option.some.inj (hqt.symm.trans (hqr ▸ hrt))
      have heq : q = r := by
        cases q
        cases r
        simp_all
      exact heq ▸ hq
    · have hnone := (mem_roots.mp hroot).2
      rw [(mem_replies.mp hr).2] at hnone
      cases hnone
  · exact fun h => .inl ⟨r, h, rfl⟩

/-- In a forest that grew from roots the replies to a message are those that were placed there. -/
theorem replies_eq_of_grows (hg : Grows (seedlings (firsts ms)) placed g) {c : Conversation}
    {id : Text} (hc : c ∈ g) (hid : id ∈ c.ids) :
    c.replies id = (placed.filter (·.target = id)).map Reply.message := by
  have hn := (fresh_seedlings (nodup_ids_firsts ms)).forest
  have hnone : repliesIn (seedlings (firsts ms)) id = [] := by
    rw [repliesIn, seedlings, List.flatMap_map, List.flatMap_eq_nil_iff]
    exact fun m _ => replies_new m id
  rw [← repliesIn_eq_replies (hg.nodup hn) hc hid, hg.repliesIn_eq hn id, hnone, List.nil_append]

theorem map_message_filter_replies {p : Reply → Bool} {q : Message → Bool}
    (hpq : ∀ r ∈ replies ms, p r = q r.message)
    (hroot : ∀ m ∈ ms, m.inReplyTo? = none → q m = false) :
    ((replies ms).filter p).map Reply.message = ms.filter q := by
  have hq : (replies ms).filter p = (replies ms).filter (q ∘ Reply.message) :=
    List.filter_congr hpq
  rw [hq, ← List.filter_map, map_message_replies, List.filter_filter]
  refine List.filter_congr fun m hm => ?_
  cases h : m.inReplyTo? with
  | none => rw [hroot m hm h]; rfl
  | some t => rw [Option.isSome_some, Bool.and_true]

/-- The replies before a message are the replies of the messages before it. -/
theorem aimed_split {before after own : List Message} {m : Message} {t : Text}
    (hown : own = before ++ m :: after) (hreply : m.inReplyTo? = some t)
    (ht : t ∈ own.map Message.id) :
    aimed own = (replies before).filter (isAimed own) ++
      ⟨t, m⟩ :: (replies after).filter (isAimed own) := by
  have hm : Reply.ofMessage? m = some ⟨t, m⟩ := by rw [Reply.ofMessage?, hreply]; rfl
  have hr : replies own = replies before ++ ⟨t, m⟩ :: replies after := by
    rw [hown, replies, List.filterMap_append, List.filterMap_cons_some hm]
    rfl
  have haimed : isAimed own ⟨t, m⟩ = true := isAimed_iff.mpr ht
  rw [aimed, hr, List.filter_append, List.filter_cons_of_pos haimed]

end

/-! ## Single passes -/

namespace Tries

variable {ms : List Message} {placed waiting : List Reply} {g : List Conversation}

theorem isAimed_of_mem (h : Tries (seedlings (firsts ms)) (aimed (firsts ms)) placed waiting g)
    {r : Reply} (hr : r ∈ placed) : isAimed (firsts ms) r = true :=
  (List.mem_filter.mp (h.placed_sublist.subset hr)).2

theorem mem_replies_of_mem
    (h : Tries (seedlings (firsts ms)) (aimed (firsts ms)) placed waiting g) :
    ∀ r ∈ placed, r ∈ replies (firsts ms) :=
  fun _ hr => List.mem_of_mem_filter (h.placed_sublist.subset hr)

theorem message_mem_iff (h : Tries (seedlings (firsts ms)) (aimed (firsts ms)) placed waiting g)
    {r : Reply} (hr : r ∈ replies (firsts ms)) : r.message ∈ messagesIn g ↔ r ∈ placed :=
  message_mem_iff_mem_placed h.grows h.mem_replies_of_mem hr

/-- A reply is placed under a root, wherever that stands, or under one that was placed before. -/
theorem message_mem_iff_before
    (h : Tries (seedlings (firsts ms)) (aimed (firsts ms)) placed waiting g)
    {before after : List Message} {m : Message} {t : Text}
    (hown : firsts ms = before ++ m :: after) (hreply : m.inReplyTo? = some t) :
    m ∈ messagesIn g ↔
      (∃ r, IsFirst ms r ∧ r.inReplyTo? = none ∧ r.id = t) ∨
      ∃ r ∈ before, r.inReplyTo?.isSome ∧ r.id = t ∧ r ∈ messagesIn g := by
  have hfresh := fresh_seedlings (nodup_ids_firsts ms)
  have hr : ⟨t, m⟩ ∈ replies (firsts ms) :=
    mem_replies.mpr ⟨hown ▸ List.mem_append_right before List.mem_cons_self, hreply⟩
  have hbefore : ∀ r ∈ before, r ∈ firsts ms := fun r hr => hown ▸ List.mem_append_left _ hr
  refine (h.message_mem_iff hr).trans ?_
  by_cases htarget : t ∈ (firsts ms).map Message.id
  · refine (h.mem_placed_iff hfresh (aimed_split hown hreply htarget)).trans (or_congr ?_ ?_)
    · rw [idsIn, messagesIn_seedlings, List.mem_map]
      simp only [mem_roots, mem_firsts_iff, and_assoc]
    · constructor
      · rintro ⟨q, hq, hqp, hid⟩
        obtain ⟨hqm, hqt⟩ := mem_replies.mp (List.mem_of_mem_filter hq)
        have hqc := (h.message_mem_iff (h.mem_replies_of_mem q hqp)).mpr hqp
        exact ⟨q.message, hqm, by rw [hqt]; rfl, hid, hqc⟩
      · rintro ⟨r, hrb, hsome, hid, hrc⟩
        obtain ⟨u, hu⟩ := Option.isSome_iff_exists.mp hsome
        have hrr : ⟨u, r⟩ ∈ replies (firsts ms) := mem_replies.mpr ⟨hbefore r hrb, hu⟩
        have hrp : ⟨u, r⟩ ∈ placed := (h.message_mem_iff hrr).mp hrc
        have hrb' : ⟨u, r⟩ ∈ replies before := mem_replies.mpr ⟨hrb, hu⟩
        exact ⟨⟨u, r⟩, List.mem_filter.mpr ⟨hrb', h.isAimed_of_mem hrp⟩, hrp, hid⟩
  · constructor
    · intro hp
      exact absurd (isAimed_iff.mp (h.isAimed_of_mem hp)) htarget
    · rintro (⟨r, hfirst, -, hid⟩ | ⟨r, hrb, -, hid, -⟩)
      · exact absurd (hid ▸ List.mem_map_of_mem (mem_firsts_iff.mpr hfirst)) htarget
      · exact absurd (hid ▸ List.mem_map_of_mem (hbefore r hrb)) htarget

/-- The replies to a message come in the order of the archive. -/
theorem replies_eq_filter (h : Tries (seedlings (firsts ms)) (aimed (firsts ms)) placed waiting g)
    {c : Conversation} (hc : c ∈ g) {m : Message} (hm : m ∈ c.messages) :
    c.replies m.id =
      (firsts ms).filter fun r => r.inReplyTo? = some m.id ∧ r ∈ messagesIn g := by
  have hn : (aimed (firsts ms)).Nodup := (fresh_seedlings (nodup_ids_firsts ms)).replies.of_map _
  rw [replies_eq_of_grows h.grows hc (id_mem_ids hm)]
  have hplaced : placed.filter (·.target = m.id) =
      (replies (firsts ms)).filter fun r => r ∈ placed ∧ r.target = m.id := by
    have heq := congrArg (List.filter (·.target = m.id)) (h.placed_eq_filter hn)
    rw [heq, aimed, List.filter_filter, List.filter_filter]
    refine List.filter_congr fun r _ => ?_
    by_cases hp : r ∈ placed
    · simp [hp, h.isAimed_of_mem hp]
    · simp [hp]
  rw [hplaced]
  refine map_message_filter_replies ?_ ?_
  · intro r hr
    rw [decide_eq_decide, h.message_mem_iff hr, (mem_replies.mp hr).2, Option.some.injEq, and_comm]
  · intro r _ hnone
    simp [hnone]

/-- So do the replies that have to wait. -/
theorem waiting_eq_filter_replies
    (h : Tries (seedlings (firsts ms)) (aimed (firsts ms)) placed waiting g) :
    waiting = (replies (firsts ms)).filter fun r =>
      r.target ∈ ms.map Message.id ∧ r.message ∉ messagesIn g := by
  have hn : (aimed (firsts ms)).Nodup := (fresh_seedlings (nodup_ids_firsts ms)).replies.of_map _
  rw [h.waiting_eq_filter hn, aimed, List.filter_filter]
  refine List.filter_congr fun r hr => ?_
  rw [isAimed_firsts, ← Bool.decide_and, decide_eq_decide, h.message_mem_iff hr, and_comm]

end Tries

theorem missing_eq_filter (resolution : Resolution) (ms : List Message) :
    (build resolution ms).missing =
      (replies (firsts ms)).filter fun r => r.target ∉ ms.map Message.id := by
  rw [missing_build]
  refine List.filter_congr fun r _ => ?_
  rw [isAimed_firsts, decide_not]

/-- **A single pass places what comes after its parent.** A reply is in a conversation exactly if it
replies to a root or to a reply that comes before it and is in a conversation. The replies to a
message come in the order of the archive, and so do the events: first those about the replies to
nobody, then those about all other replies that are in no conversation. -/
theorem build_singlePass_exact (ms : List Message) :
    let o := build .singlePass ms
    (∀ before m after t, firsts ms = before ++ m :: after → m.inReplyTo? = some t →
      (m ∈ messagesIn o.conversations ↔
        (∃ r, IsFirst ms r ∧ r.inReplyTo? = none ∧ r.id = t) ∨
        ∃ r ∈ before, r.inReplyTo?.isSome ∧ r.id = t ∧ r ∈ messagesIn o.conversations)) ∧
    (∀ c ∈ o.conversations, ∀ m ∈ c.messages, c.replies m.id =
      (firsts ms).filter fun r => r.inReplyTo? = some m.id ∧ r ∈ messagesIn o.conversations) ∧
    o.unresolved =
      ((replies (firsts ms)).filter fun r => r.target ∉ ms.map Message.id).map
        (·.unresolved .missingParent) ++
      ((replies (firsts ms)).filter fun r =>
        r.target ∈ ms.map Message.id ∧ r.message ∉ messagesIn o.conversations).map
        (·.unresolved .parentNotInConversation) := by
  intro o
  obtain ⟨placed, ht, -⟩ := build_singlePass ms
  refine ⟨?_, ?_, ?_⟩
  · intro before m after t hown hreply
    exact ht.message_mem_iff_before hown hreply
  · intro c hc m hm
    exact ht.replies_eq_filter hc hm
  · rw [Outcome.unresolved, missing_eq_filter, ← ht.waiting_eq_filter_replies]

end Threading
end MailArchive
