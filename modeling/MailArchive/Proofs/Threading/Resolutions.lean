import Mathlib.Data.List.Forall2
import MailArchive.Proofs.Conversation.Extension
import MailArchive.Proofs.Threading.SinglePass

/-!
# MailArchive.Proofs.Threading.Resolutions

The two resolutions compared. The passes to the fixed point begin with the single pass and only add
replies to what it has built (`Grows.extends`), so they keep its conversations and give up no reply
that it has not given up. If every reply comes after the message it replies to (`InOrder`), then
what one pass cannot place no pass can (`done_of_inOrder`), and there is no difference at all
(`build_eq_of_inOrder`). `build_fixedPoint_extends` is the whole.
-/

namespace MailArchive
namespace Threading

open Conversation

/-- What grows by replies extends what was there, conversation by conversation. -/
theorem Grows.extends {f g : List Conversation} {rs : List Reply} (hg : Grows f rs g)
    (hn : (idsIn f).Nodup) : List.Forall₂ Extends f g := by
  induction hg with
  | refl => exact List.forall₂_same.mpr fun c _ => .refl c
  | @cons f g r rs known fresh _ ih =>
    have hrest := ih (nodup_idsIn_insertIn hn known fresh)
    rw [insertIn_eq_map, List.forall₂_map_left_iff] at hrest
    have hstep : ∀ c ∈ f, Extends c (c.insert r.target r.message) := fun c hc =>
      extends_insert (nodup_ids_of_mem hn hc) fun hid => fresh (mem_idsIn.mpr ⟨c, hc, hid⟩)
    exact ((List.forall₂_and_left f g).mpr ⟨hstep, hrest⟩).imp fun _ _ h => h.1.trans h.2

/-! ## Messages in order -/

/-- Every first message that replies to a message of the list replies to a root or to a message that
comes before it. -/
def InOrder (ms : List Message) : Prop :=
  ∀ before m after t, firsts ms = before ++ m :: after → m.inReplyTo? = some t →
    t ∈ ms.map Message.id →
    (∃ r, IsFirst ms r ∧ r.inReplyTo? = none ∧ r.id = t) ∨ t ∈ before.map Message.id

/-- A single pass over messages in order leaves no reply whose parent it has placed. -/
theorem done_of_inOrder {ms : List Message} (h : InOrder ms) :
    Done (build .singlePass ms).conversations (build .singlePass ms).waiting := by
  intro r hr htarget
  obtain ⟨placed, ht, -⟩ := build_singlePass ms
  obtain ⟨hfirst, hreply, hid⟩ := of_mem_waiting hr
  obtain ⟨before, after, hown⟩ := List.append_of_mem (mem_firsts_iff.mpr hfirst)
  refine notMem_of_mem_waiting hr ((ht.message_mem_iff_before hown hreply).mpr ?_)
  rcases h before r.message after r.target hown hreply hid with hroot | hbefore
  · exact .inl hroot
  · -- The placed message with this identifier is the one that comes before.
    obtain ⟨x, hx, hxid⟩ := List.mem_map.mp hbefore
    obtain ⟨y, hy, hyid⟩ := List.mem_map.mp htarget
    obtain ⟨c, hc, hyc⟩ := mem_messagesIn.mp hy
    have hxfirst : IsFirst ms x := mem_firsts_iff.mp (hown ▸ List.mem_append_left _ hx)
    have hyfirst : IsFirst ms y := isFirst_of_mem_messages hc hyc
    obtain rfl : y = x := isFirst_inj hyfirst hxfirst (hyid.trans hxid.symm)
    cases hsome : y.inReplyTo? with
    | none => exact .inl ⟨y, hyfirst, hsome, hyid⟩
    | some t => exact .inr ⟨y, hx, by rw [hsome]; rfl, hyid, hy⟩

/-- So further passes add nothing to it. -/
theorem build_eq_of_inOrder {ms : List Message} (h : InOrder ms) :
    (build .fixedPoint ms).conversations = (build .singlePass ms).conversations ∧
      (build .fixedPoint ms).unresolved = (build .singlePass ms).unresolved := by
  obtain ⟨hp, -⟩ := build_fixedPoint_passes ms
  obtain ⟨hconv, hwait⟩ := hp.eq_of_done (done_of_inOrder h)
  refine ⟨hconv, ?_⟩
  rw [Outcome.unresolved, Outcome.unresolved, missing_build, missing_build, hwait]

/-! ## The whole -/

/-- The events of missing parents are those about the replies to messages that do not exist. -/
theorem filter_unresolved (o : Outcome) :
    o.unresolved.filter (·.reason = .missingParent) =
      o.missing.map (·.unresolved .missingParent) := by
  have hmissing : (o.missing.map (·.unresolved .missingParent)).filter
      (·.reason = .missingParent) = o.missing.map (·.unresolved .missingParent) := by
    refine List.filter_eq_self.mpr fun e he => ?_
    obtain ⟨r, -, rfl⟩ := List.mem_map.mp he
    rfl
  have hwaiting : (o.waiting.map (·.unresolved .parentNotInConversation)).filter
      (·.reason = .missingParent) = [] := by
    refine List.filter_eq_nil_iff.mpr fun e he => ?_
    obtain ⟨r, -, rfl⟩ := List.mem_map.mp he
    exact Bool.false_ne_true
  rw [Outcome.unresolved, List.filter_append, hmissing, hwaiting, List.append_nil]

/-- **The fixed point extends the single pass.** Both have the same roots in the same order, and
each conversation of the single pass is extended by that of the fixed point in the same place: its
messages stand there under the same parents, and the replies to each are the first ones there. The
fixed point reports a part of the events in the same order, among them all those of missing parents.
If every reply to a message that exists comes after it or goes to a root, the two are the same. -/
theorem build_fixedPoint_extends (ms : List Message) :
    let s := build .singlePass ms
    let f := build .fixedPoint ms
    s.conversations.map first = f.conversations.map first ∧
    List.Forall₂ Extends s.conversations f.conversations ∧
    f.unresolved.Sublist s.unresolved ∧
    f.unresolved.filter (·.reason = .missingParent) =
      s.unresolved.filter (·.reason = .missingParent) ∧
    (InOrder ms → f.conversations = s.conversations ∧ f.unresolved = s.unresolved) := by
  intro s f
  obtain ⟨hp, -⟩ := build_fixedPoint_passes ms
  obtain ⟨placed, hg, -⟩ := hp.grows
  have hmissing : f.missing = s.missing := by
    rw [missing_build, missing_build]
  refine ⟨?_, hg.extends (nodup_idsIn_build .singlePass ms), ?_, ?_, build_eq_of_inOrder⟩
  · rw [map_first_build, map_first_build]
  · rw [Outcome.unresolved, Outcome.unresolved, hmissing]
    exact (hp.waiting_sublist.map _).append_left _
  · rw [filter_unresolved, filter_unresolved, hmissing]

end Threading
end MailArchive
