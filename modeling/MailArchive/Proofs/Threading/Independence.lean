import Mathlib.Data.List.Basic
import MailArchive.Proofs.Threading.Forest

/-!
# MailArchive.Proofs.Threading.Independence

Threads that have nothing to do with each other do not change each other. A group of messages is
given by its identifiers, `own`; nothing of it replies to a message outside or the other way round
(`Separate`). Then every step of the threading looks the same from inside the group:

* `firsts_filter`, `seedlings_filter`, `aimed_filter`: what is sorted out before the passes,
* `Tries.filter`: a pass, in which the replies of the others change no conversation of the group,
* `Passes.filter`: all passes. The others may need more of them, but from where the group is done
  further passes change nothing (`Passes.unique`).

So threading the group alone gives its part of the whole (`build_filter`), and two lists that are
put together in whatever way are threaded as each by itself (`build_interleaved`).
-/

namespace MailArchive
namespace Threading

open Conversation

variable {own : Text → Bool}

/-! ## Sorting -/

/-- A message of the group replies to messages of the group only, and one outside only to messages
outside. Replies to messages that do not exist do not matter. -/
def Separate (own : Text → Bool) (ms : List Message) : Prop :=
  ∀ m ∈ ms, ∀ t, m.inReplyTo? = some t → t ∈ ms.map Message.id → own t = own m.id

theorem Separate.firsts {ms : List Message} (h : Separate own ms) : Separate own (firsts ms) := by
  intro m hm t ht hid
  exact h m ((firstsAfter_sublist [] ms).subset hm) t ht (mem_ids_firsts.mp hid)

/-- Which identifiers outside the group have been seen does not matter to it. -/
theorem firstsAfter_filter {seen seen' : List Text} (ms : List Message)
    (h : ∀ id, own id = true → (id ∈ seen' ↔ id ∈ seen)) :
    firstsAfter seen' (ms.filter (own ·.id)) = (firstsAfter seen ms).filter (own ·.id) := by
  induction ms generalizing seen seen' with
  | nil => rfl
  | cons m ms ih =>
    by_cases hm : own m.id = true
    · rw [List.filter_cons, if_pos hm, firstsAfter, firstsAfter]
      by_cases hseen : m.id ∈ seen
      · rw [if_pos hseen, if_pos ((h m.id hm).mpr hseen)]
        exact ih h
      · rw [if_neg hseen, if_neg fun hid => hseen ((h m.id hm).mp hid), List.filter_cons, if_pos hm]
        refine congrArg (m :: ·) (ih fun id hid => ?_)
        rw [List.mem_cons, List.mem_cons, h id hid]
    · rw [List.filter_cons, if_neg hm, firstsAfter]
      by_cases hseen : m.id ∈ seen
      · rw [if_pos hseen]
        exact ih h
      · rw [if_neg hseen, List.filter_cons, if_neg hm]
        refine ih fun id hid => ?_
        have hne : id ≠ m.id := fun e => hm (e ▸ hid)
        rw [List.mem_cons, or_iff_right hne, h id hid]

theorem firsts_filter (ms : List Message) :
    firsts (ms.filter (own ·.id)) = (firsts ms).filter (own ·.id) :=
  firstsAfter_filter ms fun _ _ => Iff.rfl

theorem seedlings_filter (ms : List Message) :
    seedlings (ms.filter (own ·.id)) = (seedlings ms).filter (own ·.first.id) := by
  rw [seedlings, seedlings, roots, roots, List.filter_comm, List.filter_map]
  rfl

theorem replies_filter (ms : List Message) :
    replies (ms.filter (own ·.id)) = (replies ms).filter (own ·.message.id) := by
  induction ms with
  | nil => rfl
  | cons m ms ih =>
    rw [replies, replies] at ih
    cases h : m.inReplyTo? <;> by_cases hm : own m.id = true <;>
      simp [replies, Reply.ofMessage?, h, hm, ih]

theorem isAimed_filter {ms : List Message} {r : Reply} (h : Separate own ms) (hr : r ∈ replies ms)
    (hown : own r.message.id = true) : isAimed (ms.filter (own ·.id)) r = isAimed ms r := by
  obtain ⟨hm, hreply⟩ := mem_replies.mp hr
  rw [Bool.eq_iff_iff, isAimed_iff, isAimed_iff]
  constructor
  · exact fun hid => (List.filter_sublist.map Message.id).subset hid
  · intro hid
    have htarget : own r.target = true := (h r.message hm r.target hreply hid).trans hown
    obtain ⟨p, hp, hpid⟩ := List.mem_map.mp hid
    exact List.mem_map.mpr ⟨p, List.mem_filter.mpr ⟨hp, hpid ▸ htarget⟩, hpid⟩

/-- Replies that are chosen by whether there is a message they reply to. -/
theorem replies_filter_isAimed {ms : List Message} (h : Separate own ms) (choose : Bool → Bool) :
    (replies (ms.filter (own ·.id))).filter (fun r => choose (isAimed (ms.filter (own ·.id)) r)) =
      ((replies ms).filter fun r => choose (isAimed ms r)).filter (own ·.message.id) := by
  rw [replies_filter, List.filter_comm, List.filter_filter, List.filter_filter]
  refine List.filter_congr fun r hr => ?_
  cases hown : own r.message.id with
  | false => rfl
  | true => rw [isAimed_filter h hr hown]

theorem aimed_filter {ms : List Message} (h : Separate own ms) :
    aimed (ms.filter (own ·.id)) = (aimed ms).filter (own ·.message.id) :=
  replies_filter_isAimed h id

/-! ## Forests -/

/-- Each conversation is either in the group as a whole or outside. -/
def Whole (own : Text → Bool) (f : List Conversation) : Prop :=
  ∀ c ∈ f, ∀ id ∈ c.ids, own id = own c.first.id

/-- The reply goes to the side of the group on which it is itself. -/
def Stays (own : Text → Bool) (r : Reply) : Prop := own r.target = own r.message.id

theorem stays_of_mem_aimed {ms : List Message} (h : Separate own ms) {r : Reply}
    (hr : r ∈ aimed ms) : Stays own r := by
  obtain ⟨hr, haimed⟩ := List.mem_filter.mp hr
  obtain ⟨hm, hreply⟩ := mem_replies.mp hr
  exact h r.message hm r.target hreply (isAimed_iff.mp haimed)

theorem whole_seedlings (own : Text → Bool) (ms : List Message) : Whole own (seedlings ms) := by
  intro c hc id hid
  obtain ⟨m, -, rfl⟩ := List.mem_map.mp hc
  rw [ids_new, List.mem_singleton] at hid
  rw [hid, first_new]

section

variable {f : List Conversation} {r : Reply}

theorem Whole.mem_idsIn_filter (h : Whole own f) {id : Text} (hid : own id = true) :
    id ∈ idsIn (f.filter (own ·.first.id)) ↔ id ∈ idsIn f := by
  rw [mem_idsIn, mem_idsIn]
  constructor
  · rintro ⟨c, hc, hidc⟩
    exact ⟨c, List.mem_of_mem_filter hc, hidc⟩
  · rintro ⟨c, hc, hidc⟩
    exact ⟨c, List.mem_filter.mpr ⟨hc, (h c hc id hidc).symm.trans hid⟩, hidc⟩

theorem Whole.insertIn (h : Whole own f) (hn : (idsIn f).Nodup) (hr : Stays own r) :
    Whole own (insertIn r.target r.message f) := by
  intro d hd id hid
  rw [insertIn_eq_map] at hd
  obtain ⟨c, hc, rfl⟩ := List.mem_map.mp hd
  rw [first_insert]
  by_cases htarget : r.target ∈ c.ids
  · have hperm := (messages_insert_perm (r := r.message) (nodup_ids_of_mem hn hc) htarget).map
      Message.id
    rcases List.mem_cons.mp (hperm.mem_iff.mp hid) with rfl | hid
    · exact hr.symm.trans (h c hc r.target htarget)
    · exact h c hc id hid
  · rw [insert_of_notMem htarget] at hid
    exact h c hc id hid

theorem filter_insertIn (p : Text) (m : Message) (f : List Conversation) :
    (insertIn p m f).filter (own ·.first.id) = insertIn p m (f.filter (own ·.first.id)) := by
  rw [insertIn_eq_map, insertIn_eq_map, List.filter_map]
  congr 1
  exact List.filter_congr fun c _ => by rw [Function.comp_apply, first_insert]

/-- A reply outside the group changes nothing in it. -/
theorem Whole.filter_insertIn_of_not (h : Whole own f) (hr : Stays own r)
    (hown : own r.message.id = false) :
    (Conversation.insertIn r.target r.message f).filter (own ·.first.id) =
      f.filter (own ·.first.id) := by
  rw [filter_insertIn]
  refine insertIn_of_notMem fun hid => ?_
  obtain ⟨c, hc, hidc⟩ := mem_idsIn.mp hid
  obtain ⟨hc, hfirst⟩ := List.mem_filter.mp hc
  have htarget : own r.target = true := (h c hc r.target hidc).trans hfirst
  rw [hr, hown] at htarget
  cases htarget

end

/-! ## Passes -/

section

variable {f g : List Conversation} {rs ps ws : List Reply}

theorem Grows.whole (hg : Grows f rs g) (hn : (idsIn f).Nodup) (h : Whole own f)
    (hrs : ∀ r ∈ rs, Stays own r) : Whole own g := by
  induction hg with
  | refl => exact h
  | cons known fresh _ ih =>
    obtain ⟨hr, hrs⟩ := List.forall_mem_cons.mp hrs
    exact ih (nodup_idsIn_insertIn hn known fresh) (h.insertIn hn hr) hrs

/-- The part of a pass that concerns the group is a pass over its replies. -/
theorem Tries.filter (ht : Tries f rs ps ws g) (hn : (idsIn f).Nodup) (h : Whole own f)
    (hrs : ∀ r ∈ rs, Stays own r) :
    Tries (f.filter (own ·.first.id)) (rs.filter (own ·.message.id))
      (ps.filter (own ·.message.id)) (ws.filter (own ·.message.id))
      (g.filter (own ·.first.id)) := by
  induction ht with
  | nil => exact .nil
  | @placed f g r rs ps ws known fresh _ ih =>
    obtain ⟨hr, hrs⟩ := List.forall_mem_cons.mp hrs
    have hrest := ih (nodup_idsIn_insertIn hn known fresh) (h.insertIn hn hr) hrs
    cases hown : own r.message.id with
    | true =>
      rw [List.filter_cons, if_pos hown, List.filter_cons, if_pos hown]
      rw [filter_insertIn] at hrest
      refine .placed ((h.mem_idsIn_filter (hr.trans hown)).mpr known) ?_ hrest
      exact fun hid => fresh ((h.mem_idsIn_filter hown).mp hid)
    | false =>
      have hnot : ¬own r.message.id = true := Bool.eq_false_iff.mp hown
      rw [List.filter_cons, if_neg hnot, List.filter_cons, if_neg hnot]
      rw [h.filter_insertIn_of_not hr hown] at hrest
      exact hrest
  | @waiting f g r rs ps ws unknown _ ih =>
    obtain ⟨hr, hrs⟩ := List.forall_mem_cons.mp hrs
    cases hown : own r.message.id with
    | true =>
      rw [List.filter_cons, if_pos hown, List.filter_cons, if_pos hown]
      refine .waiting (fun hid => unknown ?_) (ih hn h hrs)
      exact (h.mem_idsIn_filter (hr.trans hown)).mp hid
    | false =>
      have hnot : ¬own r.message.id = true := Bool.eq_false_iff.mp hown
      rw [List.filter_cons, if_neg hnot, List.filter_cons, if_neg hnot]
      exact ih hn h hrs

theorem Passes.filter (hp : Passes f rs g ws) (hn : (idsIn f).Nodup) (h : Whole own f)
    (hrs : ∀ r ∈ rs, Stays own r) :
    Passes (f.filter (own ·.first.id)) (rs.filter (own ·.message.id))
      (g.filter (own ·.first.id)) (ws.filter (own ·.message.id)) := by
  induction hp with
  | refl => exact .refl
  | step first _ ih =>
    have hg := first.grows
    have hps := fun r hr => hrs r (first.placed_sublist.subset hr)
    have hws := fun r hr => hrs r (first.waiting_sublist.subset hr)
    exact .step (first.filter hn h hrs) (ih (hg.nodup hn) (hg.whole hn h hps) hws)

theorem Done.filter (hd : Done g ws) :
    Done (g.filter (own ·.first.id)) (ws.filter (own ·.message.id)) := by
  intro r hr hid
  obtain ⟨c, hc, hidc⟩ := mem_idsIn.mp hid
  exact hd r (List.mem_of_mem_filter hr) (mem_idsIn.mpr ⟨c, List.mem_of_mem_filter hc, hidc⟩)

end

/-! ## The whole -/

section

variable {ms : List Message}

theorem missing_filter (resolution : Resolution) (h : Separate own ms) :
    (build resolution (ms.filter (own ·.id))).missing =
      (build resolution ms).missing.filter (own ·.message.id) := by
  rw [missing_build, missing_build, firsts_filter]
  exact replies_filter_isAimed h.firsts not

theorem build_singlePass_filter (h : Separate own ms) :
    (build .singlePass (ms.filter (own ·.id))).conversations =
        (build .singlePass ms).conversations.filter (own ·.first.id) ∧
      (build .singlePass (ms.filter (own ·.id))).waiting =
        (build .singlePass ms).waiting.filter (own ·.message.id) := by
  obtain ⟨placed, ht, -⟩ := build_singlePass ms
  obtain ⟨placed', ht', -⟩ := build_singlePass (ms.filter (own ·.id))
  have hn := (fresh_seedlings (nodup_ids_firsts ms)).forest
  have hpart := ht.filter hn (whole_seedlings own (firsts ms)) fun r hr =>
    stays_of_mem_aimed h.firsts hr
  rw [firsts_filter, seedlings_filter, aimed_filter h.firsts] at ht'
  obtain ⟨-, hwait, hconv⟩ := ht'.unique hpart
  exact ⟨hconv, hwait⟩

/-- Threading the group alone gives its part of the whole. -/
theorem build_filter (resolution : Resolution) (h : Separate own ms) :
    (build resolution (ms.filter (own ·.id))).conversations =
        (build resolution ms).conversations.filter (own ·.first.id) ∧
      (build resolution (ms.filter (own ·.id))).waiting =
        (build resolution ms).waiting.filter (own ·.message.id) := by
  obtain ⟨hconv, hwait⟩ := build_singlePass_filter h
  cases resolution with
  | singlePass => exact ⟨hconv, hwait⟩
  | fixedPoint =>
    obtain ⟨placed, ht, -⟩ := build_singlePass ms
    obtain ⟨hp, hd, -⟩ := build_fixedPoint_passes ms
    obtain ⟨hp', hd', -⟩ := build_fixedPoint_passes (ms.filter (own ·.id))
    have hn := (fresh_seedlings (nodup_ids_firsts ms)).forest
    have hstays : ∀ r ∈ aimed (firsts ms), Stays own r := fun r hr =>
      stays_of_mem_aimed h.firsts hr
    have hwhole : Whole own (build .singlePass ms).conversations :=
      ht.grows.whole hn (whole_seedlings own (firsts ms)) fun r hr =>
        hstays r (ht.placed_sublist.subset hr)
    have hpart := hp.filter (nodup_idsIn_build .singlePass ms) hwhole fun r hr =>
      hstays r (ht.waiting_sublist.subset hr)
    rw [hconv, hwait] at hp'
    exact hp'.unique hpart hd' hd.filter

theorem unresolved_filter (resolution : Resolution) (h : Separate own ms) :
    (build resolution (ms.filter (own ·.id))).unresolved =
      (build resolution ms).unresolved.filter (own ·.id) := by
  rw [Outcome.unresolved, Outcome.unresolved, missing_filter resolution h,
    (build_filter resolution h).2, List.filter_append, List.filter_map, List.filter_map]
  rfl

end

/-! ## Two lists put together -/

/-- The third list is made of the other two, each of them in its order. -/
inductive Interleaves {α : Type} : List α → List α → List α → Prop where
  | nil : Interleaves [] [] []
  | left {x : α} {xs ys zs : List α} (rest : Interleaves xs ys zs) :
      Interleaves (x :: xs) ys (x :: zs)
  | right {y : α} {xs ys zs : List α} (rest : Interleaves xs ys zs) :
      Interleaves xs (y :: ys) (y :: zs)

namespace Interleaves

variable {α : Type} {xs ys zs : List α}

theorem symm (h : Interleaves xs ys zs) : Interleaves ys xs zs := by
  induction h with
  | nil => exact .nil
  | left _ ih => exact .right ih
  | right _ ih => exact .left ih

theorem mem_iff (h : Interleaves xs ys zs) {z : α} : z ∈ zs ↔ z ∈ xs ∨ z ∈ ys := by
  induction h with
  | nil => simp
  | left _ ih => rw [List.mem_cons, List.mem_cons, ih, or_assoc]
  | right _ ih => rw [List.mem_cons, List.mem_cons, ih, or_left_comm]

/-- What tells the elements of the first list from those of the second one finds the first list. -/
theorem filter_eq_left {p : α → Bool} (h : Interleaves xs ys zs) (hx : ∀ x ∈ xs, p x = true)
    (hy : ∀ y ∈ ys, p y = false) : zs.filter p = xs := by
  induction h with
  | nil => rfl
  | left _ ih =>
    obtain ⟨hp, hx⟩ := List.forall_mem_cons.mp hx
    rw [List.filter_cons, if_pos hp, ih hx hy]
  | right _ ih =>
    obtain ⟨hp, hy⟩ := List.forall_mem_cons.mp hy
    rw [List.filter_cons, if_neg (Bool.eq_false_iff.mp hp), ih hx hy]

end Interleaves

/-- No message of one list has the identifier of a message of the other one or replies to it. -/
def Apart (xs ys : List Message) : Prop :=
  ∀ x ∈ xs, ∀ y ∈ ys, x.id ≠ y.id ∧ x.inReplyTo? ≠ some y.id ∧ y.inReplyTo? ≠ some x.id

section

variable {xs ys zs : List Message}

theorem Apart.symm (h : Apart xs ys) : Apart ys xs := fun y hy x hx =>
  ⟨(h x hx y hy).1.symm, (h x hx y hy).2.2, (h x hx y hy).2.1⟩

theorem Apart.notMem_ids (h : Apart xs ys) {y : Message} (hy : y ∈ ys) :
    y.id ∉ xs.map Message.id := by
  intro hid
  obtain ⟨x, hx, hxy⟩ := List.mem_map.mp hid
  exact (h x hx y hy).1 hxy

theorem Apart.separate (h : Apart xs ys) (hz : Interleaves xs ys zs) :
    Separate (fun id => decide (id ∈ xs.map Message.id)) zs := by
  intro m hm t hreply hid
  rw [decide_eq_decide]
  obtain ⟨p, hp, rfl⟩ := List.mem_map.mp hid
  rcases hz.mem_iff.mp hm with hmx | hmy <;> rcases hz.mem_iff.mp hp with hpx | hpy
  · exact iff_of_true (List.mem_map_of_mem hpx) (List.mem_map_of_mem hmx)
  · exact absurd hreply (h m hmx p hpy).2.1
  · exact absurd hreply (h p hpx m hmy).2.2
  · exact iff_of_false (h.notMem_ids hpy) (h.notMem_ids hmy)

/-- In the whole the first list is threaded as by itself. -/
theorem build_left (resolution : Resolution) (hz : Interleaves xs ys zs) (h : Apart xs ys) :
    (build resolution zs).conversations.filter (·.first ∈ xs) =
        (build resolution xs).conversations ∧
      (build resolution zs).unresolved.filter (·.id ∈ xs.map Message.id) =
        (build resolution xs).unresolved := by
  have hxs : zs.filter (fun m => decide (m.id ∈ xs.map Message.id)) = xs :=
    hz.filter_eq_left (fun x hx => decide_eq_true (List.mem_map_of_mem hx)) fun y hy =>
      decide_eq_false (h.notMem_ids hy)
  have hconv := (build_filter resolution (h.separate hz)).1
  have hevents := unresolved_filter resolution (h.separate hz)
  rw [hxs] at hconv hevents
  refine ⟨?_, hevents.symm⟩
  rw [hconv]
  refine List.filter_congr fun c hc => decide_eq_decide.mpr ⟨List.mem_map_of_mem, fun hid => ?_⟩
  have hfirst : c.first ∈ zs :=
    (firstsAfter_sublist [] zs).subset
      (mem_firsts_iff.mpr (isFirst_of_mem_messages hc (first_mem_messages c)))
  exact (hz.mem_iff.mp hfirst).resolve_right fun hy => h.notMem_ids hy hid

/-- **Unrelated threads do not interfere.** If no message of one list has the identifier of a
message of the other one or replies to it, then of the conversations of the two lists put together
those that begin in one list are, in their order, the conversations of this list alone, and the
events about messages of the list are its events. -/
theorem build_interleaved (resolution : Resolution) (hz : Interleaves xs ys zs)
    (h : Apart xs ys) :
    let o := build resolution zs
    (o.conversations.filter (·.first ∈ xs) = (build resolution xs).conversations ∧
      o.unresolved.filter (·.id ∈ xs.map Message.id) = (build resolution xs).unresolved) ∧
    (o.conversations.filter (·.first ∈ ys) = (build resolution ys).conversations ∧
      o.unresolved.filter (·.id ∈ ys.map Message.id) = (build resolution ys).unresolved) :=
  ⟨build_left resolution hz h, build_left resolution hz.symm h.symm⟩

end

def note (id : String) : Message := .new id.toList ⟨[], []⟩

def response (id target : String) : Message :=
  (note id).withHeader "In-Reply-To".toList target.toList

/-- A thread that takes three passes with one that takes two and leaves a reply over. -/
theorem build_interleaved_backwards :
    let xs := [response "a4" "a3", response "a3" "a2", response "a2" "a1", note "a1"]
    let ys := [response "b3" "b0", response "b2" "b1", note "b1"]
    let zs := [response "a4" "a3", response "b3" "b0", response "a3" "a2", response "b2" "b1",
      note "b1", response "a2" "a1", note "a1"]
    Interleaves xs ys zs ∧ Apart xs ys ∧
      let o := build .fixedPoint zs
      (o.conversations.filter (·.first ∈ xs) = (build .fixedPoint xs).conversations ∧
        o.unresolved.filter (·.id ∈ xs.map Message.id) = (build .fixedPoint xs).unresolved) ∧
      (o.conversations.filter (·.first ∈ ys) = (build .fixedPoint ys).conversations ∧
        o.unresolved.filter (·.id ∈ ys.map Message.id) = (build .fixedPoint ys).unresolved) := by
  intro xs ys zs
  have hz : Interleaves xs ys zs := .left (.right (.left (.right (.right (.left (.left .nil))))))
  have h : Apart xs ys := by
    unfold Apart
    decide +kernel
  exact ⟨hz, h, build_interleaved .fixedPoint hz h⟩

end Threading
end MailArchive
