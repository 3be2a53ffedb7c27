import Mathlib.Data.Fintype.Card
import Mathlib.Data.Set.Finite.List
import Mathlib.Logic.Relation
import MailArchive.Proofs.Threading.Forest

/-!
# MailArchive.Proofs.Threading.Reachability

With `Resolution.fixedPoint` the place of a message depends on the headers alone.
`Reaches ms m root` says that the targets of the replies lead from `m` through first messages to
`root`, which replies to nothing.

* `mem_build_iff_reaches`: the conversation of a root has exactly the messages that reach it. The
  one direction is an induction over the conversation, the other over the way to the root: a reply
  whose parent is placed cannot be waiting when the passes stop.
* `not_reaches`: what reaches no root comes to a target that nobody has, or goes in a circle.
* `build_fixedPoint_reaches`: the whole, and that the order of the messages does not matter.
-/

namespace MailArchive
namespace Threading

open Conversation
open Relation (ReflTransGen TransGen)

/-- The first message `p` has the identifier to which `m` replies. -/
def RepliesTo (ms : List Message) (m p : Message) : Prop :=
  IsFirst ms p ∧ m.inReplyTo? = some p.id

/-- From message to message replied to, `m` leads to `root`, which replies to nothing. -/
def Reaches (ms : List Message) (m root : Message) : Prop :=
  IsFirst ms m ∧ ReflTransGen (RepliesTo ms) m root ∧ root.inReplyTo? = none

variable {ms : List Message}

theorem Reaches.head {m p root : Message} (hm : IsFirst ms m) (hp : RepliesTo ms m p)
    (h : Reaches ms p root) : Reaches ms m root :=
  ⟨hm, ReflTransGen.head hp h.2.1, h.2.2⟩

/-! ## Placed messages reach their root -/

theorem reaches_of_linked {c : Conversation} {root : Message} (hl : Linked c)
    (hfirst : ∀ m ∈ c.messages, IsFirst ms m) (hroot : Reaches ms c.first root) :
    ∀ m ∈ c.messages, Reaches ms m root := by
  induction c with
  | node n rs ih =>
    obtain ⟨links, below⟩ := hl
    intro m hm
    rcases List.mem_cons.mp hm with rfl | hm
    · exact hroot
    · obtain ⟨r, hr, hmr⟩ := mem_messagesIn.mp hm
      have hsub : ∀ x ∈ r.messages, IsFirst ms x := fun x hx =>
        hfirst x (List.mem_cons_of_mem n (mem_messagesIn.mpr ⟨r, hr, hx⟩))
      have hstep : RepliesTo ms r.first n := ⟨hroot.1, links r hr⟩
      have hr' : Reaches ms r.first root :=
        hroot.head (hsub r.first (first_mem_messages r)) hstep
      exact ih r hr (below r hr) hsub hr' m hmr

theorem reaches_of_mem {resolution : Resolution} {c : Conversation} {m : Message}
    (hc : c ∈ (build resolution ms).conversations) (hm : m ∈ c.messages) :
    Reaches ms m c.first := by
  have hfirst : ∀ x ∈ c.messages, IsFirst ms x := fun x hx => isFirst_of_mem_messages hc hx
  have hroot : Reaches ms c.first c.first :=
    ⟨hfirst c.first (first_mem_messages c), .refl, first_inReplyTo? hc⟩
  exact reaches_of_linked (linked_build resolution ms c hc) hfirst hroot m hm

/-! ## What reaches a root is placed -/

theorem exists_conversation_of_root {resolution : Resolution} {root : Message}
    (hroot : IsFirst ms root) (hnone : root.inReplyTo? = none) :
    ∃ c ∈ (build resolution ms).conversations, c.first = root := by
  have h : root ∈ (build resolution ms).conversations.map first := by
    rw [map_first_build]
    exact mem_roots.mpr ⟨mem_firsts_iff.mpr hroot, hnone⟩
  exact List.mem_map.mp h

/-- A placed reply is in the conversation of the message to which it replies. -/
theorem mem_of_parent_mem {resolution : Resolution} {c : Conversation} {m p : Message}
    (hc : c ∈ (build resolution ms).conversations) (hp : p ∈ c.messages)
    (hm : m ∈ messagesIn (build resolution ms).conversations) (hreply : m.inReplyTo? = some p.id) :
    m ∈ c.messages := by
  obtain ⟨d, hd, hmd⟩ := mem_messagesIn.mp hm
  have hne : m ≠ d.first := by
    rintro rfl
    rw [first_inReplyTo? hd] at hreply
    cases hreply
  obtain ⟨q, hq, -, hreply'⟩ :=
    (linked_build resolution ms d hd).exists_parent (nodup_ids_of_mem_build hd) hmd hne
  have hid : q.id = p.id := Option.some.inj (hreply'.symm.trans hreply)
  have hdc : d = c := eq_of_mem_ids (nodup_idsIn_build resolution ms) hd hc (id_mem_ids hq)
    (hid ▸ id_mem_ids hp)
  exact hdc ▸ hmd

/-- When the passes have stopped, a reply to a placed message is placed too. -/
theorem placed_of_parent_placed {m p : Message} (hm : IsFirst ms m) (hp : RepliesTo ms m p)
    (hplaced : p ∈ messagesIn (build .fixedPoint ms).conversations) :
    m ∈ messagesIn (build .fixedPoint ms).conversations := by
  obtain ⟨placed, hg, hperm, -, hclosed⟩ := build_fixedPoint ms
  have haimed : ⟨p.id, m⟩ ∈ aimed (firsts ms) := by
    rw [aimed, List.mem_filter, mem_replies, isAimed_iff]
    exact ⟨⟨mem_firsts_iff.mpr hm, hp.2⟩, List.mem_map_of_mem (mem_firsts_iff.mpr hp.1)⟩
  rcases List.mem_append.mp (hperm.mem_iff.mpr haimed) with hin | hwait
  · have hn := (fresh_seedlings (nodup_ids_firsts ms)).forest
    exact (hg.mem_messagesIn hn).mpr (.inl ⟨_, hin, rfl⟩)
  · exact absurd (List.mem_map_of_mem hplaced) (hclosed _ hwait)

theorem mem_of_reaches {m root : Message} (h : Reaches ms m root) :
    ∃ c ∈ (build .fixedPoint ms).conversations, c.first = root ∧ m ∈ c.messages := by
  obtain ⟨hfirst, hway, hnone⟩ := h
  induction hway using ReflTransGen.head_induction_on with
  | refl =>
    obtain ⟨c, hc, hroot⟩ := exists_conversation_of_root hfirst hnone
    exact ⟨c, hc, hroot, hroot ▸ first_mem_messages c⟩
  | head hstep _ ih =>
    obtain ⟨c, hc, hroot, hp⟩ := ih hstep.1
    have hplaced := placed_of_parent_placed hfirst hstep (mem_messagesIn.mpr ⟨c, hc, hp⟩)
    exact ⟨c, hc, hroot, mem_of_parent_mem hc hp hplaced hstep.2⟩

theorem mem_build_iff_reaches {m root : Message} :
    (∃ c ∈ (build .fixedPoint ms).conversations, c.first = root ∧ m ∈ c.messages) ↔
      Reaches ms m root := by
  constructor
  · rintro ⟨c, hc, rfl, hm⟩
    exact reaches_of_mem hc hm
  · exact mem_of_reaches

theorem mem_messagesIn_iff_reaches {m : Message} :
    m ∈ messagesIn (build .fixedPoint ms).conversations ↔ ∃ root, Reaches ms m root := by
  rw [mem_messagesIn]
  constructor
  · rintro ⟨c, hc, hm⟩
    exact ⟨c.first, reaches_of_mem hc hm⟩
  · rintro ⟨root, h⟩
    obtain ⟨c, hc, -, hm⟩ := mem_of_reaches h
    exact ⟨c, hc, hm⟩

/-! ## What reaches no root -/

/-- The way from the message ends at a reply whose target nobody has. -/
def Dangles (ms : List Message) (m : Message) : Prop :=
  ∃ q t, ReflTransGen (RepliesTo ms) m q ∧ q.inReplyTo? = some t ∧ t ∉ ms.map Message.id

/-- The way from the message comes to one that it comes to again. -/
def Circles (ms : List Message) (m : Message) : Prop :=
  ∃ q, ReflTransGen (RepliesTo ms) m q ∧ TransGen (RepliesTo ms) q q

theorem not_reaches {m : Message} (hm : IsFirst ms m) (h : ¬∃ root, Reaches ms m root) :
    Dangles ms m ∨ Circles ms m := by
  by_contra hno
  rw [not_or] at hno
  obtain ⟨hdangling, hcircle⟩ := hno
  -- What can be reached from `m` is finite and has no circle, so it can be gone through upwards.
  let Above := { q : Message // q ∈ firsts ms ∧ ReflTransGen (RepliesTo ms) m q }
  let Higher (a b : Above) : Prop := TransGen (RepliesTo ms) b.1 a.1
  have hfinite : Finite Above :=
    (List.finite_toSet (firsts ms)).subset fun q (hq : q ∈ firsts ms ∧ _) => hq.1
  have htrans : IsTrans Above Higher := ⟨fun _ _ _ hab hbc => hbc.trans hab⟩
  have hirrefl : Std.Irrefl Higher := ⟨fun q hq => hcircle ⟨q.1, q.2.2, hq⟩⟩
  have hwf : WellFounded Higher := Finite.wellFounded_of_trans_of_irrefl Higher
  have hall : ∀ q : Above, ∃ root, Reaches ms q.1 root := by
    intro q
    induction q using hwf.induction with
    | h q ih =>
      have hq : IsFirst ms q.1 := mem_firsts_iff.mp q.2.1
      cases htarget : q.1.inReplyTo? with
      | none => exact ⟨q.1, hq, .refl, htarget⟩
      | some t =>
        have ht : t ∈ ms.map Message.id := by
          by_contra ht
          exact hdangling ⟨q.1, t, q.2.2, htarget, ht⟩
        obtain ⟨x, hx, rfl⟩ := List.mem_map.mp ht
        obtain ⟨p, hp, hid⟩ := exists_isFirst hx
        have hstep : RepliesTo ms q.1 p := ⟨hp, hid ▸ htarget⟩
        obtain ⟨root, hroot⟩ :=
          ih ⟨p, mem_firsts_iff.mpr hp, q.2.2.tail hstep⟩ (TransGen.single hstep)
        exact ⟨root, hroot.head hq hstep⟩
  exact h (hall ⟨m, mem_firsts_iff.mpr hm, .refl⟩)

/-! ## Any order -/

/-- Which message is the parent of which follows from the headers of what is placed. -/
theorem exists_parent?_iff {resolution : Resolution} {id : Text} {p : Message} :
    (∃ c ∈ (build resolution ms).conversations, c.parent? id = some p) ↔
      ∃ m ∈ messagesIn (build resolution ms).conversations, m.id = id ∧ RepliesTo ms m p := by
  constructor
  · rintro ⟨c, hc, hp⟩
    obtain ⟨hid, hpm⟩ := mem_of_parent? hp
    obtain ⟨m, hm, rfl⟩ := List.mem_map.mp hid
    refine ⟨m, mem_messagesIn.mpr ⟨c, hc, hm⟩, rfl, isFirst_of_mem_messages hc hpm, ?_⟩
    rw [inReplyTo?_eq_parent? hc hm, hp]
    rfl
  · rintro ⟨m, hm, rfl, hp, hreply⟩
    obtain ⟨c, hc, hmc⟩ := mem_messagesIn.mp hm
    have hne : m ≠ c.first := by
      rintro rfl
      rw [first_inReplyTo? hc] at hreply
      cases hreply
    obtain ⟨q, hq, hparent, hreply'⟩ :=
      (linked_build resolution ms c hc).exists_parent (nodup_ids_of_mem_build hc) hmc hne
    have hid : q.id = p.id := Option.some.inj (hreply'.symm.trans hreply)
    have hqp : q = p := isFirst_inj (isFirst_of_mem_messages hc hq) hp hid
    exact ⟨c, hc, hqp ▸ hparent⟩

theorem isFirst_iff_mem {m : Message} (hn : (ms.map Message.id).Nodup) :
    IsFirst ms m ↔ m ∈ ms := by
  rw [← mem_firsts_iff, firsts_of_nodup hn]

theorem isFirst_perm {ms' : List Message} (hp : ms.Perm ms') (hn : (ms.map Message.id).Nodup)
    {m : Message} : IsFirst ms m ↔ IsFirst ms' m := by
  have hn' : (ms'.map Message.id).Nodup := (hp.map Message.id).nodup_iff.mp hn
  rw [isFirst_iff_mem hn, isFirst_iff_mem hn', hp.mem_iff]

theorem repliesTo_perm {ms' : List Message} (hp : ms.Perm ms') (hn : (ms.map Message.id).Nodup) :
    RepliesTo ms = RepliesTo ms' := by
  funext m p
  rw [RepliesTo, RepliesTo, isFirst_perm hp hn]

theorem reaches_perm {ms' : List Message} (hp : ms.Perm ms') (hn : (ms.map Message.id).Nodup)
    {m root : Message} : Reaches ms m root ↔ Reaches ms' m root := by
  rw [Reaches, Reaches, isFirst_perm hp hn, repliesTo_perm hp hn]

theorem nodup_ids_unresolved (resolution : Resolution) (ms : List Message) :
    ((build resolution ms).unresolved.map Unresolved.id).Nodup :=
  (List.nodup_append.mp (nodup_ids_outcome resolution ms)).2.1

theorem mem_unresolved_iff_not_reaches {e : Unresolved} :
    e ∈ (build .fixedPoint ms).unresolved ↔
      ∃ m t, IsFirst ms m ∧ m.inReplyTo? = some t ∧ (¬∃ root, Reaches ms m root) ∧
        e = ⟨m.id, t, reasonFor ms t⟩ := by
  rw [mem_unresolved_iff]
  simp only [mem_messagesIn_iff_reaches]

theorem unresolved_perm {ms' : List Message} (hp : ms.Perm ms') (hn : (ms.map Message.id).Nodup) :
    (build .fixedPoint ms).unresolved.Perm (build .fixedPoint ms').unresolved := by
  have hd := (nodup_ids_unresolved .fixedPoint ms).of_map Unresolved.id
  have hd' := (nodup_ids_unresolved .fixedPoint ms').of_map Unresolved.id
  have hreason : ∀ t, reasonFor ms t = reasonFor ms' t := by
    intro t
    simp only [reasonFor, (hp.map Message.id).mem_iff]
  rw [List.perm_ext_iff_of_nodup hd hd']
  intro e
  rw [mem_unresolved_iff_not_reaches, mem_unresolved_iff_not_reaches]
  simp only [isFirst_perm hp hn, reaches_perm hp hn, hreason]

/-- **The fixed point places what reaches a root.** A message is in the conversation of a root
exactly if it reaches this root, and there it stands under the message to which it replies. About
every other first message there is exactly one event, with the reason that its target gives; the way
from it ends at a missing target or in a circle. So for messages with different identifiers neither
conversations nor parents nor events depend on their order. -/
theorem build_fixedPoint_reaches (ms : List Message) :
    let o := build .fixedPoint ms
    (∀ m root, (∃ c ∈ o.conversations, c.first = root ∧ m ∈ c.messages) ↔ Reaches ms m root) ∧
    (∀ c ∈ o.conversations, ∀ m ∈ c.messages,
      m.inReplyTo? = (c.parent? m.id).map Message.id) ∧
    (o.unresolved.map Unresolved.id).Nodup ∧
    (∀ e, e ∈ o.unresolved ↔
      ∃ m t, IsFirst ms m ∧ m.inReplyTo? = some t ∧ (¬∃ root, Reaches ms m root) ∧
        e = ⟨m.id, t,
          if t ∈ ms.map Message.id then .parentNotInConversation else .missingParent⟩) ∧
    (∀ m, IsFirst ms m → (¬∃ root, Reaches ms m root) → Dangles ms m ∨ Circles ms m) ∧
    (∀ ms', ms.Perm ms' → (ms.map Message.id).Nodup →
      let o' := build .fixedPoint ms'
      (∀ m root, (∃ c ∈ o.conversations, c.first = root ∧ m ∈ c.messages) ↔
        ∃ c ∈ o'.conversations, c.first = root ∧ m ∈ c.messages) ∧
      (∀ id p, (∃ c ∈ o.conversations, c.parent? id = some p) ↔
        ∃ c ∈ o'.conversations, c.parent? id = some p) ∧
      o.unresolved.Perm o'.unresolved) := by
  refine ⟨fun _ _ => mem_build_iff_reaches, fun c hc m hm => inReplyTo?_eq_parent? hc hm,
    nodup_ids_unresolved .fixedPoint ms, fun _ => mem_unresolved_iff_not_reaches,
    fun _ hm h => not_reaches hm h, ?_⟩
  intro ms' hp hn
  refine ⟨?_, ?_, unresolved_perm hp hn⟩
  · intro m root
    rw [mem_build_iff_reaches, mem_build_iff_reaches, reaches_perm hp hn]
  · intro id p
    rw [exists_parent?_iff, exists_parent?_iff]
    simp only [mem_messagesIn_iff_reaches, reaches_perm hp hn, repliesTo_perm hp hn]

end Threading
end MailArchive
