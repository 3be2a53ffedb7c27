import MailArchive.Threading
import MailArchive.Proofs.Conversation.Linked

/-!
# MailArchive.Proofs.Threading.Growth

A forest is a list of conversations in which no identifier comes twice. `Grows f rs g` says that `g`
comes from `f` by putting the replies `rs`, one after the other, under messages that are there
already. What this does to a forest follows by induction on the replies:

* `Grows.messages_perm`: the messages of `rs` are added and nothing is lost,
* `Grows.map_first`: the conversations stay the same ones, in the same order,
* `Grows.linked`: every message still stands under the one that its header names,
* `Grows.repliesIn_eq`: the replies to a message are the old ones and then the new ones in order.
-/

namespace MailArchive
namespace Threading

open Conversation

/-! ## One reply -/

section Insert

variable {f : List Conversation} {p : Text} {r : Message}

theorem idsIn_insertIn_perm (hn : (idsIn f).Nodup) (hp : p ∈ idsIn f) :
    (idsIn (insertIn p r f)).Perm (r.id :: idsIn f) :=
  (messagesIn_insertIn_perm hn hp).map Message.id

theorem nodup_idsIn_insertIn (hn : (idsIn f).Nodup) (hp : p ∈ idsIn f) (hr : r.id ∉ idsIn f) :
    (idsIn (insertIn p r f)).Nodup :=
  (idsIn_insertIn_perm hn hp).nodup_iff.mpr (List.nodup_cons.mpr ⟨hr, hn⟩)

theorem mem_idsIn_insertIn (hn : (idsIn f).Nodup) (hp : p ∈ idsIn f) {id : Text} :
    id ∈ idsIn (insertIn p r f) ↔ id = r.id ∨ id ∈ idsIn f := by
  rw [(idsIn_insertIn_perm hn hp).mem_iff, List.mem_cons]

theorem map_first_insertIn : (insertIn p r f).map first = f.map first := by
  rw [insertIn_eq_map, List.map_map]
  exact List.map_congr_left fun c _ => first_insert p r c

theorem linked_insertIn (hl : ∀ c ∈ f, Linked c) (hr : r.inReplyTo? = some p) :
    ∀ c ∈ insertIn p r f, Linked c := by
  intro c hc
  rw [insertIn_eq_map] at hc
  obtain ⟨d, hd, rfl⟩ := List.mem_map.mp hc
  exact (hl d hd).insert hr

/-- The replies to the message with an identifier, wherever in the forest it is. -/
def repliesIn (f : List Conversation) (id : Text) : List Message := f.flatMap (·.replies id)

theorem repliesIn_of_notMem {id : Text} (h : id ∉ idsIn f) : repliesIn f id = [] := by
  rw [mem_idsIn] at h
  rw [repliesIn, List.flatMap_eq_nil_iff]
  exact fun c hc => replies_of_notMem fun hid => h ⟨c, hc, hid⟩

theorem repliesIn_eq_replies {id : Text} {c : Conversation} (hn : (idsIn f).Nodup) (hc : c ∈ f)
    (hid : id ∈ c.ids) : repliesIn f id = c.replies id := by
  induction f with
  | nil => cases hc
  | cons d ds ih =>
    obtain ⟨-, hds, hdisj⟩ := nodup_ids_cons hn
    rw [repliesIn, List.flatMap_cons]
    rcases List.mem_cons.mp hc with rfl | hc'
    · have hrest : ds.flatMap (·.replies id) = [] := repliesIn_of_notMem (hdisj id hid)
      rw [hrest, List.append_nil]
    · have hd : id ∉ d.ids := fun h => hdisj id h (mem_idsIn.mpr ⟨c, hc', hid⟩)
      rw [replies_of_notMem hd]
      exact ih hds hc'

theorem repliesIn_insertIn (hn : (idsIn f).Nodup) (hp : p ∈ idsIn f) (hr : r.id ∉ idsIn f)
    (id : Text) :
    repliesIn (insertIn p r f) id = repliesIn f id ++ if id = p then [r] else [] := by
  induction f with
  | nil => cases hp
  | cons c cs ih =>
    obtain ⟨hc, hcs, hdisj⟩ := nodup_ids_cons hn
    rw [mem_idsIn] at hr
    have hrc : r.id ∉ c.ids := fun h => hr ⟨c, List.mem_cons_self, h⟩
    have hrcs : r.id ∉ idsIn cs := by
      intro h
      obtain ⟨d, hd, hid⟩ := mem_idsIn.mp h
      exact hr ⟨d, List.mem_cons_of_mem c hd, hid⟩
    rw [insertIn, repliesIn, repliesIn, List.flatMap_cons, List.flatMap_cons]
    by_cases hpc : p ∈ c.ids
    · rw [insertIn_of_notMem (hdisj p hpc), replies_insert hpc hrc]
      by_cases hid : id = p
      · have hrest : cs.flatMap (·.replies id) = [] := repliesIn_of_notMem (hid ▸ hdisj p hpc)
        rw [hrest, List.append_nil, List.append_nil]
      · rw [if_neg hid, List.append_nil, List.append_nil]
    · have hpcs : p ∈ idsIn cs := by
        obtain ⟨d, hd, hid⟩ := mem_idsIn.mp hp
        rcases List.mem_cons.mp hd with rfl | hd'
        · exact absurd hid hpc
        · exact mem_idsIn.mpr ⟨d, hd', hid⟩
      rw [insert_of_notMem hpc, List.append_assoc]
      exact congrArg (c.replies id ++ ·) (ih hcs hpcs hrcs)

end Insert

/-! ## Many replies -/

/-- The forest `g` comes from `f` by adding the replies one after the other, each with a new
identifier and under a message that is there. -/
inductive Grows : List Conversation → List Reply → List Conversation → Prop where
  | refl {f : List Conversation} : Grows f [] f
  | cons {f g : List Conversation} {r : Reply} {rs : List Reply} (known : r.target ∈ idsIn f)
      (fresh : r.message.id ∉ idsIn f) (rest : Grows (insertIn r.target r.message f) rs g) :
      Grows f (r :: rs) g

namespace Grows

variable {f g h : List Conversation} {rs ss : List Reply}

theorem trans (hr : Grows f rs g) (hs : Grows g ss h) : Grows f (rs ++ ss) h := by
  induction hr with
  | refl => exact hs
  | cons known fresh _ ih => exact .cons known fresh (ih hs)

theorem nodup (hg : Grows f rs g) (hn : (idsIn f).Nodup) : (idsIn g).Nodup := by
  induction hg with
  | refl => exact hn
  | cons known fresh _ ih => exact ih (nodup_idsIn_insertIn hn known fresh)

/-- Growing adds the messages of the replies and loses none. -/
theorem messages_perm (hg : Grows f rs g) (hn : (idsIn f).Nodup) :
    (messagesIn g).Perm (rs.map Reply.message ++ messagesIn f) := by
  induction hg with
  | refl => exact List.Perm.refl _
  | @cons f g r rs known fresh _ ih =>
    have hins : (messagesIn (insertIn r.target r.message f)).Perm (r.message :: messagesIn f) :=
      messagesIn_insertIn_perm hn known
    refine (ih (nodup_idsIn_insertIn hn known fresh)).trans ?_
    refine (hins.append_left (rs.map Reply.message)).trans ?_
    exact List.perm_middle

theorem mem_messagesIn (hg : Grows f rs g) (hn : (idsIn f).Nodup) {m : Message} :
    m ∈ messagesIn g ↔ (∃ r ∈ rs, r.message = m) ∨ m ∈ messagesIn f := by
  rw [(hg.messages_perm hn).mem_iff, List.mem_append, List.mem_map]

theorem map_first (hg : Grows f rs g) : g.map first = f.map first := by
  induction hg with
  | refl => rfl
  | cons _ _ _ ih => rw [ih, map_first_insertIn]

theorem linked (hg : Grows f rs g) (hl : ∀ c ∈ f, Linked c)
    (hrs : ∀ r ∈ rs, r.message.inReplyTo? = some r.target) : ∀ c ∈ g, Linked c := by
  induction hg with
  | refl => exact hl
  | @cons f g r rs _ _ _ ih =>
    refine ih (linked_insertIn hl (hrs r List.mem_cons_self)) ?_
    exact fun s hs => hrs s (List.mem_cons_of_mem r hs)

/-- The replies to a message are those it had, and behind them the added ones in their order. -/
theorem repliesIn_eq (hg : Grows f rs g) (hn : (idsIn f).Nodup) (id : Text) :
    repliesIn g id = repliesIn f id ++ (rs.filter (·.target = id)).map Reply.message := by
  induction hg with
  | refl => rw [List.filter_nil, List.map_nil, List.append_nil]
  | @cons f g r rs known fresh _ ih =>
    rw [ih (nodup_idsIn_insertIn hn known fresh), repliesIn_insertIn hn known fresh id,
      List.append_assoc]
    congr 1
    by_cases hid : r.target = id
    · rw [if_pos hid.symm, List.filter_cons_of_pos (by simpa using hid), List.map_cons,
        List.singleton_append]
    · rw [if_neg (Ne.symm hid), List.filter_cons_of_neg (by simpa using hid), List.nil_append]

end Grows

end Threading
end MailArchive
