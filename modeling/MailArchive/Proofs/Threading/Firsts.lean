import Mathlib.Data.List.Nodup
import MailArchive.Proofs.Conversation.Tree
import MailArchive.Threading

/-!
# MailArchive.Proofs.Threading.Firsts

Of several messages with one identifier only the first takes part in threading. `IsFirst` says this
without an algorithm, `mem_firsts_iff` that `firsts` finds exactly these messages. They are divided
into roots and replies without loss (`replies_roots_perm`).
-/

namespace MailArchive
namespace Threading

/-! ## First occurrences -/

/-- The message stands in the list and none before it has its identifier. -/
def IsFirst (ms : List Message) (m : Message) : Prop :=
  ∃ before after, ms = before ++ m :: after ∧ ∀ x ∈ before, x.id ≠ m.id

theorem isFirst_cons {x m : Message} {ms : List Message} :
    IsFirst (x :: ms) m ↔ m = x ∨ (x.id ≠ m.id ∧ IsFirst ms m) := by
  constructor
  · rintro ⟨before, after, h, hne⟩
    cases before with
    | nil => exact .inl (List.cons.inj h).1.symm
    | cons y before =>
      rw [List.cons_append, List.cons.injEq] at h
      obtain ⟨rfl, h⟩ := h
      refine .inr ⟨hne x List.mem_cons_self, before, after, h, ?_⟩
      exact fun z hz => hne z (List.mem_cons_of_mem x hz)
  · rintro (rfl | ⟨hx, before, after, rfl, hne⟩)
    · exact ⟨[], ms, rfl, fun _ h => nomatch h⟩
    · refine ⟨x :: before, after, rfl, ?_⟩
      intro y hy
      rcases List.mem_cons.mp hy with rfl | hy
      · exact hx
      · exact hne y hy

theorem mem_firstsAfter_iff {seen : List Text} {ms : List Message} {m : Message} :
    m ∈ firstsAfter seen ms ↔ m.id ∉ seen ∧ IsFirst ms m := by
  induction ms generalizing seen with
  | nil =>
    constructor
    · intro h
      cases h
    · rintro ⟨-, before, after, h, -⟩
      exact absurd h.symm (by simp)
  | cons x ms ih =>
    rw [firstsAfter, isFirst_cons]
    split
    · rename_i hx
      rw [ih]
      constructor
      · rintro ⟨hm, h⟩
        exact ⟨hm, .inr ⟨fun e => hm (e ▸ hx), h⟩⟩
      · rintro ⟨hm, rfl | ⟨-, h⟩⟩
        · exact absurd hx hm
        · exact ⟨hm, h⟩
    · rename_i hx
      rw [List.mem_cons, ih, List.mem_cons, not_or]
      constructor
      · rintro (rfl | ⟨⟨hxm, hm⟩, h⟩)
        · exact ⟨hx, .inl rfl⟩
        · exact ⟨hm, .inr ⟨Ne.symm hxm, h⟩⟩
      · rintro ⟨hm, rfl | ⟨hxm, h⟩⟩
        · exact .inl rfl
        · exact .inr ⟨⟨Ne.symm hxm, hm⟩, h⟩

theorem mem_firsts_iff {ms : List Message} {m : Message} : m ∈ firsts ms ↔ IsFirst ms m := by
  rw [firsts, mem_firstsAfter_iff]
  exact ⟨fun h => h.2, fun h => ⟨List.not_mem_nil, h⟩⟩

theorem firstsAfter_sublist (seen : List Text) (ms : List Message) :
    (firstsAfter seen ms).Sublist ms := by
  induction ms generalizing seen with
  | nil => exact List.Sublist.refl _
  | cons m ms ih =>
    rw [firstsAfter]
    split
    · exact (ih seen).cons m
    · exact (ih (m.id :: seen)).cons_cons m

theorem nodup_ids_firstsAfter (seen : List Text) (ms : List Message) :
    ((firstsAfter seen ms).map Message.id).Nodup := by
  induction ms generalizing seen with
  | nil => exact List.nodup_nil
  | cons m ms ih =>
    rw [firstsAfter]
    split
    · exact ih seen
    · rw [List.map_cons, List.nodup_cons]
      refine ⟨?_, ih (m.id :: seen)⟩
      intro h
      obtain ⟨x, hx, hid⟩ := List.mem_map.mp h
      exact (mem_firstsAfter_iff.mp hx).1 (hid ▸ List.mem_cons_self)

/-- The first messages have different identifiers. -/
theorem nodup_ids_firsts (ms : List Message) : ((firsts ms).map Message.id).Nodup :=
  nodup_ids_firstsAfter [] ms

theorem exists_isFirst {ms : List Message} {m : Message} (h : m ∈ ms) :
    ∃ x, IsFirst ms x ∧ x.id = m.id := by
  induction ms with
  | nil => cases h
  | cons y ms ih =>
    by_cases hy : y.id = m.id
    · exact ⟨y, isFirst_cons.mpr (.inl rfl), hy⟩
    · have hm : m ∈ ms := (List.mem_cons.mp h).resolve_left fun e => hy (e ▸ rfl)
      obtain ⟨x, hx, hid⟩ := ih hm
      exact ⟨x, isFirst_cons.mpr (.inr ⟨hid ▸ hy, hx⟩), hid⟩

/-- The first messages have all the identifiers there are. -/
theorem mem_ids_firsts {ms : List Message} {id : Text} :
    id ∈ (firsts ms).map Message.id ↔ id ∈ ms.map Message.id := by
  constructor
  · exact fun h => ((firstsAfter_sublist [] ms).map Message.id).subset h
  · intro h
    obtain ⟨m, hm, rfl⟩ := List.mem_map.mp h
    obtain ⟨x, hx, hid⟩ := exists_isFirst hm
    exact List.mem_map.mpr ⟨x, mem_firsts_iff.mpr hx, hid⟩

/-- Without repeated identifiers every message is a first one. -/
theorem firsts_of_nodup {ms : List Message} (h : (ms.map Message.id).Nodup) : firsts ms = ms := by
  have key : ∀ seen : List Text, (∀ m ∈ ms, m.id ∉ seen) → firstsAfter seen ms = ms := by
    induction ms with
    | nil => exact fun _ _ => rfl
    | cons m ms ih =>
      intro seen hseen
      rw [List.map_cons, List.nodup_cons] at h
      rw [firstsAfter, if_neg (hseen m List.mem_cons_self), ih h.2 (m.id :: seen)]
      intro x hx hid
      rcases List.mem_cons.mp hid with hid | hid
      · exact h.1 (List.mem_map.mpr ⟨x, hx, hid⟩)
      · exact hseen x (List.mem_cons_of_mem m hx) hid
  exact key [] fun _ _ => List.not_mem_nil

/-! ## Roots and replies -/

theorem mem_roots {ms : List Message} {m : Message} :
    m ∈ roots ms ↔ m ∈ ms ∧ m.inReplyTo? = none := by
  rw [roots, List.mem_filter, Option.isNone_iff_eq_none]

theorem mem_replies {ms : List Message} {r : Reply} :
    r ∈ replies ms ↔ r.message ∈ ms ∧ r.message.inReplyTo? = some r.target := by
  rw [replies, List.mem_filterMap]
  constructor
  · rintro ⟨m, hm, h⟩
    obtain ⟨t, ht, rfl⟩ := Option.map_eq_some_iff.mp h
    exact ⟨hm, ht⟩
  · rintro ⟨hm, h⟩
    exact ⟨r.message, hm, by rw [Reply.ofMessage?, h]; rfl⟩

theorem map_message_replies (ms : List Message) :
    (replies ms).map Reply.message = ms.filter (·.inReplyTo?.isSome) := by
  induction ms with
  | nil => rfl
  | cons m ms ih =>
    cases h : m.inReplyTo? with
    | none => simpa [replies, Reply.ofMessage?, h] using ih
    | some t => simpa [replies, Reply.ofMessage?, h] using ih

/-- Every message is either a root or a reply. -/
theorem replies_roots_perm (ms : List Message) :
    ((replies ms).map Reply.message ++ roots ms).Perm ms := by
  have h : roots ms = ms.filter (!·.inReplyTo?.isSome) := by
    rw [roots]
    exact List.filter_congr fun m _ => by simp
  rw [map_message_replies, h]
  exact List.filter_append_perm _ ms

theorem isAimed_iff {ms : List Message} {r : Reply} :
    isAimed ms r = true ↔ r.target ∈ ms.map Message.id := by
  rw [isAimed, List.any_eq_true, List.mem_map]
  simp only [beq_iff_eq]

theorem isAimed_firsts (ms : List Message) (r : Reply) :
    isAimed (firsts ms) r = decide (r.target ∈ ms.map Message.id) := by
  rw [Bool.eq_iff_iff, isAimed_iff, mem_ids_firsts, decide_eq_true_eq]

theorem messagesIn_map_new (ms : List Message) :
    Conversation.messagesIn (ms.map Conversation.new) = ms := by
  rw [Conversation.messagesIn_eq_flatMap, List.flatMap_map]
  exact List.flatMap_singleton' ms

end Threading
end MailArchive
