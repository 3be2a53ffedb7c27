import Mathlib.Data.List.Forall2
import MailArchive.Conversation.Table
import MailArchive.Proofs.Conversation.Linked

/-!
# MailArchive.Proofs.Conversation.Table

A table holds a conversation (`Table.Holds`) if the links down from its first place make up the
conversation (`Table.Nested`), the links up are the same ones the other way round, and every
identifier has the place of its message. A table with one message holds the conversation with that
message, and a reply that is added to both is held again or refused by both (`Holds.add?`). So after
any replies, accepted or refused, the table holds the conversation (`holds_grow`).
-/

namespace MailArchive

/-- Two lists are related item by item if they are so in another way that implies this one for the
items of the second. -/
theorem forall₂_of_forall_mem {α β : Type} {R S : α → β → Prop} {xs : List α} {ys : List β}
    (h : List.Forall₂ R xs ys) (hs : ∀ y ∈ ys, ∀ x, R x y → S x y) : List.Forall₂ S xs ys := by
  induction h with
  | nil => exact .nil
  | cons hxy _ ih =>
    obtain ⟨hy, hys⟩ := List.forall_mem_cons.mp hs
    exact .cons (hy _ hxy) (ih hys)

namespace Conversation

/-- The conversation after some tries to add a reply, of which those that are refused change
nothing. -/
def grow (root : Message) (tries : List (Text × Message)) : Conversation :=
  tries.foldl (fun c s => (c.add? s.1 s.2).getD c) (new root)

namespace Table

variable {t : Table} {c : Conversation} {e : Entry} {i p : Nat} {id parent : Text} {r : Message}

/-- The table after the same tries. -/
def grow (root : Message) (tries : List (Text × Message)) : Table :=
  tries.foldl (fun t s => (t.add? s.1 s.2).getD t) (new root)

/-! ## Insertion -/

theorem entries_insert (hp : p < t.size) (i : Nat) :
    (t.insert p r).entries[i]? =
      if i = t.size then some ⟨r, some p, []⟩
      else t.entries[i]?.map fun e =>
        if p = i then { e with children := e.children ++ [t.size] } else e := by
  rw [insert, List.getElem?_modify]
  by_cases hi : i = t.size
  · have hne : p ≠ t.entries.length := Nat.ne_of_lt hp
    rw [if_pos hi, hi, size, List.getElem?_concat_length, Option.map_eq_map, Option.map_some,
      if_neg hne]
  · have hentry : (t.entries ++ [⟨r, some p, []⟩])[i]? = t.entries[i]? := by
      by_cases hlt : i < t.entries.length
      · exact List.getElem?_append_left hlt
      · have hout : t.entries.length < i := Nat.lt_of_le_of_ne (Nat.not_lt.mp hlt) (Ne.symm hi)
        rw [List.getElem?_eq_none (Nat.le_of_lt hout), List.getElem?_eq_none]
        rw [List.length_append]
        exact hout
    rw [if_neg hi, hentry]
    rfl

theorem entries_insert_size (hp : p < t.size) :
    (t.insert p r).entries[t.size]? = some ⟨r, some p, []⟩ := by
  rw [entries_insert hp, if_pos rfl]

theorem lt_size (h : t.entries[i]? = some e) : i < t.size := (List.getElem?_eq_some_iff.mp h).1

/-- An old entry is kept but for its replies. -/
theorem entries_insert_of_some (hp : p < t.size) (h : t.entries[i]? = some e) :
    (t.insert p r).entries[i]? =
      some (if p = i then { e with children := e.children ++ [t.size] } else e) := by
  rw [entries_insert hp, if_neg (Nat.ne_of_lt (lt_size h)), h]
  rfl

/-- An entry is the new one, or an old one but for its replies. -/
theorem of_entries_insert (hp : p < t.size) (h : (t.insert p r).entries[i]? = some e) :
    (i = t.size ∧ e = ⟨r, some p, []⟩) ∨
      ∃ old, t.entries[i]? = some old ∧ e.message = old.message ∧ e.parent = old.parent ∧
        e.children = old.children ++ if p = i then [t.size] else [] := by
  rw [entries_insert hp] at h
  split at h
  · rename_i hi
    exact .inl ⟨hi, (Option.some.inj h).symm⟩
  · obtain ⟨old, hold, rfl⟩ := Option.map_eq_some_iff.mp h
    refine .inr ⟨old, hold, ?_⟩
    split <;> simp

theorem messages_insert (t : Table) (p : Nat) (r : Message) :
    (t.insert p r).entries.map Entry.message = t.entries.map Entry.message ++ [r] := by
  have hnew : t.entries.map Entry.message ++ [r] =
      (t.entries ++ [Entry.mk r (some p) []]).map Entry.message := by
    rw [List.map_append, List.map_singleton]
  refine List.ext_getElem? fun i => ?_
  rw [hnew, insert, List.getElem?_map, List.getElem?_modify, List.getElem?_map]
  cases (t.entries ++ [Entry.mk r (some p) []])[i]? with
  | none => rfl
  | some e =>
    rw [Option.map_eq_map, Option.map_some, Option.map_some, Option.map_some]
    split <;> rfl

theorem place?_insert (p : Nat) (r : Message) (id : Text) :
    (t.insert p r).place? id = if id = r.id then some t.size else t.place? id := by
  rw [place?, insert, List.lookup_cons]
  by_cases h : id = r.id
  · simp [h]
  · rw [beq_false_of_ne h, if_neg h]
    rfl

/-! ## Conversations -/

/-- The conversation that the links down from a place make up. -/
inductive Nested (t : Table) : Nat → Conversation → Prop where
  | node {i : Nat} {e : Entry} {rs : List Conversation} (here : t.entries[i]? = some e)
      (below : List.Forall₂ (Nested t) e.children rs) : Nested t i (.node e.message rs)

theorem nested_node_iff {m : Message} {rs : List Conversation} :
    t.Nested i (.node m rs) ↔
      ∃ e, t.entries[i]? = some e ∧ e.message = m ∧ List.Forall₂ t.Nested e.children rs := by
  constructor
  · rintro ⟨here, below⟩
    exact ⟨_, here, rfl, below⟩
  · rintro ⟨e, here, rfl, below⟩
    exact .node here below

/-- What holds at a place as soon as it holds at the places of all replies there holds at every
place of a conversation. -/
@[elab_as_elim]
theorem Nested.induction {motive : (i : Nat) → (c : Conversation) → t.Nested i c → Prop}
    (node : ∀ {i : Nat} {e : Entry} {rs : List Conversation} (here : t.entries[i]? = some e)
      (below : List.Forall₂ t.Nested e.children rs),
      List.Forall₂ (fun j r => ∃ h : t.Nested j r, motive j r h) e.children rs →
        motive i (.node e.message rs) (.node here below))
    {i : Nat} {c : Conversation} (h : t.Nested i c) : motive i c h := by
  induction c generalizing i with
  | node m rs ih =>
    cases h with
    | node here below =>
      exact node here below (forall₂_of_forall_mem below fun r hr j hj => ⟨hj, ih r hr hj⟩)

/-- The links of the table agree with each other and with its places, and make up the conversation
from the first place on. -/
structure Holds (t : Table) (c : Conversation) : Prop where
  nested : t.Nested 0 c
  root : ∀ e : Entry, t.entries[0]? = some e → e.parent = none
  links : ∀ (i : Nat) (e : Entry), t.entries[i]? = some e → ∀ j ∈ e.children,
    ∃ reply : Entry, t.entries[j]? = some reply ∧ reply.parent = some i
  places : ∀ (id : Text) (i : Nat), t.place? id = some i ↔
    ∃ e : Entry, t.entries[i]? = some e ∧ e.message.id = id
  messages : c.messages.Perm (t.entries.map Entry.message)
  nodup : c.ids.Nodup

theorem holds_new (root : Message) : (new root).Holds (Conversation.new root) where
  nested := .node (e := ⟨root, none, []⟩) rfl .nil
  root e h := by
    cases h
    rfl
  links i e h j hj := by
    cases i with
    | zero =>
      cases h
      cases hj
    | succ i => cases h
  places id i := by
    rw [place?, new, List.lookup_cons]
    by_cases hid : id = root.id
    · subst hid
      cases i with
      | zero => simp
      | succ i => simp
    · rw [beq_false_of_ne hid]
      cases i with
      | zero => simp [Ne.symm hid]
      | succ i => simp
  messages := List.Perm.refl _
  nodup := by simp

theorem Holds.mem_ids_iff (h : t.Holds c) : id ∈ c.ids ↔ ∃ i, t.place? id = some i := by
  rw [Conversation.ids, (h.messages.map Message.id).mem_iff, List.map_map, List.mem_map]
  constructor
  · rintro ⟨e, he, rfl⟩
    obtain ⟨i, hi⟩ := List.mem_iff_getElem?.mp he
    exact ⟨i, (h.places _ i).mpr ⟨e, hi, rfl⟩⟩
  · rintro ⟨i, hi⟩
    obtain ⟨e, he, rfl⟩ := (h.places id i).mp hi
    exact ⟨e, List.mem_of_getElem? he, rfl⟩

theorem Holds.contains (h : t.Holds c) (id : Text) : t.contains id = c.contains id := by
  rw [Bool.eq_iff_iff, contains_iff, h.mem_ids_iff, Table.contains, Option.isSome_iff_exists]

theorem Holds.size (h : t.Holds c) : t.size = c.size := by
  rw [Table.size, Conversation.size, h.messages.length_eq, List.length_map]

/-- The part of the table below a place grows as the conversation does. -/
theorem Nested.insert (h : t.Holds c) (hp : t.place? parent = some p) {d : Conversation}
    (hd : t.Nested i d) : (t.insert p r).Nested i (d.insert parent r) := by
  obtain ⟨target, htarget, hid⟩ := (h.places parent p).mp hp
  have hsize : p < t.size := lt_size htarget
  induction hd using Nested.induction with
  | @node i e rs here below ih =>
    have hbelow : List.Forall₂ (t.insert p r).Nested e.children
        (rs.map (Conversation.insert parent r)) := by
      rw [List.forall₂_map_right_iff]
      exact ih.imp fun _ _ ⟨_, h⟩ => h
    rw [Conversation.insert, insertIn_eq_map, nested_node_iff]
    refine ⟨_, entries_insert_of_some hsize here, by split <;> rfl, ?_⟩
    by_cases hi : p = i
    · subst hi
      obtain rfl : e = target := Option.some.inj (here.symm.trans htarget)
      have hnew : (t.insert p r).Nested t.size (Conversation.new r) :=
        .node (entries_insert_size hsize) .nil
      rw [if_pos rfl, if_pos hid]
      exact List.rel_append hbelow (.cons hnew .nil)
    · have hne : e.message.id ≠ parent := by
        intro heq
        have hplace := (h.places parent i).mpr ⟨e, here, heq⟩
        exact hi (Option.some.inj (hp.symm.trans hplace))
      rw [if_neg hi, if_neg hne]
      exact hbelow

/-- The links down from an entry still lead to entries that link back to it. -/
theorem Holds.links_insert (h : t.Holds c) (hsize : p < t.size)
    (he : (t.insert p r).entries[i]? = some e) {j : Nat} (hj : j ∈ e.children) :
    ∃ reply : Entry, (t.insert p r).entries[j]? = some reply ∧ reply.parent = some i := by
  rcases of_entries_insert hsize he with ⟨-, rfl⟩ | ⟨old, hold, -, -, hchildren⟩
  · cases hj
  · rw [hchildren, List.mem_append] at hj
    rcases hj with hj | hj
    · obtain ⟨reply, hreply, hparent⟩ := h.links i old hold j hj
      refine ⟨_, entries_insert_of_some hsize hreply, ?_⟩
      split <;> exact hparent
    · split at hj
      · rename_i hi
        rw [List.mem_singleton.mp hj, ← hi]
        exact ⟨_, entries_insert_size hsize, rfl⟩
      · cases hj

/-- The places still tell where an identifier is. -/
theorem Holds.places_insert (h : t.Holds c) (hsize : p < t.size) (hr : t.place? r.id = none)
    (id : Text) (i : Nat) : (t.insert p r).place? id = some i ↔
      ∃ e : Entry, (t.insert p r).entries[i]? = some e ∧ e.message.id = id := by
  rw [place?_insert]
  constructor
  · split
    · rename_i heq
      rintro hi
      cases hi
      exact ⟨_, entries_insert_size hsize, heq.symm⟩
    · intro hi
      obtain ⟨e, he, hid⟩ := (h.places id i).mp hi
      refine ⟨_, entries_insert_of_some hsize he, ?_⟩
      split <;> exact hid
  · rintro ⟨e, he, rfl⟩
    rcases of_entries_insert hsize he with ⟨rfl, rfl⟩ | ⟨old, hold, hmessage, -, -⟩
    · rw [if_pos rfl]
    · have hplace := (h.places old.message.id i).mpr ⟨old, hold, rfl⟩
      rw [hmessage, if_neg, hplace]
      rintro heq
      rw [heq, hr] at hplace
      cases hplace

theorem Holds.insert (h : t.Holds c) (hp : t.place? parent = some p) (hr : t.place? r.id = none) :
    (t.insert p r).Holds (c.insert parent r) := by
  obtain ⟨target, htarget, hid⟩ := (h.places parent p).mp hp
  have hsize : p < t.size := lt_size htarget
  have hold : parent ∈ c.ids := h.mem_ids_iff.mpr ⟨p, hp⟩
  have hnew : r.id ∉ c.ids := by
    rw [h.mem_ids_iff]
    rintro ⟨i, hi⟩
    rw [hr] at hi
    cases hi
  have hperm := messages_insert_perm (r := r) h.nodup hold
  constructor
  · exact Nested.insert h hp h.nested
  · intro e he
    rcases of_entries_insert hsize he with ⟨hzero, -⟩ | ⟨old, hold, -, hparent, -⟩
    · exact absurd hzero (Nat.ne_of_lt (Nat.zero_lt_of_lt hsize))
    · rw [hparent]
      exact h.root old hold
  · exact fun i e he j hj => h.links_insert hsize he hj
  · exact h.places_insert hsize hr
  · rw [messages_insert]
    exact hperm.trans ((h.messages.cons r).trans (List.perm_append_singleton r _).symm)
  · exact (hperm.map Message.id).nodup_iff.mpr (List.nodup_cons.mpr ⟨hnew, h.nodup⟩)

/-- A reply is added to both or refused by both. -/
theorem Holds.add? (h : t.Holds c) (parent : Text) (r : Message) :
    (t.add? parent r = none ∧ c.add? parent r = none) ∨
      ∃ t' d, t.add? parent r = some t' ∧ c.add? parent r = some d ∧ t'.Holds d := by
  have hcontains : t.contains parent = (t.place? parent).isSome := rfl
  rw [Table.add?, Conversation.add?, ← h.contains, ← h.contains, hcontains]
  cases hp : t.place? parent with
  | none => exact .inl ⟨rfl, rfl⟩
  | some p =>
    cases hr : t.contains r.id with
    | true => exact .inl ⟨rfl, rfl⟩
    | false =>
      have hnone : t.place? r.id = none := Option.isNone_iff_eq_none.mp (by
        rw [← Option.not_isSome]
        exact congrArg Bool.not hr)
      exact .inr ⟨t.insert p r, c.insert parent r, rfl, rfl, h.insert hp hnone⟩

theorem holds_grow (root : Message) (tries : List (Text × Message)) :
    (grow root tries).Holds (Conversation.grow root tries) := by
  have hrun : ∀ t c, Holds t c →
      Holds (tries.foldl (fun t s => (t.add? s.1 s.2).getD t) t)
        (tries.foldl (fun c s => (c.add? s.1 s.2).getD c) c) := by
    induction tries with
    | nil => exact fun t c h => h
    | cons s tries ih =>
      intro t c h
      refine ih _ _ ?_
      rcases h.add? s.1 s.2 with ⟨ht, hc⟩ | ⟨t', d, ht, hc, hd⟩
      · simpa only [ht, hc, Option.getD_none] using h
      · simpa only [ht, hc, Option.getD_some] using hd
  exact hrun _ _ (holds_new root)

/-- A reply stands where it came, with the place of its parent; one to no message, and one with an
identifier that is taken, stand nowhere. -/
example :
    let m (id : String) : Message := .new id.toList ⟨[], []⟩
    let t := grow (m "a") [("a".toList, m "b"), ("a".toList, m "c"), ("b".toList, m "d"),
      ("x".toList, m "e"), ("a".toList, m "d")]
    t.entries.map (fun e => (e.parent, e.children)) =
      [(none, [1, 2]), (some 0, [3]), (some 0, []), (some 1, [])] := by
  decide

end Table
end Conversation
end MailArchive
