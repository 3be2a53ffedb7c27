import MailArchive.Proofs.Conversation.Linked

/-!
# MailArchive.Proofs.Conversation.Depth

How far a message is below the first one. A message is one deeper than its parent
(`depth?_of_parent?`), and only the first message has no parent (`exists_parent?`). So one comes
from a message to the first one by going to the parent as many times as the depth says, and no
other number of times (`ancestor?_eq_first_iff`).
-/

namespace MailArchive
namespace Conversation

/-! ## Depths -/

theorem depthIn?_eq_findSome? (id : Text) (cs : List Conversation) :
    depthIn? id cs = cs.findSome? (depth? id) := by
  induction cs with
  | nil => rfl
  | cons c cs ih => cases h : depth? id c <;> simp [depthIn?, h, ih]

theorem depth?_first (c : Conversation) : c.depth? c.first.id = some 0 := by
  cases c with
  | node m rs => rw [first_node, depth?, if_pos rfl]

theorem depth?_node_of_ne {id : Text} {m : Message} {rs : List Conversation} (h : m.id ≠ id) :
    (node m rs).depth? id = (rs.findSome? (depth? id)).map (· + 1) := by
  rw [depth?, if_neg h, depthIn?_eq_findSome?]

theorem depth?_eq_none_iff {id : Text} {c : Conversation} : c.depth? id = none ↔ id ∉ c.ids := by
  refine search_eq_none_iff (f := depth? id) ?_ ?_ c
  · rintro m rs rfl
    rw [depth?, if_pos rfl]
    exact Option.some_ne_none _
  · intro m rs hm
    rw [depth?_node_of_ne hm, Option.map_eq_none_iff, List.findSome?_eq_none_iff]

theorem exists_depth? {id : Text} {c : Conversation} (h : id ∈ c.ids) :
    ∃ d, c.depth? id = some d := by
  cases hd : c.depth? id with
  | none => exact absurd h (depth?_eq_none_iff.mp hd)
  | some d => exact ⟨d, rfl⟩

/-- Below the first message a depth is one more than in the reply that has the message. -/
theorem depth?_of_mem_branch {id : Text} {m : Message} {rs : List Conversation} {r : Conversation}
    (hn : (node m rs).ids.Nodup) (hr : r ∈ rs) (hid : id ∈ r.ids) :
    (node m rs).depth? id = (r.depth? id).map (· + 1) := by
  have hrs : (idsIn rs).Nodup := (List.nodup_cons.mp hn).2
  rw [depth?_node_of_ne (ne_of_mem_branch hn hr hid),
    findSome?_of_mem_ids hrs (fun _ _ => depth?_eq_none_iff.mpr) hr hid]

/-! ## Parents -/

/-- Every message but the first has a parent. -/
theorem exists_parent? {id : Text} {c : Conversation} (hid : id ∈ c.ids) (hne : id ≠ c.first.id) :
    ∃ p, c.parent? id = some p := by
  induction c with
  | node m rs ih =>
    rw [first_node] at hne
    rw [parent?, if_neg (Ne.symm hne), parentIn?_eq_findSome?]
    by_cases hany : rs.any (·.first.id == id) = true
    · exact ⟨m, if_pos hany⟩
    · obtain ⟨r, hr, hidr⟩ := (mem_ids_node.mp hid).resolve_left hne
      have hner : id ≠ r.first.id := fun h =>
        hany (List.any_eq_true.mpr ⟨r, hr, beq_iff_eq.mpr h.symm⟩)
      obtain ⟨p, hp⟩ := ih r hr hidr hner
      rw [if_neg hany, ← Option.isSome_iff_exists, List.findSome?_isSome_iff]
      exact ⟨r, hr, by rw [hp]; rfl⟩

/-- A message is one deeper than its parent. -/
theorem depth?_of_parent? {id : Text} {c : Conversation} {p : Message} (hn : c.ids.Nodup)
    (h : c.parent? id = some p) : c.depth? id = (c.depth? p.id).map (· + 1) := by
  induction c with
  | node m rs ih =>
    have hrs : (idsIn rs).Nodup := (List.nodup_cons.mp hn).2
    rw [parent?] at h
    split at h
    · cases h
    · split at h
      · rename_i hany
        cases h
        obtain ⟨r, hr, hid⟩ := List.any_eq_true.mp hany
        obtain rfl := beq_iff_eq.mp hid
        have hp : (node p rs).depth? p.id = some 0 := depth?_first (node p rs)
        rw [depth?_of_mem_branch hn hr (id_mem_ids (first_mem_messages r)), depth?_first, hp]
      · rw [parentIn?_eq_findSome?] at h
        obtain ⟨r, hr, hp⟩ := List.exists_of_findSome?_eq_some h
        obtain ⟨hid, hpm⟩ := mem_of_parent? hp
        rw [depth?_of_mem_branch hn hr hid, depth?_of_mem_branch hn hr (id_mem_ids hpm),
          ih r hr (nodup_ids_of_mem hrs hr) hp]

/-! ## From parent to parent -/

/-- The message to which one comes by going to the parent a number of times. -/
def ancestor? (c : Conversation) : Nat → Message → Option Message
  | 0, m => some m
  | n + 1, m => (c.parent? m.id).bind (c.ancestor? n)

theorem ancestor?_eq_first_iff {c : Conversation} {m : Message} {d n : Nat} (hn : c.ids.Nodup)
    (hm : m ∈ c.messages) (hd : c.depth? m.id = some d) :
    c.ancestor? n m = some c.first ↔ n = d := by
  induction d generalizing m n with
  | zero =>
    have hfirst : m.id = c.first.id := by
      by_contra hne
      obtain ⟨p, hp⟩ := exists_parent? (id_mem_ids hm) hne
      rw [depth?_of_parent? hn hp] at hd
      obtain ⟨_, -, h⟩ := Option.map_eq_some_iff.mp hd
      cases h
    have hmc : m = c.first := List.inj_on_of_nodup_map hn hm (first_mem_messages c) hfirst
    cases n with
    | zero => exact iff_of_true (congrArg some hmc) rfl
    | succ n => simp [ancestor?, hfirst, parent?_first]
  | succ d ih =>
    have hne : m.id ≠ c.first.id := by
      intro h
      rw [h, depth?_first] at hd
      cases hd
    obtain ⟨p, hp⟩ := exists_parent? (id_mem_ids hm) hne
    rw [depth?_of_parent? hn hp] at hd
    obtain ⟨e, he, hed⟩ := Option.map_eq_some_iff.mp hd
    obtain rfl : e = d := Nat.succ.inj hed
    cases n with
    | zero =>
      refine iff_of_false (fun h => ?_) (Nat.succ_ne_zero e).symm
      exact hne (congrArg Message.id (Option.some.inj h))
    | succ n =>
      rw [ancestor?, hp, Option.bind_some, ih (mem_of_parent? hp).2 he, Nat.succ_inj]

end Conversation
end MailArchive
