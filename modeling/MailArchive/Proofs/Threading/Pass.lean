import MailArchive.Proofs.Threading.Firsts
import MailArchive.Proofs.Threading.Growth

/-!
# MailArchive.Proofs.Threading.Pass

What the passes of the threading do to a forest in which no identifier comes twice, when the replies
that are tried have identifiers of their own (`Fresh`).

* `Tries f rs ps ws g`: from the forest `f` the replies `rs` are tried in order; `ps` are placed,
  `ws` have to wait, and `g` is the forest at the end. `pass_tries` says that a pass does exactly
  this and that no conversation ever refuses a reply.
* `Passes f rs g ws`: some passes after each other lead from the forest `f` and the replies `rs` to
  the forest `g`, and then `ws` wait. `settle_passes` says that the passes of `settle` do this until
  no waiting reply has its parent in the forest (`Done`). From there further passes change nothing
  (`Passes.eq_of_done`), so where passes come to an end does not depend on how many there were
  (`Passes.unique`).
* `build_grows`, `build_fixedPoint_passes`: what this means for `build`.
-/

namespace MailArchive
namespace Threading

open Conversation

/-! ## One reply -/

/-- Where no identifier comes twice, a reply is placed exactly if its parent is there. -/
theorem place_eq {f : List Conversation} {r : Reply} (hn : (idsIn f).Nodup)
    (hr : r.message.id ∉ idsIn f) :
    place r f =
      if r.target ∈ idsIn f then .placed (insertIn r.target r.message f) else .waiting := by
  induction f with
  | nil => rfl
  | cons c cs ih =>
    obtain ⟨-, hcs, hdisj⟩ := nodup_ids_cons hn
    have hmem : ∀ id, id ∈ idsIn (c :: cs) ↔ id ∈ c.ids ∨ id ∈ idsIn cs := by
      intro id
      simp [idsIn, ids, messagesIn]
    rw [hmem, not_or] at hr
    rw [place, insertIn]
    simp only [hmem]
    by_cases hc : r.target ∈ c.ids
    · have hadd : c.add? r.target r.message = some (c.insert r.target r.message) := by
        have hnot : c.contains r.message.id = false :=
          Bool.eq_false_iff.mpr fun h => hr.1 (contains_iff.mp h)
        rw [add?, contains_iff.mpr hc, hnot]
        rfl
      rw [if_pos (contains_iff.mpr hc), hadd, if_pos (.inl hc), insertIn_of_notMem (hdisj _ hc)]
    · have hnot : ¬c.contains r.target = true := fun h => hc (contains_iff.mp h)
      rw [if_neg hnot, ih hcs hr.2, insert_of_notMem hc]
      by_cases hcs : r.target ∈ idsIn cs
      · rw [if_pos hcs, if_pos (.inr hcs)]
      · rw [if_neg hcs, if_neg (not_or.mpr ⟨hc, hcs⟩)]

/-! ## One pass -/

inductive Tries : List Conversation → List Reply → List Reply → List Reply →
    List Conversation → Prop where
  | nil {f : List Conversation} : Tries f [] [] [] f
  | placed {f g : List Conversation} {r : Reply} {rs ps ws : List Reply}
      (known : r.target ∈ idsIn f) (fresh : r.message.id ∉ idsIn f)
      (rest : Tries (insertIn r.target r.message f) rs ps ws g) : Tries f (r :: rs) (r :: ps) ws g
  | waiting {f g : List Conversation} {r : Reply} {rs ps ws : List Reply}
      (unknown : r.target ∉ idsIn f) (rest : Tries f rs ps ws g) : Tries f (r :: rs) ps (r :: ws) g

/-- No identifier comes twice among the messages of the forest and the replies. -/
def Fresh (f : List Conversation) (rs : List Reply) : Prop :=
  (idsIn f ++ rs.map (·.message.id)).Nodup

namespace Fresh

variable {f : List Conversation} {r : Reply} {rs ss : List Reply}

theorem forest (h : Fresh f rs) : (idsIn f).Nodup := (List.nodup_append.mp h).1

theorem replies (h : Fresh f rs) : (rs.map (·.message.id)).Nodup := (List.nodup_append.mp h).2.1

theorem head (h : Fresh f (r :: rs)) : r.message.id ∉ idsIn f := fun hid =>
  (List.nodup_append.mp h).2.2 r.message.id hid r.message.id List.mem_cons_self rfl

theorem sublist (h : Fresh f rs) (hs : ss.Sublist rs) : Fresh f ss :=
  List.Nodup.sublist ((hs.map _).append_left (idsIn f)) h

theorem placed (h : Fresh f (r :: rs)) (hr : r.target ∈ idsIn f) :
    Fresh (insertIn r.target r.message f) rs := by
  have hp := (idsIn_insertIn_perm h.forest hr (r := r.message)).append_right
    (rs.map (·.message.id))
  rw [Fresh, hp.nodup_iff]
  exact List.perm_middle.nodup_iff.mp h

end Fresh

namespace Tries

variable {f g : List Conversation} {rs ps ws : List Reply}

theorem grows (h : Tries f rs ps ws g) : Grows f ps g := by
  induction h with
  | nil => exact .refl
  | placed known fresh _ ih => exact .cons known fresh ih
  | waiting _ _ ih => exact ih

theorem perm (h : Tries f rs ps ws g) : (ps ++ ws).Perm rs := by
  induction h with
  | nil => exact List.Perm.refl _
  | @placed f g r rs ps ws _ _ _ ih => exact ih.cons r
  | @waiting f g r rs ps ws _ _ ih => exact List.perm_middle.trans (ih.cons r)

theorem placed_sublist (h : Tries f rs ps ws g) : ps.Sublist rs := by
  induction h with
  | nil => exact List.Sublist.refl _
  | @placed f g r rs ps ws _ _ _ ih => exact ih.cons_cons r
  | @waiting f g r rs ps ws _ _ ih => exact ih.cons r

theorem waiting_sublist (h : Tries f rs ps ws g) : ws.Sublist rs := by
  induction h with
  | nil => exact List.Sublist.refl _
  | @placed f g r rs ps ws _ _ _ ih => exact ih.cons r
  | @waiting f g r rs ps ws _ _ ih => exact ih.cons_cons r

/-- If every reply has to wait, the forest is as before and has the parent of none of them. -/
theorem eq_of_all_waiting (h : Tries f rs ps ws g) (hlen : ws.length = rs.length) :
    ps = [] ∧ ws = rs ∧ g = f ∧ ∀ r ∈ rs, r.target ∉ idsIn f := by
  induction h with
  | nil => exact ⟨rfl, rfl, rfl, fun _ h => nomatch h⟩
  | placed _ _ rest _ =>
    have := rest.waiting_sublist.length_le
    rw [List.length_cons] at hlen
    omega
  | @waiting f g r rs ps ws unknown _ ih =>
    rw [List.length_cons, List.length_cons, Nat.add_right_cancel_iff] at hlen
    obtain ⟨hps, hws, hg, hrs⟩ := ih hlen
    refine ⟨hps, by rw [hws], hg, ?_⟩
    intro s hs
    rcases List.mem_cons.mp hs with rfl | hs
    · exact unknown
    · exact hrs s hs

end Tries

theorem foldl_step_tries (p : Pass) (rs : List Reply) (h : Fresh p.forest rs) :
    ∃ ps ws g, Tries p.forest rs ps ws g ∧
      rs.foldl Pass.step p = ⟨g, p.waiting ++ ws, p.refused⟩ := by
  induction rs generalizing p with
  | nil => exact ⟨[], [], p.forest, .nil, by simp⟩
  | cons r rs ih =>
    rw [List.foldl_cons, Pass.step, place_eq h.forest h.head]
    by_cases hr : r.target ∈ idsIn p.forest
    · rw [if_pos hr]
      obtain ⟨ps, ws, g, ht, he⟩ :=
        ih { p with forest := insertIn r.target r.message p.forest } (h.placed hr)
      exact ⟨r :: ps, ws, g, .placed hr h.head ht, he⟩
    · rw [if_neg hr]
      obtain ⟨ps, ws, g, ht, he⟩ :=
        ih { p with waiting := p.waiting ++ [r] } (h.sublist (List.sublist_cons_self r rs))
      refine ⟨ps, r :: ws, g, .waiting hr ht, he.trans ?_⟩
      rw [List.append_assoc, List.singleton_append]

/-- A pass tries the replies in order, and no conversation refuses one. -/
theorem pass_tries {f : List Conversation} {rs : List Reply} (h : Fresh f rs) :
    ∃ ps, Tries f rs ps (pass f rs).waiting (pass f rs).forest ∧ (pass f rs).refused = [] := by
  obtain ⟨ps, ws, g, ht, he⟩ := foldl_step_tries { forest := f } rs h
  rw [List.nil_append] at he
  rw [pass, he]
  exact ⟨ps, ht, rfl⟩

/-- What waits after a pass can be tried again. -/
theorem Fresh.waiting {f g : List Conversation} {rs ps ws : List Reply} (h : Fresh f rs)
    (ht : Tries f rs ps ws g) : Fresh g ws := by
  have hg : (idsIn g).Perm (idsIn f ++ ps.map (·.message.id)) := by
    have hm := (ht.grows.messages_perm h.forest).map Message.id
    rw [List.map_append, List.map_map] at hm
    exact hm.trans List.perm_append_comm
  have hrs : ((ps ++ ws).map (·.message.id)).Perm (rs.map (·.message.id)) := ht.perm.map _
  have hall : (idsIn g ++ ws.map (·.message.id)).Perm (idsIn f ++ rs.map (·.message.id)) := by
    refine (hg.append_right _).trans ?_
    rw [List.append_assoc, ← List.map_append]
    exact hrs.append_left (idsIn f)
  exact hall.nodup_iff.mpr h

/-- Whether a reply is placed depends on the forest alone. -/
theorem Tries.unique {f g g' : List Conversation} {rs ps ps' ws ws' : List Reply}
    (h : Tries f rs ps ws g) (h' : Tries f rs ps' ws' g') : ps = ps' ∧ ws = ws' ∧ g = g' := by
  induction h generalizing ps' ws' g' with
  | nil =>
    cases h'
    exact ⟨rfl, rfl, rfl⟩
  | placed known _ _ ih =>
    cases h' with
    | placed _ _ rest =>
      obtain ⟨rfl, rfl, rfl⟩ := ih rest
      exact ⟨rfl, rfl, rfl⟩
    | waiting unknown _ => exact absurd known unknown
  | waiting unknown _ ih =>
    cases h' with
    | placed known _ _ => exact absurd known unknown
    | waiting _ rest =>
      obtain ⟨rfl, rfl, rfl⟩ := ih rest
      exact ⟨rfl, rfl, rfl⟩

/-! ## All passes -/

/-- Some passes, each over the replies that the one before has left. -/
inductive Passes : List Conversation → List Reply → List Conversation → List Reply → Prop where
  | refl {f : List Conversation} {rs : List Reply} : Passes f rs f rs
  | step {f g h : List Conversation} {rs ps ws vs : List Reply} (first : Tries f rs ps ws g)
      (rest : Passes g ws h vs) : Passes f rs h vs

/-- The forest has the parent of none of the replies. -/
def Done (f : List Conversation) (rs : List Reply) : Prop := ∀ r ∈ rs, r.target ∉ idsIn f

/-- Then a pass only looks at them. -/
theorem Done.tries {f : List Conversation} {rs : List Reply} (h : Done f rs) :
    Tries f rs [] rs f := by
  induction rs with
  | nil => exact .nil
  | cons r rs ih =>
    exact .waiting (h r List.mem_cons_self) (ih fun s hs => h s (List.mem_cons_of_mem r hs))

namespace Passes

variable {f g g' : List Conversation} {rs ws ws' : List Reply}

/-- The passes together place some of the replies, and the others wait. -/
theorem grows (h : Passes f rs g ws) : ∃ ps, Grows f ps g ∧ (ps ++ ws).Perm rs := by
  induction h with
  | refl => exact ⟨[], .refl, List.Perm.refl _⟩
  | @step f g h rs ps ws vs first _ ih =>
    obtain ⟨qs, hq, hperm⟩ := ih
    refine ⟨ps ++ qs, first.grows.trans hq, ?_⟩
    rw [List.append_assoc]
    exact (hperm.append_left ps).trans first.perm

theorem waiting_sublist (h : Passes f rs g ws) : ws.Sublist rs := by
  induction h with
  | refl => exact List.Sublist.refl _
  | step first _ ih => exact ih.trans first.waiting_sublist

theorem eq_of_done (h : Passes f rs g ws) (hd : Done f rs) : g = f ∧ ws = rs := by
  induction h with
  | refl => exact ⟨rfl, rfl⟩
  | step first _ ih =>
    obtain ⟨rfl, rfl, rfl⟩ := hd.tries.unique first
    exact ih hd

/-- Two runs of passes that have both come to an end have come to the same end. -/
theorem unique (h : Passes f rs g ws) (h' : Passes f rs g' ws') (hd : Done g ws)
    (hd' : Done g' ws') : g = g' ∧ ws = ws' := by
  induction h with
  | refl =>
    obtain ⟨rfl, rfl⟩ := h'.eq_of_done hd
    exact ⟨rfl, rfl⟩
  | step first rest ih =>
    cases h' with
    | refl =>
      obtain ⟨rfl, rfl, rfl⟩ := hd'.tries.unique first
      exact rest.eq_of_done hd'
    | step first' rest' =>
      obtain ⟨rfl, rfl, rfl⟩ := first.unique first'
      exact ih rest' hd

end Passes

/-- `settle` makes passes until all that can be placed is placed, and none is refused. -/
theorem settle_passes (n : Nat) (refused : List Reply) {f : List Conversation} {rs : List Reply}
    (h : Fresh f rs) :
    Passes f rs (settle n refused f rs).forest (settle n refused f rs).waiting ∧
      Done (settle n refused f rs).forest (settle n refused f rs).waiting ∧
      (settle n refused f rs).refused = refused := by
  induction hlen : rs.length using Nat.strongRecOn generalizing n refused f rs with
  | ind k ih =>
    obtain ⟨ps, ht, href⟩ := pass_tries h
    rw [settle]
    simp only [href, List.append_nil]
    split
    · rename_i hstop
      obtain ⟨-, hws, hg, hrs⟩ := ht.eq_of_all_waiting hstop
      refine ⟨.step ht .refl, ?_, rfl⟩
      dsimp only
      rw [hws, hg]
      exact hrs
    · rename_i hgo
      have hlt : (pass f rs).waiting.length < k :=
        hlen ▸ Nat.lt_of_le_of_ne ht.waiting_sublist.length_le hgo
      obtain ⟨hp, hd, href'⟩ := ih _ hlt (n + 1) refused (h.waiting ht) rfl
      exact ⟨.step ht hp, hd, href'⟩

/-! ## From the messages to the conversations -/

/-- The replies to a message of the list. -/
def aimed (ms : List Message) : List Reply := (replies ms).filter (isAimed ms)

/-- The forest that consists of the roots alone. -/
def seedlings (ms : List Message) : List Conversation := (roots ms).map new

theorem messagesIn_seedlings (ms : List Message) : messagesIn (seedlings ms) = roots ms :=
  messagesIn_map_new (roots ms)

theorem fresh_seedlings {ms : List Message} (hn : (ms.map Message.id).Nodup) :
    Fresh (seedlings ms) (aimed ms) := by
  have hall : Fresh (seedlings ms) (replies ms) := by
    have hp := ((replies_roots_perm ms).map Message.id).nodup_iff.mpr hn
    rw [List.map_append, List.map_map] at hp
    rw [Fresh, idsIn, messagesIn_seedlings]
    exact List.perm_append_comm.nodup_iff.mp hp
  exact hall.sublist List.filter_sublist

theorem missing_build (resolution : Resolution) (ms : List Message) :
    (build resolution ms).missing =
      (replies (firsts ms)).filter (!isAimed (firsts ms) ·) := by
  cases resolution <;> rfl

/-- In a single pass the replies are tried once in the order of the archive. -/
theorem build_singlePass (ms : List Message) :
    ∃ placed, Tries (seedlings (firsts ms)) (aimed (firsts ms)) placed
      (build .singlePass ms).waiting (build .singlePass ms).conversations ∧
      (build .singlePass ms).refused = [] :=
  pass_tries (fresh_seedlings (nodup_ids_firsts ms))

/-- The passes to the fixed point go on from what a single pass comes to. -/
theorem build_fixedPoint_passes (ms : List Message) :
    Passes (build .singlePass ms).conversations (build .singlePass ms).waiting
        (build .fixedPoint ms).conversations (build .fixedPoint ms).waiting ∧
      Done (build .fixedPoint ms).conversations (build .fixedPoint ms).waiting ∧
      (build .fixedPoint ms).refused = [] := by
  have hfresh := fresh_seedlings (nodup_ids_firsts ms)
  obtain ⟨ps, ht, href⟩ := pass_tries hfresh
  obtain ⟨hp, hd, href'⟩ :=
    settle_passes 1 (pass (seedlings (firsts ms)) (aimed (firsts ms))).refused (hfresh.waiting ht)
  exact ⟨hp, hd, href'.trans href⟩

/-- When the passes have come to their end, no reply that still waits has its parent in a
conversation. -/
theorem build_fixedPoint (ms : List Message) :
    ∃ placed, Grows (seedlings (firsts ms)) placed (build .fixedPoint ms).conversations ∧
      (placed ++ (build .fixedPoint ms).waiting).Perm (aimed (firsts ms)) ∧
      (build .fixedPoint ms).refused = [] ∧
      ∀ r ∈ (build .fixedPoint ms).waiting,
        r.target ∉ idsIn (build .fixedPoint ms).conversations := by
  obtain ⟨ps, ht, -⟩ := build_singlePass ms
  obtain ⟨hp, hd, href⟩ := build_fixedPoint_passes ms
  obtain ⟨placed, hg, hperm⟩ := (Passes.step ht hp).grows
  exact ⟨placed, hg, hperm, href, hd⟩

/-- With either resolution the conversations grow from the roots by replies to messages that exist;
the other ones of these wait, and none is refused. -/
theorem build_grows (resolution : Resolution) (ms : List Message) :
    ∃ placed, Grows (seedlings (firsts ms)) placed (build resolution ms).conversations ∧
      (placed ++ (build resolution ms).waiting).Perm (aimed (firsts ms)) ∧
      (build resolution ms).refused = [] := by
  cases resolution with
  | singlePass =>
    obtain ⟨ps, ht, href⟩ := build_singlePass ms
    exact ⟨ps, ht.grows, ht.perm, href⟩
  | fixedPoint =>
    obtain ⟨ps, hg, hperm, href, -⟩ := build_fixedPoint ms
    exact ⟨ps, hg, hperm, href⟩

end Threading
end MailArchive
