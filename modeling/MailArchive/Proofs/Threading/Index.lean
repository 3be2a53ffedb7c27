import MailArchive.Threading.Index
import MailArchive.Proofs.Conversation.Offer
import MailArchive.Proofs.Conversation.Views
import MailArchive.Proofs.Threading.Pass

/-!
# MailArchive.Proofs.Threading.Index

The register of an index and the search through the conversations come to the same
(`run?_simulates`). An index holds a forest (`Index.Holds`) if its tables hold the conversations and
its register has every identifier of theirs with the place of its conversation, and no other
identifier. A reply with a new identifier is then attached by both or has to wait in both
(`Builder.attach?_of_tries`), so the two go through the passes side by side, and the register never
has a conversation that is not there.
-/

namespace MailArchive

section

variable {α β : Type} {R : α → β → Prop} {xs : List α} {ys : List β} {x : α} {y : β} {i : Nat}

theorem exists_getElem?_of_forall₂ (h : List.Forall₂ R xs ys) (hy : ys[i]? = some y) :
    ∃ x, xs[i]? = some x ∧ R x y := by
  induction h generalizing i with
  | nil => cases hy
  | @cons x _ _ _ hxy _ ih =>
    cases i with
    | zero =>
      cases hy
      exact ⟨x, rfl, hxy⟩
    | succ i => exact ih hy

theorem forall₂_set (h : List.Forall₂ R xs ys) (hxy : R x y) (i : Nat) :
    List.Forall₂ R (xs.set i x) (ys.set i y) := by
  induction h generalizing i with
  | nil => exact .nil
  | cons h hs ih =>
    cases i with
    | zero => exact .cons hxy hs
    | succ i => exact .cons h (ih i)

end

namespace Threading

open Conversation

/-! ## Tables and register -/

namespace Index

/-- The tables hold the conversations, and the register has the identifiers in them, each with the
place of its conversation. -/
structure Holds (x : Index) (f : List Conversation) : Prop where
  tables : List.Forall₂ Table.Holds x.tables f
  homes : ∀ (id : Text) (i : Nat), x.home? id = some i ↔ ∃ c, f[i]? = some c ∧ id ∈ c.ids

variable {x : Index} {f : List Conversation} {c : Conversation} {i : Nat} {m : Message} {r : Reply}

theorem holds_nil : Holds {} [] where
  tables := .nil
  homes id i := by simp [home?]

theorem Holds.mem_idsIn_iff (h : x.Holds f) {id : Text} :
    id ∈ idsIn f ↔ ∃ i, x.home? id = some i := by
  rw [mem_idsIn]
  constructor
  · rintro ⟨c, hc, hid⟩
    obtain ⟨i, hi⟩ := List.mem_iff_getElem?.mp hc
    exact ⟨i, (h.homes id i).mpr ⟨c, hi, hid⟩⟩
  · rintro ⟨i, hi⟩
    obtain ⟨c, hc, hid⟩ := (h.homes id i).mp hi
    exact ⟨c, List.mem_of_getElem? hc, hid⟩

theorem Holds.home?_eq_none (h : x.Holds f) {id : Text} (hid : id ∉ idsIn f) :
    x.home? id = none := by
  rw [Option.eq_none_iff_forall_not_mem]
  exact fun i hi => hid (h.mem_idsIn_iff.mpr ⟨i, hi⟩)

theorem home?_cons (tables : List Table) (homes : List (Text × Nat)) (new id : Text) (i : Nat) :
    home? ⟨tables, (new, i) :: homes⟩ id =
      if id = new then some i else home? ⟨tables, homes⟩ id := by
  rw [home?, List.lookup_cons]
  by_cases h : id = new
  · simp [h]
  · rw [beq_false_of_ne h, if_neg h]
    rfl

theorem Holds.start (h : x.Holds f) (hm : m.id ∉ idsIn f) :
    (x.start m).Holds (f ++ [new m]) where
  tables := List.rel_append h.tables (.cons (Table.holds_new m) .nil)
  homes id i := by
    have hlen := h.tables.length_eq
    have hnone := h.home?_eq_none hm
    have hhome : home? ⟨x.tables ++ [.new m], x.homes⟩ id = x.home? id := rfl
    rw [Index.start, home?_cons, hhome, hlen]
    constructor
    · split
      · rename_i hid
        rintro hi
        cases hi
        exact ⟨new m, List.getElem?_concat_length, by simp [hid]⟩
      · intro hi
        obtain ⟨c, hc, hid⟩ := (h.homes id i).mp hi
        exact ⟨c, by rw [List.getElem?_append_left (List.getElem?_eq_some_iff.mp hc).1, hc], hid⟩
    · rintro ⟨c, hc, hid⟩
      rcases Nat.lt_or_ge i f.length with hlt | hge
      · rw [List.getElem?_append_left hlt] at hc
        have hi := (h.homes id i).mpr ⟨c, hc, hid⟩
        rw [if_neg, hi]
        rintro rfl
        rw [hnone] at hi
        cases hi
      · rw [List.getElem?_append_right hge, List.getElem?_singleton] at hc
        split at hc
        · rename_i hzero
          cases hc
          rw [ids_new, List.mem_singleton] at hid
          rw [if_pos hid]
          exact congrArg some (by omega)
        · cases hc

/-- One conversation only has the identifier, so the reply is inserted there. -/
theorem Holds.insertIn_eq_set {p : Text} (h : x.Holds f) (hi : x.home? p = some i)
    (hc : f[i]? = some c) : insertIn p m f = f.set i (c.insert p m) := by
  refine List.ext_getElem? fun j => ?_
  rw [insertIn_eq_map, List.getElem?_map, List.getElem?_set]
  split
  · rename_i hij
    rw [← hij, hc, if_pos (List.getElem?_eq_some_iff.mp hc).1]
    rfl
  · rename_i hij
    cases hd : f[j]? with
    | none => rfl
    | some d =>
      have hnot : p ∉ d.ids := fun hp =>
        hij (Option.some.inj (hi.symm.trans ((h.homes p j).mpr ⟨d, hd, hp⟩)))
      rw [Option.map_some, insert_of_notMem hnot]

/-- The place of the conversation is entered for the new reply. -/
theorem Holds.attached {p : Text} {t : Table} (h : x.Holds f) (hi : x.home? p = some i)
    (hc : f[i]? = some c) (hm : m.id ∉ idsIn f) (hn : c.ids.Nodup)
    (ht : t.Holds (c.insert p m)) :
    Holds ⟨x.tables.set i t, (m.id, i) :: x.homes⟩ (insertIn p m f) := by
  obtain ⟨d, hd, hp⟩ := (h.homes p i).mp hi
  obtain rfl : d = c := Option.some.inj (hd.symm.trans hc)
  have hhome : ∀ id, home? ⟨x.tables.set i t, x.homes⟩ id = x.home? id := fun _ => rfl
  have hlt : i < f.length := (List.getElem?_eq_some_iff.mp hc).1
  rw [h.insertIn_eq_set hi hc]
  refine ⟨forall₂_set h.tables ht i, fun id j => ?_⟩
  rw [home?_cons, hhome, List.getElem?_set]
  by_cases hij : i = j
  · subst hij
    have hmem : id ∈ (d.insert p m).ids ↔ id = m.id ∨ id ∈ d.ids := mem_ids_insert hn hp
    by_cases hid : id = m.id
    · subst hid
      simp [hlt, hmem]
    · have hold : x.home? id = some i ↔ id ∈ d.ids := by
        rw [h.homes, hc]
        simp
      simp [hid, hlt, hmem, hold]
  · rw [if_neg hij, ← h.homes]
    by_cases hid : id = m.id
    · simp [hid, hij, h.home?_eq_none hm]
    · rw [if_neg hid]

theorem Holds.attach?_of_mem (h : x.Holds f) (hr : r.message.id ∉ idsIn f)
    (htarget : r.target ∈ idsIn f) :
    ∃ x' : Index, x.attach? r = some (.attached x') ∧
      x'.Holds (insertIn r.target r.message f) := by
  obtain ⟨i, hi⟩ := h.mem_idsIn_iff.mp htarget
  obtain ⟨c, hc, htarget⟩ := (h.homes r.target i).mp hi
  obtain ⟨t, ht, hold⟩ := exists_getElem?_of_forall₂ h.tables hc
  have hnew : r.message.id ∉ c.ids := fun hid =>
    hr (mem_idsIn.mpr ⟨c, List.mem_of_getElem? hc, hid⟩)
  rw [Index.attach?, hi]
  rcases hold.add? r.target r.message with ⟨-, hnone⟩ | ⟨t', d, ht', hd, hnext⟩
  · rw [add?_eq_some_iff.mpr ⟨htarget, hnew, rfl⟩] at hnone
    cases hnone
  · obtain ⟨-, -, rfl⟩ := add?_eq_some_iff.mp hd
    refine ⟨_, ?_, h.attached hi hc hr hold.nodup hnext⟩
    simp only [ht, ht']

theorem Holds.attach?_of_notMem (h : x.Holds f) (htarget : r.target ∉ idsIn f) :
    x.attach? r = some .handedBack := by
  rw [Index.attach?, h.home?_eq_none htarget]

end Index

/-! ## Sorting the messages -/

theorem foldl_sieve (s : Sieve) (ms : List Message) :
    (ms.foldl Sieve.step s).unique = s.unique ++ firstsAfter s.known ms ∧
      (ms.foldl Sieve.step s).notices =
        s.notices ++ (repeatsAfter s.known ms).map (fun m => .duplicateIgnored m.id) ∧
      ∀ id, id ∈ (ms.foldl Sieve.step s).known ↔ id ∈ s.known ∨ id ∈ ms.map Message.id := by
  induction ms generalizing s with
  | nil => simp [firstsAfter, repeatsAfter]
  | cons m ms ih =>
    obtain ⟨hunique, hnotices, hknown⟩ := ih (s.step m)
    rw [List.foldl_cons, hunique, hnotices, firstsAfter, repeatsAfter]
    simp only [hknown, List.map_cons, List.mem_cons]
    by_cases hm : m.id ∈ s.known
    · simp only [Sieve.step, if_pos hm, List.map_cons, List.append_assoc, List.singleton_append,
        true_and]
      intro id
      by_cases hid : id = m.id
      · simp [hid, hm]
      · simp [hid]
    · simp only [Sieve.step, if_neg hm, List.append_assoc, List.singleton_append, List.mem_cons,
        true_and]
      intro id
      rw [or_assoc, or_left_comm]

theorem foldl_planting {p : Planting} {f : List Conversation} {ms : List Message}
    (h : p.index.Holds f) (hn : (idsIn f ++ ms.map Message.id).Nodup) :
    (ms.foldl Planting.step p).replies = p.replies ++ replies ms ∧
      (ms.foldl Planting.step p).index.Holds (f ++ seedlings ms) := by
  induction ms generalizing p f with
  | nil => simpa [replies, seedlings, roots] using h
  | cons m ms ih =>
    rw [List.foldl_cons, Planting.step]
    rw [List.map_cons] at hn
    cases hm : m.inReplyTo? with
    | some target =>
      have hreplies : replies (m :: ms) = ⟨target, m⟩ :: replies ms := by
        simp [replies, Reply.ofMessage?, hm]
      have hroots : seedlings (m :: ms) = seedlings ms := by simp [seedlings, roots, hm]
      have hrest := hn.sublist ((List.sublist_cons_self m.id _).append_left _)
      rw [hreplies, hroots, List.append_cons]
      exact ih (p := { p with replies := p.replies ++ [⟨target, m⟩] }) h hrest
    | none =>
      have hreplies : replies (m :: ms) = replies ms := by
        simp [replies, Reply.ofMessage?, hm]
      have hroots : seedlings (m :: ms) = new m :: seedlings ms := by
        simp [seedlings, roots, hm]
      have hids : idsIn (f ++ [new m]) = idsIn f ++ [m.id] := by
        simp [idsIn, messagesIn_append, messagesIn]
      have hnew : m.id ∉ idsIn f := fun hid =>
        (List.nodup_append.mp hn).2.2 m.id hid m.id List.mem_cons_self rfl
      rw [hreplies, hroots, List.append_cons]
      rw [List.append_cons, ← hids] at hn
      exact ih (p := { p with index := p.index.start m }) (h.start hnew) hn

/-! ## Attaching the replies -/

namespace Builder

variable {b : Builder} {f g : List Conversation} {rs ps ws : List Reply}

/-- The first reply of a pass is attached or pending as it is placed or has to wait. -/
theorem attach?_of_tries {r : Reply} (ht : Tries f (r :: rs) ps ws g) (h : b.index.Holds f) :
    ∃ (index : Index) (pending : List Reply) (f' : List Conversation) (ps' ws' : List Reply),
      b.attach? r = some { b with index, pending } ∧ index.Holds f' ∧ Tries f' rs ps' ws' g ∧
        pending ++ ws' = b.pending ++ ws := by
  cases ht with
  | placed known fresh rest =>
    obtain ⟨x, hx, hold⟩ := h.attach?_of_mem fresh known
    exact ⟨x, b.pending, _, _, _, by rw [attach?, hx], hold, rest, rfl⟩
  | waiting unknown rest =>
    refine ⟨b.index, b.pending ++ [r], f, _, _, ?_, h, rest, (List.append_cons _ _ _).symm⟩
    rw [attach?, h.attach?_of_notMem unknown]

/-- The replies that a pass places are attached, and those that have to wait are pending. -/
theorem foldlM_attach? (ht : Tries f rs ps ws g) (h : b.index.Holds f) :
    ∃ index : Index, index.Holds g ∧
      rs.foldlM attach? b = some { b with index, pending := b.pending ++ ws } := by
  induction rs generalizing b f ps ws with
  | nil =>
    cases ht
    exact ⟨b.index, h, by simp⟩
  | cons r rs ih =>
    obtain ⟨x, pending, f', ps', ws', hr, hx, hrest, hpending⟩ := attach?_of_tries ht h
    obtain ⟨index, hindex, hrs⟩ := ih (b := { b with index := x, pending }) hrest hx
    refine ⟨index, hindex, ?_⟩
    rw [List.foldlM_cons, hr, ← hpending]
    exact hrs

/-- The same where the replies to an identifier that is not known are given up at once. -/
theorem foldlM_attachKnown? (known : List Text)
    (ht : Tries f (rs.filter (decide <| ·.target ∈ known)) ps ws g) (h : b.index.Holds f) :
    ∃ index : Index, index.Holds g ∧
      rs.foldlM (attachKnown? known) b = some
        { index
          pending := b.pending ++ ws
          events := b.events ++ (rs.filter (decide <| ·.target ∉ known)).map
            (·.unresolved .missingParent)
          notices := b.notices ++ (rs.filter (decide <| ·.target ∉ known)).map
            fun r => .parentMissing r.message.id r.target } := by
  induction rs generalizing b f ps ws with
  | nil =>
    cases ht
    exact ⟨b.index, h, by simp⟩
  | cons r rs ih =>
    rw [List.foldlM_cons, attachKnown?]
    by_cases hr : r.target ∈ known
    · rw [List.filter_cons_of_pos (by simpa using hr)] at ht
      rw [if_pos hr, List.filter_cons_of_neg (by simpa using hr)]
      obtain ⟨x, pending, f', ps', ws', hstep, hx, hrest, hpending⟩ := attach?_of_tries ht h
      obtain ⟨index, hindex, hrs⟩ := ih (b := { b with index := x, pending }) hrest hx
      refine ⟨index, hindex, ?_⟩
      rw [hstep, ← hpending]
      exact hrs
    · rw [List.filter_cons_of_neg (by simpa using hr)] at ht
      rw [if_neg hr, List.filter_cons_of_pos (by simpa using hr)]
      obtain ⟨index, hindex, hrs⟩ := ih (b := { b with
        events := b.events ++ [r.unresolved .missingParent]
        notices := b.notices ++ [.parentMissing r.message.id r.target] }) ht h
      exact ⟨index, hindex, hrs.trans (by simp)⟩

theorem settle?_eq {next : Builder} (n : Nat)
    (h : b.pending.foldlM attach? { b with pending := [] } = some next) :
    b.settle? n =
      if next.pending.length = b.pending.length then
        some { next with notices := next.notices ++ [.fixedPointReached (n + 1)] }
      else next.settle? (n + 1) := by
  rw [settle?]
  split
  · rename_i hnone
    rw [h] at hnone
    cases hnone
  · rename_i hnext
    rw [h] at hnext
    cases hnext
    rfl

/-- The passes over the pending replies come to the same end, after as many of them. -/
theorem settle?_simulates (n : Nat) (hf : Fresh f b.pending) (h : b.index.Holds f) :
    ∃ index : Index, index.Holds (settle n [] f b.pending).forest ∧
      b.settle? n = some { b with
        index
        pending := (settle n [] f b.pending).waiting
        notices := b.notices ++ [.fixedPointReached (settle n [] f b.pending).passes] } := by
  induction hlen : b.pending.length using Nat.strongRecOn generalizing n b f with
  | ind k ih =>
    obtain ⟨ps, ht, href⟩ := pass_tries hf
    obtain ⟨x, hx, hpass⟩ := foldlM_attach? (b := { b with pending := [] }) ht h
    rw [settle?_eq n hpass, settle]
    simp only [href, List.nil_append]
    by_cases hstop : (pass f b.pending).waiting.length = b.pending.length
    · rw [dif_pos hstop, if_pos hstop]
      exact ⟨x, hx, rfl⟩
    · have hlt : (pass f b.pending).waiting.length < k :=
        hlen ▸ Nat.lt_of_le_of_ne ht.waiting_sublist.length_le hstop
      rw [dif_neg hstop, if_neg hstop]
      exact ih _ hlt (n + 1) (b := { b with index := x, pending := (pass f b.pending).waiting })
        (hf.waiting ht) hx rfl

/-- The run up to the first pass. -/
theorem exists_first_pass (ms : List Message) :
    let own := firsts ms
    let sieve := ms.foldl Sieve.step {}
    let planting := sieve.unique.foldl Planting.step {}
    ∃ b : Builder, planting.replies.foldlM (attachKnown? sieve.known)
        { index := planting.index, notices := sieve.notices } = some b ∧
      b.index.Holds (pass (seedlings own) (aimed own)).forest ∧
      b.pending = (pass (seedlings own) (aimed own)).waiting ∧
      b.events = ((replies own).filter (!isAimed own ·)).map (·.unresolved .missingParent) ∧
      b.notices = (repeats ms).map (fun m => .duplicateIgnored m.id) ++
        ((replies own).filter (!isAimed own ·)).map
          fun r => .parentMissing r.message.id r.target := by
  intro own sieve planting
  obtain ⟨hunique, hnotices, hknown⟩ := foldl_sieve {} ms
  have hids : (idsIn [] ++ own.map Message.id).Nodup := nodup_ids_firsts ms
  obtain ⟨hreplies, hindex⟩ := foldl_planting (p := {}) Index.holds_nil hids
  have haimed : ∀ r : Reply, decide (r.target ∈ sieve.known) = isAimed own r := by
    intro r
    rw [isAimed_firsts]
    exact decide_eq_decide.mpr ((hknown r.target).trans (by simp))
  have hplanting : planting = own.foldl Planting.step {} :=
    congrArg (List.foldl Planting.step {}) hunique
  have hknown : (replies own).filter (decide <| ·.target ∈ sieve.known) = aimed own :=
    List.filter_congr fun r _ => haimed r
  have hunknown : (replies own).filter (decide <| ·.target ∉ sieve.known) =
      (replies own).filter (!isAimed own ·) :=
    List.filter_congr fun r _ => by rw [decide_not, haimed]
  obtain ⟨ps, ht, -⟩ := pass_tries (fresh_seedlings (nodup_ids_firsts ms))
  rw [hplanting, hreplies, List.nil_append]
  obtain ⟨x, hx, hrun⟩ := foldlM_attachKnown? sieve.known
    (b := { index := (own.foldl Planting.step {}).index, notices := sieve.notices })
    (by rw [hknown]; exact ht) hindex
  refine ⟨_, hrun, hx, List.nil_append _, ?_, ?_⟩
  · rw [hunknown]
    exact List.nil_append _
  · rw [hunknown]
    exact congrArg (· ++ _) hnotices

/-- **The register finds what the search finds.** With a register of the conversation that each
identifier is in, threading comes to tables that hold the conversations, to the same events in the
same order, and to the same notices. -/
theorem run?_simulates (resolution : Resolution) (ms : List Message) :
    ∃ b : Builder, run? resolution ms = some b ∧
      b.index.Holds (build resolution ms).conversations ∧
      List.Forall₂ Views b.index.tables (build resolution ms).conversations ∧
      b.pending = [] ∧
      b.events = (build resolution ms).unresolved ∧
      b.notices = (build resolution ms).notices true := by
  obtain ⟨b, hrun, hindex, hpending, hevents, hnotices⟩ := exists_first_pass ms
  have hfresh := fresh_seedlings (nodup_ids_firsts ms)
  obtain ⟨ps, ht, href⟩ := pass_tries hfresh
  rw [run?]
  simp only [hrun]
  cases resolution with
  | singlePass =>
    have hrefused : (build .singlePass ms).refused = [] := href
    refine ⟨_, rfl, hindex, hindex.tables.imp fun _ _ h => h.views, rfl, ?_, ?_⟩
    · rw [giveUp, hevents, hpending]
      rfl
    · rw [giveUp, hnotices, hpending, Outcome.notices, hrefused]
      simp [build, seedlings, aimed]
  | fixedPoint =>
    obtain ⟨x, hx, hsettle⟩ :=
      settle?_simulates 1 (b := b) (by rw [hpending]; exact hfresh.waiting ht) hindex
    rw [hpending] at hx hsettle
    have hrefused := (settle_passes 1 [] (hfresh.waiting ht)).2.2
    have hbuild : build .fixedPoint ms =
        let s := settle 1 [] (pass (seedlings (firsts ms)) (aimed (firsts ms))).forest
          (pass (seedlings (firsts ms)) (aimed (firsts ms))).waiting
        ⟨s.forest, (replies (firsts ms)).filter (!isAimed (firsts ms) ·), s.waiting, repeats ms,
          s.refused, some s.passes⟩ := by
      rw [← href]
      rfl
    rw [hsettle, hbuild]
    refine ⟨_, rfl, hx, hx.tables.imp fun _ _ h => h.views, rfl, ?_, ?_⟩
    · rw [giveUp, hevents]
      rfl
    · rw [giveUp, hnotices, Outcome.notices]
      simp [hrefused]

end Builder
end Threading
end MailArchive
