import MailArchive.Proofs.Address.RoundTrip

/-!
# MailArchive.Proofs.Address.Parsed

What is known of every address that was read, whatever text it was read from. There is nothing in
it but what was in the text and an at sign (`parse_subset`): trimming, cutting and taking quotes off
leave characters out, and an at sign is put in where it was spelled out (`plain_cases`). Its mailbox
is trimmed, is not spelled out any more and has no angle brackets that would be taken for those
around it (`settled_parse`), so when the address is written and read again only blanks around its
name are lost (`parse_toHeader_parse`).
-/

namespace MailArchive
namespace Address

open Text

variable {t name mailbox : Text}

/-! ## Mailboxes -/

theorem plain_cases (t : Text) : plain t = t ∨
    ∃ l d, t = l ++ (atWord ++ d) ∧ trim l ≠ [] ∧ trim d ≠ [] ∧
      plain t = trim l ++ '@' :: trim d := by
  unfold plain
  split
  · exact .inl rfl
  split
  · exact .inl rfl
  · rename_i l d h
    simp only
    split
    · exact .inl rfl
    · rename_i hparts
      simp only [Bool.or_eq_true, not_or, List.isEmpty_iff] at hparts
      refine .inr ⟨l, d, ?_, hparts.1.1, hparts.1.2, rfl⟩
      rw [cut?_append h, List.append_assoc]

theorem plain_subset (t : Text) : plain t ⊆ '@' :: t := by
  rcases plain_cases t with h | ⟨l, d, ht, _, _, h⟩
  · rw [h]
    exact List.subset_cons_self _ _
  · intro c hc
    rw [h, List.mem_append, List.mem_cons] at hc
    rw [ht]
    rcases hc with hc | rfl | hc
    · have hl := (trim_isInfix l).subset hc
      simp [hl]
    · exact List.mem_cons_self
    · have hd := (trim_isInfix d).subset hc
      simp [hd]

theorem plain_plain (t : Text) : plain (plain t) = plain t := by
  rcases plain_cases t with h | ⟨l, d, _, _, _, h⟩
  · rw [h, h]
  · rw [h]
    exact plain_eq_self (.inl (by simp))

theorem trim_plain (h : trim t = t) : trim (plain t) = plain t := by
  rcases plain_cases t with heq | ⟨l, d, _, hl, hd, heq⟩
  · rw [heq, h]
  · rw [heq]
    exact trim_append_append ⟨trim_trim l, hl⟩ ⟨trim_trim d, hd⟩ ['@']

/-! ## Angle brackets -/

theorem of_angled? (h : angled? t = some (name, mailbox)) :
    ∃ rest, t = name ++ '<' :: (mailbox ++ '>' :: rest) ∧ '<' ∉ mailbox := by
  unfold angled? at h
  split at h
  · cases h
  · rename_i before after hlt
    obtain ⟨⟨inner, rest⟩, hgt, heq⟩ := Option.map_eq_some_iff.mp h
    cases heq
    have hafter := of_cutLast? hgt
    refine ⟨rest, by rw [of_cutLast? hlt, hafter], fun hmem => notMem_of_cutLast? hlt ?_⟩
    rw [hafter]
    exact List.mem_append_left _ hmem

/-- The angle brackets of a text, without what stands between them. -/
def angles (t : Text) : Text := t.filter fun c => c == '<' || c == '>'

theorem mem_angles {c : Char} : c ∈ angles t ↔ c ∈ t ∧ (c = '<' ∨ c = '>') := by
  rw [angles, List.mem_filter, Bool.or_eq_true, beq_iff_eq, beq_iff_eq]

theorem angles_append (t u : Text) : angles (t ++ u) = angles t ++ angles u := List.filter_append ..

theorem angles_trim (t : Text) : angles (trim t) = angles t := by
  refine filter_trim (fun c hc => ?_) t
  rw [Bool.or_eq_true, beq_iff_eq, beq_iff_eq] at hc
  rcases hc with rfl | rfl
  · rfl
  · rfl

theorem angles_plain (t : Text) : angles (plain t) = angles t := by
  rcases plain_cases t with h | ⟨l, d, ht, _, _, h⟩
  · rw [h]
  · have hat : angles ('@' :: trim d) = angles (atWord ++ d) := by
      show angles (trim d) = angles d
      exact angles_trim d
    rw [h, ht, angles_append, angles_append, angles_trim, hat]

/-- Whether something stands in angle brackets can be seen from the angle brackets alone. -/
theorem angled?_eq_none_iff :
    angled? t = none ↔ '<' ∉ angles t ∨ (angles t).getLast? = some '<' := by
  by_cases hlt : '<' ∈ t
  · obtain ⟨before, after, rfl, hafter⟩ := exists_last hlt
    have hmem : '<' ∈ angles (before ++ '<' :: after) := mem_angles.mpr ⟨hlt, .inl rfl⟩
    have hnone : angled? (before ++ '<' :: after) = none ↔ '>' ∉ after := by
      rw [angled?, cutLast?_append hafter]
      exact Option.map_eq_none_iff.trans cutLast?_eq_none_iff
    have hlast : (angles (before ++ '<' :: after)).getLast? =
        some ((angles after).getLast?.getD '<') := by
      have hangles : angles (before ++ '<' :: after) = angles before ++ '<' :: angles after :=
        angles_append _ _
      rw [hangles, List.getLast?_append, List.getLast?_cons]
      rfl
    rw [hnone, or_iff_right (not_not_intro hmem), hlast, Option.some.injEq]
    constructor
    · intro hgt
      have hnil : angles after = [] := by
        refine List.eq_nil_iff_forall_not_mem.mpr fun c hc => ?_
        obtain ⟨hc, rfl | rfl⟩ := mem_angles.mp hc
        · exact hafter hc
        · exact hgt hc
      rw [hnil]
      rfl
    · intro hopen hgt
      have hgt := mem_angles.mpr ⟨hgt, .inr rfl⟩
      rw [List.getLast?_eq_some_getLast (List.ne_nil_of_mem hgt), Option.getD_some] at hopen
      have hin := List.getLast_mem (List.ne_nil_of_mem hgt)
      rw [hopen] at hin
      exact hafter (mem_angles.mp hin).1
  · have hout : '<' ∉ angles t := fun h => hlt (mem_angles.mp h).1
    rw [angled?_of_notMem hlt]
    exact ⟨fun _ => .inl hout, fun _ => rfl⟩

theorem angled?_plain (h : angled? t = none) : angled? (plain t) = none := by
  rw [angled?_eq_none_iff] at h ⊢
  rwa [angles_plain]

/-! ## Addresses -/

theorem unescape_subset (t : Text) : unescape t ⊆ t := by
  induction t using unescape.induct with
  | case1 => simp [unescape]
  | case2 => simp [unescape]
  | case3 c t ih =>
    rw [unescape]
    exact List.Subset.trans (List.cons_subset_cons _ ih) (List.subset_cons_self _ _)
  | case4 c t h₁ h₂ ih =>
    rw [unescape]
    · exact List.cons_subset_cons _ ih
    · exact h₁
    · exact h₂

theorem unquote_subset (t : Text) : unquote t ⊆ t := by
  unfold unquote
  simp only
  split
  · rename_i inner h
    unfold quoted? at h
    split at h
    · rename_i u hu
      split at h
      · cases h
        have hinner : u.dropLast ⊆ t := fun c hc =>
          (trim_isInfix t).subset (hu ▸ List.mem_cons_of_mem _ (List.dropLast_subset _ hc))
        exact List.Subset.trans (unescape_subset _)
          (List.Subset.trans (trim_isInfix _).subset hinner)
      · cases h
    · cases h
  · exact (trim_isInfix t).subset

theorem parse_subset (t : Text) : (parse t).name ⊆ t ∧ (parse t).mailbox ⊆ '@' :: t := by
  have htrim : trim t ⊆ t := (trim_isInfix t).subset
  unfold parse
  simp only
  split
  · rename_i name mailbox h
    obtain ⟨rest, hparts, _⟩ := of_angled? h
    have hname : name ⊆ t := fun c hc => htrim (by rw [hparts]; simp [hc])
    have hmailbox : mailbox ⊆ t := fun c hc => htrim (by rw [hparts]; simp [hc])
    refine ⟨List.Subset.trans (unquote_subset _) hname, ?_⟩
    exact List.Subset.trans (plain_subset _)
      (List.cons_subset_cons _ (List.Subset.trans (trim_isInfix _).subset hmailbox))
  · exact ⟨List.nil_subset _,
      List.Subset.trans (plain_subset _) (List.cons_subset_cons _ htrim)⟩

theorem lf_notMem_parse (h : '\n' ∉ t) : '\n' ∉ (parse t).name ∧ '\n' ∉ (parse t).mailbox := by
  obtain ⟨hname, hmailbox⟩ := parse_subset t
  refine ⟨fun hlf => h (hname hlf), fun hlf => ?_⟩
  rcases List.mem_cons.mp (hmailbox hlf) with heq | hmem
  · cases heq
  · exact h hmem

/-- What is read as a mailbox is read as the same mailbox again. -/
theorem settled_parse (t : Text) : (parse t).Settled := by
  unfold parse
  simp only
  split
  · rename_i name mailbox h
    obtain ⟨_, _, hlt⟩ := of_angled? h
    have hplain : '<' ∉ plain (trim mailbox) := by
      intro hmem
      rcases List.mem_cons.mp (plain_subset _ hmem) with heq | hmem
      · cases heq
      · exact hlt ((trim_isInfix mailbox).subset hmem)
    exact {
      trimmed := trim_plain (trim_trim mailbox)
      plain := plain_plain _
      bare := fun _ => angled?_of_notMem hplain
      bracketed := fun _ => hplain }
  · rename_i h
    exact {
      trimmed := trim_plain (trim_trim t)
      plain := plain_plain _
      bare := fun _ => angled?_plain h
      bracketed := fun hne => absurd rfl hne }

/-- **An address that was read is had back from its header form** but for blanks around its name,
whatever text it was read from. So writing and reading it once more changes nothing. -/
theorem parse_toHeader_parse (t : Text) :
    parse (parse t).toHeader = ⟨trim (parse t).name, (parse t).mailbox⟩ ∧
      parse (parse (parse t).toHeader).toHeader = parse (parse t).toHeader := by
  have hread : ∀ u, parse (parse u).toHeader = ⟨trim (parse u).name, (parse u).mailbox⟩ := fun u =>
    (settled_parse u).parse_toHeader
  refine ⟨hread t, ?_⟩
  rw [hread (parse t).toHeader, hread t, trim_trim]

/-- A blank that was escaped is there after the first reading only. -/
example : parse "\"\\ a\\\" <b at c>".toList = ⟨" a".toList, "b@c".toList⟩ ∧
    parse (parse "\"\\ a\\\" <b at c>".toList).toHeader = ⟨"a".toList, "b@c".toList⟩ := by
  decide

/-! ## Lists -/

theorem pieces_subset (p : Place) (t : Text) : ∀ piece ∈ pieces p t, piece ⊆ t := by
  induction t generalizing p with
  | nil => simp [pieces]
  | cons c t ih =>
    rw [pieces]
    split
    · intro piece hpiece
      rcases List.mem_cons.mp hpiece with rfl | hpiece
      · exact List.nil_subset _
      · exact List.Subset.trans (ih _ piece hpiece) (List.subset_cons_self _ _)
    · rename_i next _
      have hnext := ih next
      split
      · simp
      · rename_i first rest hrest
        rw [hrest] at hnext
        obtain ⟨hfirst, hothers⟩ := List.forall_mem_cons.mp hnext
        refine List.forall_mem_cons.mpr ⟨List.cons_subset_cons _ hfirst, fun piece hpiece => ?_⟩
        exact List.Subset.trans (hothers piece hpiece) (List.subset_cons_self _ _)

theorem mailbox_ne_of_mem_parseList {a : Address} (h : a ∈ parseList t) : a.mailbox ≠ [] := by
  simpa using (List.mem_filter.mp h).2

theorem lf_notMem_parseList (h : '\n' ∉ t) :
    ∀ a ∈ parseList t, '\n' ∉ a.name ∧ '\n' ∉ a.mailbox := by
  intro a ha
  obtain ⟨piece, hpiece, rfl⟩ := List.mem_map.mp (List.mem_filter.mp ha).1
  exact lf_notMem_parse fun hlf => h (pieces_subset _ _ piece hpiece hlf)

end Address
end MailArchive
