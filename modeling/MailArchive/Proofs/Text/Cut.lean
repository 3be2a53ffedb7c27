import MailArchive.Text.Basic

/-!
# MailArchive.Proofs.Text.Cut

Cutting at a separator. `cut?_eq_cons` unfolds a cut by one character. A cut fails exactly if the
separator is nowhere in the text (`cut?_eq_none_iff`), and it is made at the first occurrence
(`cut?_append_append`). What cannot lie across a character that is not in it is found on one side of
that character (`infix_append_cons_iff`). Joining is the inverse (`join_cons_cons`).
-/

namespace MailArchive
namespace Text

variable {separator before after t : Text} {c : Char}

/-! ## Beginnings -/

theorem strip?_eq_none_iff {start : Text} : strip? start t = none ↔ ¬ start <+: t := by
  rw [← Option.not_isSome_iff_eq_none, Option.isSome_iff_exists]
  simp only [strip?_eq_some_iff]
  constructor
  · rintro h ⟨rest, rfl⟩
    exact h ⟨rest, rfl⟩
  · rintro h ⟨rest, rfl⟩
    exact h ⟨rest, rfl⟩

theorem startsWith_iff {start : Text} : startsWith start t = true ↔ start <+: t := by
  rw [startsWith, Option.isSome_iff_ne_none, ne_eq, strip?_eq_none_iff, Classical.not_not]

/-! ## First occurrences -/

theorem cutAfter_eq_map (passed : Text) :
    cutAfter separator passed t =
      (cut? separator t).map fun p => (passed.reverse ++ p.1, p.2) := by
  induction t generalizing passed with
  | nil =>
    unfold cut? cutAfter
    split <;> simp
  | cons c t ih =>
    unfold cut? cutAfter
    split
    · simp
    · show cutAfter separator (c :: passed) t = (cutAfter separator [c] t).map _
      rw [ih, ih]
      cases cut? separator t <;> simp

theorem cut?_of_strip? {rest : Text} (h : strip? separator t = some rest) :
    cut? separator t = some ([], rest) := by
  unfold cut? cutAfter
  simp [h]

theorem cut?_eq_cons (h : strip? separator (c :: t) = none) :
    cut? separator (c :: t) = (cut? separator t).map fun p => (c :: p.1, p.2) := by
  rw [cut?, cutAfter, h]
  exact cutAfter_eq_map [c]

theorem cut?_eq_none_iff (hs : separator ≠ []) :
    cut? separator t = none ↔ ¬ separator <:+: t := by
  induction t with
  | nil =>
    cases separator with
    | nil => exact absurd rfl hs
    | cons s separator => simp [cut?, cutAfter, strip?]
  | cons c t ih =>
    cases h : strip? separator (c :: t) with
    | some rest =>
      rw [cut?_of_strip? h, strip?_eq_some_iff.mp h]
      simp [List.infix_append_left]
    | none =>
      rw [cut?_eq_cons h, Option.map_eq_none_iff, ih, List.infix_cons_iff, not_or]
      exact ⟨fun hn => ⟨strip?_eq_none_iff.mp h, hn⟩, And.right⟩

/-- A cut is made at the first place where the separator can begin. -/
theorem cut?_append_append (h : c ∉ before) :
    cut? (c :: separator) (before ++ (c :: separator ++ after)) = some (before, after) := by
  induction before with
  | nil => exact cut?_of_strip? (strip?_append _ _)
  | cons d before ih =>
    rw [List.mem_cons, not_or] at h
    rw [List.cons_append, cut?_eq_cons, ih h.2]
    · rfl
    · simp [strip?, h.1]

theorem cut?_singleton (h : c ∉ before) : cut? [c] (before ++ c :: after) = some (before, after) :=
  cut?_append_append h

/-- A cut at a character is made at its first occurrence. -/
theorem notMem_of_cut? (h : cut? [c] t = some (before, after)) : c ∉ before := by
  intro hmem
  obtain ⟨x, y, rfl, hx⟩ := List.eq_append_cons_of_mem hmem
  have ht : t = x ++ c :: (y ++ c :: after) := by
    rw [cut?_append h]
    simp
  rw [ht, cut?_singleton hx, Option.some.injEq, Prod.mk.injEq] at h
  exact absurd h.1.symm (by simp)

/-! ## Last occurrences -/

theorem of_cutLast? (h : cutLast? c t = some (before, after)) : t = before ++ c :: after := by
  have hsplit := List.takeWhile_append_dropWhile (p := (· != c)) (l := t.reverse)
  unfold cutLast? at h
  split at h
  · cases h
  · rename_i d rest hd
    have hhead := List.head?_dropWhile_not (· != c) t.reverse
    rw [hd] at hhead
    obtain rfl : d = c := by simpa using hhead
    obtain ⟨rfl, rfl⟩ := Prod.mk.inj (Option.some.inj h)
    have ht := congrArg List.reverse hsplit
    rw [List.reverse_reverse, hd, List.reverse_append, List.reverse_cons] at ht
    rw [List.append_assoc] at ht
    exact ht.symm

theorem cutLast?_append (h : c ∉ after) :
    cutLast? c (before ++ c :: after) = some (before, after) := by
  have hne : ∀ d ∈ after.reverse, (d != c) = true := by
    intro d hd
    rw [bne_iff_ne]
    rintro rfl
    exact h (List.mem_reverse.mp hd)
  unfold cutLast?
  rw [List.reverse_append, List.reverse_cons, List.append_assoc,
    List.dropWhile_append_of_pos hne, List.takeWhile_append_of_pos hne]
  simp

theorem exists_last (h : c ∈ t) : ∃ before after, t = before ++ c :: after ∧ c ∉ after := by
  obtain ⟨x, y, hxy, hx⟩ := List.eq_append_cons_of_mem (List.mem_reverse.mpr h)
  refine ⟨y.reverse, x.reverse, ?_, by simpa using hx⟩
  rw [← List.reverse_reverse t, hxy]
  simp

theorem cutLast?_eq_none_iff : cutLast? c t = none ↔ c ∉ t := by
  constructor
  · intro h hmem
    obtain ⟨before, after, rfl, hafter⟩ := exists_last hmem
    rw [cutLast?_append hafter] at h
    cases h
  · intro h
    rw [Option.eq_none_iff_forall_ne_some]
    rintro ⟨before, after⟩ hsome
    rw [of_cutLast? hsome] at h
    simp at h

/-- A cut at the last occurrence of a character leaves none behind it. -/
theorem notMem_of_cutLast? (h : cutLast? c t = some (before, after)) : c ∉ after := by
  have hmem : c ∈ t := by
    rw [of_cutLast? h]
    simp
  obtain ⟨x, y, rfl, hy⟩ := exists_last hmem
  rw [cutLast?_append hy] at h
  obtain ⟨rfl, rfl⟩ := Prod.mk.inj (Option.some.inj h)
  exact hy

/-! ## Seams -/

/-- What does not have a character in it does not lie across that character. -/
theorem infix_append_cons_iff {w : Text} (h : c ∉ w) :
    w <:+: before ++ c :: after ↔ w <:+: before ∨ w <:+: after := by
  constructor
  · rintro ⟨x, y, hxy⟩
    rw [List.append_assoc, List.append_eq_append_iff] at hxy
    rcases hxy with ⟨u, rfl, hu⟩ | ⟨u, rfl, hu⟩
    · rw [List.append_eq_append_iff] at hu
      rcases hu with ⟨v, rfl, _⟩ | ⟨v, rfl, hv⟩
      · exact .inl ⟨x, v, by simp⟩
      · cases v with
        | nil => exact .inl ⟨x, [], by simp⟩
        | cons d v =>
          obtain ⟨rfl, _⟩ := List.cons.inj hv
          exact absurd (by simp) h
    · cases u with
      | nil =>
        cases w with
        | nil => exact .inr List.nil_infix
        | cons d w =>
          obtain ⟨rfl, _⟩ := List.cons.inj hu
          exact absurd List.mem_cons_self h
      | cons d u =>
        obtain ⟨rfl, rfl⟩ := List.cons.inj hu
        exact .inr ⟨u, y, by simp⟩
  · rintro (h | h)
    · exact List.infix_append_of_infix_left h
    · exact List.infix_append_of_infix_right (List.infix_cons h)

/-- What does not have a character in it is at the front of a text if it is so before that
character. -/
theorem prefix_append_cons_iff {w : Text} (h : c ∉ w) :
    w <+: before ++ c :: after ↔ w <+: before := by
  constructor
  · intro hw
    have hall : before <+: before ++ c :: after := List.prefix_append before (c :: after)
    rcases List.prefix_or_prefix_of_prefix hw hall with hp | ⟨u, hu⟩
    · exact hp
    · cases u with
      | nil => exact ⟨[], by rw [← hu, List.append_nil, List.append_nil]⟩
      | cons d u =>
        rw [← hu, List.prefix_append_right_inj, List.cons_prefix_cons] at hw
        rw [← hu, hw.1] at h
        simp at h
  · exact fun hw => hw.trans (List.prefix_append _ _)

/-! ## Joining -/

theorem join_singleton (separator t : Text) : join separator [t] = t := by
  rw [join, List.intercalate_singleton]

theorem join_cons_cons (separator t u : Text) (ts : List Text) :
    join separator (t :: u :: ts) = t ++ (separator ++ join separator (u :: ts)) := by
  rw [join, List.intercalate_cons_cons, List.append_assoc, ← join]

theorem join_cons (separator t : Text) (ts : List Text) :
    join separator (t :: ts) = t ++ ts.flatMap (separator ++ ·) := by
  induction ts generalizing t with
  | nil => rw [join_singleton, List.flatMap_nil, List.append_nil]
  | cons u ts ih => rw [join_cons_cons, ih, List.flatMap_cons, List.append_assoc]

/-- What is joined first is joined with the rest like any other text. -/
theorem join_append (separator t : Text) (ts us : List Text) :
    join separator (t :: (ts ++ us)) = join separator (join separator (t :: ts) :: us) := by
  rw [join_cons, join_cons, join_cons, List.flatMap_append, List.append_assoc]

/-- What is joined in between is seen. -/
theorem join_append_eq_iff {ts us : List Text} (hs : separator ≠ []) :
    join separator (t :: (ts ++ us)) = join separator (t :: us) ↔ ts = [] := by
  rw [join_cons, join_cons, List.flatMap_append, List.append_right_inj, List.append_left_eq_self]
  cases ts <;> simp [hs]

/-- A property is kept by joining if it is kept when the separator is put between two texts. -/
theorem join_of_forall {P : Text → Prop} {ts : List Text} (hne : ts ≠ []) (h : ∀ t ∈ ts, P t)
    (hbetween : ∀ t u, P t → P u → P (t ++ (separator ++ u))) : P (join separator ts) := by
  induction ts with
  | nil => exact absurd rfl hne
  | cons t ts ih =>
    have ht := h t List.mem_cons_self
    cases ts with
    | nil =>
      rw [join_singleton]
      exact ht
    | cons u us =>
      rw [join_cons_cons]
      exact hbetween t _ ht (ih (by simp) fun x hx => h x (List.mem_cons_of_mem _ hx))

end Text
end MailArchive
