import MailArchive.Text.Line

/-!
# MailArchive.Proofs.Text.Lines

Lines. A text is its first line and the rest, or a single line without a line feed; `lineInduction`
is the induction that goes with it, and `lines_append_lf` and `lines_of_notMem` say what the lines
are in the two cases. The lines of two texts one after the other are those of the first and those of
the second if the last line of the first is ended (`lines_append`). What a line without its
terminator is depends on a carriage return at its end alone (`dropTerminator_append_lf`). A line is
blank if it is a terminator and nothing else (`isBlankLine_iff`).
-/

namespace MailArchive
namespace Text

variable {a t : Text}

/-! ## The lines of a text -/

/-- Induction on the lines of a text. -/
@[elab_as_elim]
theorem lineInduction {motive : Text → Prop} (last : ∀ a, '\n' ∉ a → motive a)
    (line : ∀ a t, '\n' ∉ a → motive t → motive (a ++ '\n' :: t)) (t : Text) : motive t := by
  induction hn : t.length using Nat.strongRecOn generalizing t with
  | ind n ih =>
    by_cases h : '\n' ∈ t
    · obtain ⟨a, rest, rfl, ha⟩ := List.eq_append_cons_of_mem h
      refine line a rest ha (ih _ ?_ rest rfl)
      rw [← hn, List.length_append, List.length_cons]
      omega
    · exact last t h

theorem lines_of_notMem (h : '\n' ∉ a) (hne : a ≠ []) : lines a = [a] := by
  induction a with
  | nil => exact absurd rfl hne
  | cons c a ih =>
    rw [List.mem_cons, not_or] at h
    rw [lines_cons]
    cases a with
    | nil => simp [consLine, Ne.symm h.1]
    | cons d a =>
      rw [ih h.2 (by simp)]
      simp [consLine, Ne.symm h.1]

theorem lines_append_lf (h : '\n' ∉ a) : lines (a ++ '\n' :: t) = (a ++ ['\n']) :: lines t := by
  induction a with
  | nil => simp [lines_cons, consLine]
  | cons c a ih =>
    rw [List.mem_cons, not_or] at h
    rw [List.cons_append, lines_cons, ih h.2, consLine, if_neg (Ne.symm h.1)]
    rfl

theorem lines_append_singleton (h : '\n' ∉ a) (c : Char) : lines (a ++ [c]) = [a ++ [c]] := by
  by_cases hc : c = '\n'
  · subst hc
    exact lines_append_lf h
  · exact lines_of_notMem (by simp [h, Ne.symm hc]) (by simp)

/-- Whether the last line of a text, if there is one, is ended by a line feed. -/
def Closed (t : Text) : Prop := ∀ c ∈ t.getLast?, c = '\n'

instance (t : Text) : Decidable (Closed t) := inferInstanceAs (Decidable (∀ c ∈ _, _))

theorem closed_nil : Closed [] := by simp [Closed]

theorem closed_append_lf : Closed (t ++ ['\n']) := by simp [Closed]

theorem Closed.append {u : Text} (ht : Closed t) (hu : Closed u) : Closed (t ++ u) := by
  intro c hc
  cases hl : u.getLast? with
  | none =>
    rw [List.getLast?_eq_none_iff.mp hl, List.append_nil] at hc
    exact ht c hc
  | some d =>
    rw [List.getLast?_append, hl] at hc
    obtain rfl := Option.some.inj hc
    exact hu _ hl

theorem Closed.of_append_lf (h : Closed (a ++ '\n' :: t)) : Closed t := by
  intro c hc
  refine h c ?_
  rw [List.getLast?_append, List.getLast?_cons, Option.mem_def.mp hc]
  rfl

theorem lines_append {u : Text} (h : Closed t) : lines (t ++ u) = lines t ++ lines u := by
  induction t using lineInduction with
  | last a ha =>
    cases hl : a.getLast? with
    | none => rw [List.getLast?_eq_none_iff.mp hl, List.nil_append, lines_nil, List.nil_append]
    | some c =>
      obtain rfl : c = '\n' := h c hl
      exact absurd (List.mem_of_getLast? hl) ha
  | line a t ha ih =>
    rw [List.append_assoc, List.cons_append, lines_append_lf ha, lines_append_lf ha,
      ih h.of_append_lf, List.cons_append]

/-- A line is never empty and has no line feed but the one that ends it. -/
theorem of_mem_lines {l : Text} (h : l ∈ lines t) :
    l ≠ [] ∧ ∃ a, '\n' ∉ a ∧ (l = a ∨ l = a ++ ['\n']) := by
  induction t using lineInduction with
  | last a ha =>
    cases a with
    | nil => cases h
    | cons c a =>
      rw [lines_of_notMem ha (by simp), List.mem_singleton] at h
      exact ⟨by simp [h], c :: a, ha, .inl h⟩
  | line a t ha ih =>
    rw [lines_append_lf ha, List.mem_cons] at h
    rcases h with rfl | h
    · exact ⟨by simp, a, ha, .inr rfl⟩
    · exact ih h

theorem subset_of_mem_lines {l : Text} (h : l ∈ lines t) : l ⊆ t := by
  intro c hc
  rw [← flatten_lines t]
  exact List.mem_flatten.mpr ⟨l, h, hc⟩

/-! ## Terminators -/

theorem dropTerminator_append_lf (h : ∀ c ∈ t.getLast?, c ≠ '\r') :
    dropTerminator (t ++ ['\n']) = t := by
  unfold dropTerminator
  rw [List.reverse_append]
  cases hr : t.reverse with
  | nil => simpa using hr.symm
  | cons c r =>
    have hc : c ≠ '\r' := h c (by rw [← List.head?_reverse, hr]; rfl)
    have ht : t = r.reverse ++ [c] := by
      rw [← List.reverse_reverse t, hr, List.reverse_cons]
    subst ht
    split <;> simp_all

theorem dropTerminator_append_crlf : dropTerminator (t ++ ['\r', '\n']) = t := by
  simp [dropTerminator]

theorem dropTerminator_eq_self (h : ∀ c ∈ t.getLast?, c ≠ '\n') : dropTerminator t = t := by
  unfold dropTerminator
  split
  · rename_i rest hr
    exact absurd rfl (h '\n' (by rw [← List.head?_reverse, hr]; rfl))
  · rename_i rest _ hr
    exact absurd rfl (h '\n' (by rw [← List.head?_reverse, hr]; rfl))
  · rfl

/-- What ends a line: a line feed, or a carriage return and a line feed. -/
def IsTerminator (t : Text) : Prop := t = ['\n'] ∨ t = ['\r', '\n']

instance (t : Text) : Decidable (IsTerminator t) := inferInstanceAs (Decidable (_ ∨ _))

theorem exists_terminator (h : t.getLast? = some '\n') :
    ∃ e, IsTerminator e ∧ t = dropTerminator t ++ e := by
  obtain ⟨u, rfl⟩ := List.getLast?_eq_some_iff.mp h
  by_cases hu : ∃ c ∈ u.getLast?, c = '\r'
  · obtain ⟨c, hc, rfl⟩ := hu
    obtain ⟨v, rfl⟩ := List.getLast?_eq_some_iff.mp hc
    refine ⟨['\r', '\n'], .inr rfl, ?_⟩
    rw [List.append_assoc, List.singleton_append, dropTerminator_append_crlf]
  · have hne : ∀ c ∈ u.getLast?, c ≠ '\r' := fun c hc hcr => hu ⟨c, hc, hcr⟩
    exact ⟨['\n'], .inl rfl, by rw [dropTerminator_append_lf hne]⟩

theorem dropTerminator_append (t : Text) :
    ∃ e, (e = [] ∨ IsTerminator e) ∧ t = dropTerminator t ++ e := by
  by_cases h : t.getLast? = some '\n'
  · obtain ⟨e, he, ht⟩ := exists_terminator h
    exact ⟨e, .inr he, ht⟩
  · have hself : dropTerminator t = t := by
      apply dropTerminator_eq_self
      intro c hc hlf
      rw [Option.mem_def.mp hc, hlf] at h
      exact h rfl
    exact ⟨[], .inl rfl, by rw [hself, List.append_nil]⟩

theorem dropTerminator_isPrefix (t : Text) : dropTerminator t <+: t := by
  obtain ⟨e, _, ht⟩ := dropTerminator_append t
  exact ⟨e, ht.symm⟩

/-- A line without its terminator has no line feed any more. -/
theorem lf_notMem_dropTerminator {l : Text} (h : l ∈ lines t) : '\n' ∉ dropTerminator l := by
  obtain ⟨_, a, ha, rfl | rfl⟩ := of_mem_lines h
  · exact fun hlf => ha ((dropTerminator_isPrefix _).subset hlf)
  · obtain ⟨e, he, heq⟩ := exists_terminator (t := a ++ ['\n']) (by simp)
    intro hlf
    rcases he with rfl | rfl
    · obtain ⟨hself, _⟩ := List.append_inj' heq rfl
      exact ha (hself ▸ hlf)
    · have hself : a = dropTerminator (a ++ ['\n']) ++ ['\r'] := by
        have hends : a ++ ['\n'] = (dropTerminator (a ++ ['\n']) ++ ['\r']) ++ ['\n'] := by
          rw [List.append_assoc]
          exact heq
        exact List.append_cancel_right hends
      exact ha (by rw [hself]; exact List.mem_append_left _ hlf)

theorem isBlankLine_iff {line : Text} (hne : line ≠ []) :
    isBlankLine line = true ↔ IsTerminator line := by
  constructor
  · intro h
    obtain ⟨e, he, hl⟩ := dropTerminator_append line
    rw [List.isEmpty_iff.mp h, List.nil_append] at hl
    rcases he with rfl | he
    · exact absurd hl hne
    · rwa [hl]
  · rintro (rfl | rfl) <;> rfl

theorem isBlankLine_of_mem {line : Text} {c : Char} (hc : c ∈ line) (h : c ∉ ['\r', '\n']) :
    isBlankLine line = false := by
  rw [Bool.eq_false_iff]
  intro hblank
  rcases (isBlankLine_iff (List.ne_nil_of_mem hc)).mp hblank with rfl | rfl
  · exact h (List.mem_cons_of_mem _ hc)
  · exact h hc

end Text
end MailArchive
