import MailArchive.Proofs.Segment.Partition

/-!
# MailArchive.Proofs.Segment.OpenEnd

What becomes of an archive of which the last line is not ended when something is put at its end. An
empty line in front of what is added only ends that line (`exists_openEnd`), so no boundary follows
unless nothing but a carriage return stands on it: there are as many segments as before
(`length_segments_openEnd`).
-/

namespace MailArchive

open Text

/-! ## The last line -/

namespace Text

theorem exists_openLine {t : Text} (h : ¬ Closed t) :
    ∃ b y, t = b ++ y ∧ Closed b ∧ '\n' ∉ y ∧ y ≠ [] := by
  induction t using lineInduction with
  | last a ha =>
    refine ⟨[], a, rfl, closed_nil, ha, ?_⟩
    rintro rfl
    exact h closed_nil
  | line a t ha ih =>
    have happend : ∀ u, Closed u → Closed (a ++ '\n' :: u) := by
      intro u hu
      rw [List.append_cons]
      exact closed_append_lf.append hu
    obtain ⟨b, y, rfl, hb, hy, hne⟩ := ih fun ht => h (happend t ht)
    exact ⟨a ++ '\n' :: b, y, by simp, happend b hb, hy, hne⟩

theorem exists_openEnd {a : Text} (h : ¬ Closed (dropMark a)) :
    ∃ b y, a = b ++ y ∧ dropMark a = dropMark b ++ y ∧ Closed (dropMark b) ∧ '\n' ∉ y ∧ y ≠ [] := by
  obtain ⟨b, y, heq, hb, hy, hne⟩ := exists_openLine h
  by_cases hmark : a.head? = some byteOrderMark
  · obtain ⟨t, rfl⟩ := List.head?_eq_some_iff.mp hmark
    have hdrop : ∀ u, dropMark (byteOrderMark :: u) = u := fun u => rfl
    rw [hdrop] at heq
    refine ⟨byteOrderMark :: b, y, by rw [heq]; rfl, ?_, ?_, hy, hne⟩
    · rw [hdrop, hdrop, heq]
    · rw [hdrop]
      exact hb
  · have hself : dropMark a = a := if_neg hmark
    rw [hself] at heq
    subst heq
    have hfront : b.head? ≠ some byteOrderMark := by
      intro hhead
      rw [List.head?_append, hhead] at hmark
      exact hmark rfl
    have hselfb : dropMark b = b := if_neg hfront
    exact ⟨b, y, rfl, by rw [hself, hselfb], by rw [hselfb]; exact hb, hy, hne⟩

end Text

/-! ## Boundaries behind it -/

/-- A line that is no blank line when it is ended keeps the next line from being a boundary. -/
theorem ArchiveLine.countP_place_openLine (offset : Nat) (afterBlank : Bool) (ls : List Text)
    {y separator : Text} {own : List Text} (hy : isBlankLine (y ++ ['\n']) = false)
    (hown : ∀ offset, ∀ l ∈ place offset (isBlankLine separator) own, l.isBoundary = false) :
    (place offset afterBlank (ls ++ (y ++ ['\n']) :: separator :: own)).countP isBoundary =
      (place offset afterBlank (ls ++ [y])).countP isBoundary := by
  induction ls generalizing offset afterBlank with
  | nil =>
    have hnone : ∀ offset,
        (place offset (isBlankLine separator) own).countP isBoundary = 0 := by
      intro offset
      rw [List.countP_eq_zero]
      intro l hl
      rw [hown offset l hl]
      exact Bool.false_ne_true
    rw [List.nil_append, List.nil_append, place_cons, place_cons, hy, place_cons, place_nil,
      List.countP_cons, List.countP_cons, hnone, List.countP_cons, List.countP_nil,
      FromLine.isSeparator_append_cons (by decide)]
    simp
  | cons line ls ih =>
    rw [List.cons_append, List.cons_append, place_cons, place_cons, List.countP_cons,
      List.countP_cons, ih]

theorem length_segments_openEnd {a b y f separator : Text} {own : List Text}
    (hmark : dropMark a = dropMark b ++ y) (hb : Closed (dropMark b)) (hy : '\n' ∉ y)
    (hne : y ≠ []) (hcr : y ≠ ['\r']) (hlines : lines f = separator :: own)
    (hown : ∀ offset, ∀ l ∈ ArchiveLine.place offset (isBlankLine separator) own,
      l.isBoundary = false) :
    (segments (a ++ '\n' :: f)).length = (segments a).length := by
  have hblank : isBlankLine (y ++ ['\n']) = false := by
    rw [Bool.eq_false_iff]
    intro h
    rcases (isBlankLine_iff (by simp)).mp h with heq | heq
    · exact hne (by simpa using heq)
    · exact hcr (List.append_cancel_right (heq.trans rfl : y ++ ['\n'] = ['\r'] ++ ['\n']))
  have hhead : ('\n' :: f).head? ≠ some byteOrderMark := by
    rw [List.head?_cons]
    decide
  rw [segments, Cursor.start, ArchiveLine.ofText_append hhead, segments, Cursor.start,
    ArchiveLine.ofText_eq, Cursor.length_segments, Cursor.length_segments, hmark,
    List.append_assoc, lines_append hb, lines_append hb, lines_append_lf hy, hlines,
    lines_of_notMem hy hne]
  exact ArchiveLine.countP_place_openLine _ _ _ hblank hown

end MailArchive
