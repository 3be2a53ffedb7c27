import Mathlib.Data.List.Basic
import Mathlib.Data.Set.Image
import MailArchive.Proofs.FromLine.Escape

/-!
# MailArchive.Proofs.FromLine.Bijection

Which texts are escaped texts. Both directions go line by line (`lines_escape`, `lines_unescape`),
and a line is escaped again after its escape is undone exactly if it is no separator
(`escapeLine_unescapeLine_iff`). So escaping is a bijection onto the texts in which no line begins
with `From ` (`escape_injective_range`).
-/

namespace MailArchive
namespace FromLine

open Text

variable {line t : Text}

/-- No line of the text begins with `From `, so that none of them can start a message. -/
def Safe (t : Text) : Prop := ∀ line ∈ lines t, ¬ separator <+: line

theorem safe_iff : Safe t ↔ ∀ line ∈ lines t, isSeparator line = false := by
  refine forall₂_congr fun line _ => ?_
  rw [← isSeparator_iff, Bool.not_eq_true]

/-! ## One line -/

/-- Without a quotation mark in front, a line is quoted only if it is a separator. -/
theorem escapeLine_of_head? (h : line.head? ≠ some '>') (hs : isSeparator line = false) :
    escapeLine line = line := by
  rw [escapeLine, isQuoted_of_head? h, hs]
  rfl

/-- The escape of a line is had back unless the line is a separator, which never is an escape. -/
theorem escapeLine_unescapeLine_iff :
    escapeLine (unescapeLine line) = line ↔ isSeparator line = false := by
  constructor
  · intro h
    rw [← h]
    exact isSeparator_escapeLine _
  · intro hs
    by_cases hh : line.head? = some '>'
    · obtain ⟨rest, rfl⟩ := List.head?_eq_some_iff.mp hh
      cases hq : isQuoted rest with
      | true => simp [unescapeLine, escapeLine, hq]
      | false => simp [unescapeLine, escapeLine, isQuoted_cons_gt, hq]
    · rw [unescapeLine_of_head? hh, escapeLine_of_head? hh hs]

theorem unescapeLine_ne_nil (h : line ≠ []) : unescapeLine line ≠ [] := by
  rcases unescapeLine_cases line with heq | ⟨hq, _⟩
  · rwa [heq]
  · intro hnil
    rw [hnil] at hq
    cases hq

/-! ## A whole text -/

theorem lines_unescape (t : Text) : lines (unescape t) = (lines t).map unescapeLine := by
  induction t using lineInduction with
  | last a ha =>
    cases a with
    | nil => rfl
    | cons c a =>
      have hne : unescapeLine (c :: a) ≠ [] := unescapeLine_ne_nil (by simp)
      rw [unescape_of_notMem ha, lines_of_notMem (notMem_unescapeLine ha) hne,
        lines_of_notMem ha (by simp), List.map_singleton]
  | line a t ha ih =>
    rw [unescape_append_lf ha, lines_append_lf (notMem_unescapeLine ha), ih, lines_append_lf ha,
      List.map_cons, unescapeLine_append_cons (by decide)]

theorem safe_escape (t : Text) : Safe (escape t) := by
  rw [safe_iff, lines_escape]
  intro line hline
  obtain ⟨l, _, rfl⟩ := List.mem_map.mp hline
  exact isSeparator_escapeLine l

/-- A text comes back after its escapes are undone exactly if every line of it does. -/
theorem escape_unescape_iff : escape (unescape t) = t ↔ Safe t := by
  constructor
  · intro h
    rw [← h]
    exact safe_escape _
  · intro h
    have hline : ∀ line ∈ lines t, escapeLine (unescapeLine line) = line := fun line hmem =>
      escapeLine_unescapeLine_iff.mpr (safe_iff.mp h line hmem)
    rw [escape, lines_unescape, List.flatMap_map, List.flatMap_congr hline, List.flatMap_id',
      flatten_lines]

/-- **Escaping is a bijection onto safe texts.** A text is had back from its escaped form. The other
way round a text is escaped again as it was exactly if no line of it begins with `From `. So no two
texts have the same escaped form, and the escaped forms are the texts without such a line. -/
theorem escape_injective_range :
    (∀ t, unescape (escape t) = t) ∧ (∀ t, escape (unescape t) = t ↔ Safe t) ∧
      Function.Injective escape ∧ Set.range escape = { t | Safe t } := by
  have hinverse : Function.LeftInverse unescape escape := unescape_escape
  refine ⟨unescape_escape, fun _ => escape_unescape_iff, hinverse.injective, ?_⟩
  ext t
  constructor
  · rintro ⟨u, rfl⟩
    exact safe_escape u
  · intro h
    exact ⟨unescape t, escape_unescape_iff.mpr h⟩

end FromLine
end MailArchive
