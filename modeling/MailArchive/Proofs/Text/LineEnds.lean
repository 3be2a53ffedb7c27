import Mathlib.Data.List.Basic
import MailArchive.Proofs.Text.Lines
import MailArchive.Proofs.Text.Trim

/-!
# MailArchive.Proofs.Text.LineEnds

Texts with other line ends. `crlf` puts a carriage return in front of every line feed. The lines
stay the same but for their ends (`lines_crlf`), and so does what is in front of the ends if there
was no carriage return before (`dropTerminator_crlf`, `isBlankLine_crlf`). What has no line end in
it is found at the beginning of the one text if it is at the beginning of the other (`strip?_crlf`).
-/

namespace MailArchive
namespace Text

variable {a t : Text}

/-- The text with a carriage return in front of every line feed. -/
def crlf (t : Text) : Text := t.flatMap fun c => if c = '\n' then ['\r', '\n'] else [c]

/-! ## Parts of a text -/

@[simp] theorem crlf_nil : crlf [] = [] := rfl

theorem crlf_cons_lf (t : Text) : crlf ('\n' :: t) = '\r' :: '\n' :: crlf t := rfl

theorem crlf_cons {c : Char} (h : c ≠ '\n') (t : Text) : crlf (c :: t) = c :: crlf t := by
  rw [crlf, List.flatMap_cons, if_neg h]
  rfl

theorem crlf_append (t u : Text) : crlf (t ++ u) = crlf t ++ crlf u := List.flatMap_append

theorem crlf_flatten (ts : List Text) : crlf ts.flatten = (ts.map crlf).flatten := by
  induction ts with
  | nil => rfl
  | cons t ts ih => rw [List.flatten_cons, crlf_append, ih, List.map_cons, List.flatten_cons]

theorem crlf_of_notMem (h : '\n' ∉ t) : crlf t = t := by
  induction t with
  | nil => rfl
  | cons c t ih =>
    rw [List.mem_cons, not_or] at h
    rw [crlf_cons (Ne.symm h.1), ih h.2]

theorem crlf_append_lf (h : '\n' ∉ a) :
    crlf (a ++ '\n' :: t) = (a ++ ['\r']) ++ '\n' :: crlf t := by
  rw [crlf_append, crlf_of_notMem h, crlf_cons_lf, List.append_assoc]
  rfl

theorem isEmpty_crlf (t : Text) : (crlf t).isEmpty = t.isEmpty := by
  cases t with
  | nil => rfl
  | cons c t =>
    by_cases hc : c = '\n'
    · rw [hc, crlf_cons_lf]
      rfl
    · rw [crlf_cons hc]
      rfl

/-- What is asked of every character does not tell the texts apart if it does not tell the two
characters apart that end a line. -/
theorem all_crlf {p : Char → Bool} (h : p '\r' = p '\n') (t : Text) : (crlf t).all p = t.all p := by
  induction t with
  | nil => rfl
  | cons c t ih =>
    by_cases hc : c = '\n'
    · rw [hc, crlf_cons_lf, List.all_cons, List.all_cons, List.all_cons, ih, h, ← Bool.and_assoc,
        Bool.and_self]
    · rw [crlf_cons hc, List.all_cons, List.all_cons, ih]

theorem isEmpty_trim_crlf (t : Text) : (trim (crlf t)).isEmpty = (trim t).isEmpty := by
  rw [Bool.eq_iff_iff, List.isEmpty_iff, List.isEmpty_iff, trim_eq_nil_iff, trim_eq_nil_iff,
    ← List.all_eq_true, ← List.all_eq_true, all_crlf rfl]

theorem strip?_crlf {start : Text} (h : ∀ c ∈ start, c ≠ '\r' ∧ c ≠ '\n') (t : Text) :
    strip? start (crlf t) = (strip? start t).map crlf := by
  induction start generalizing t with
  | nil => rfl
  | cons p start ih =>
    obtain ⟨hp, hstart⟩ := List.forall_mem_cons.mp h
    cases t with
    | nil => rfl
    | cons c t =>
      by_cases hc : c = '\n'
      · subst hc
        rw [crlf_cons_lf, strip?, strip?, if_neg hp.1, if_neg hp.2]
        rfl
      · rw [crlf_cons hc, strip?, strip?]
        split
        · exact ih hstart t
        · rfl

/-! ## Lines -/

theorem lines_crlf (t : Text) : lines (crlf t) = (lines t).map crlf := by
  induction t using lineInduction with
  | last a ha =>
    cases a with
    | nil => rfl
    | cons c a =>
      rw [crlf_of_notMem ha, lines_of_notMem ha (by simp), List.map_singleton, crlf_of_notMem ha]
  | line a t ha ih =>
    have hcr : '\n' ∉ a ++ ['\r'] := by simp [ha]
    rw [crlf_append_lf ha, lines_append_lf hcr, ih, lines_append_lf ha, List.map_cons,
      crlf_append_lf ha]
    rfl

theorem dropTerminator_crlf (h : '\r' ∉ t) : dropTerminator (crlf t) = crlf (dropTerminator t) := by
  by_cases hlast : t.getLast? = some '\n'
  · obtain ⟨u, rfl⟩ := List.getLast?_eq_some_iff.mp hlast
    have hu : ∀ c ∈ u.getLast?, c ≠ '\r' := by
      rintro c hc rfl
      exact h (List.mem_append_left _ (List.mem_of_getLast? hc))
    rw [crlf_append, dropTerminator_append_lf hu]
    exact dropTerminator_append_crlf
  · have hself : ∀ c ∈ t.getLast?, c ≠ '\n' := by
      rintro c hc rfl
      exact hlast hc
    have hcrlf : ∀ c ∈ (crlf t).getLast?, c ≠ '\n' := by
      rcases List.eq_nil_or_concat' t with rfl | ⟨u, c, rfl⟩
      · simp
      · have hc : c ≠ '\n' := hself c (by simp)
        rw [crlf_append, crlf_cons hc, crlf_nil, List.getLast?_concat]
        rintro d hd
        obtain rfl := Option.some.inj hd
        exact hc
    rw [dropTerminator_eq_self hself, dropTerminator_eq_self hcrlf]

theorem isBlankLine_crlf (h : '\r' ∉ t) : isBlankLine (crlf t) = isBlankLine t := by
  rw [isBlankLine, dropTerminator_crlf h, isEmpty_crlf, isBlankLine]

end Text
end MailArchive
