import MailArchive.Proofs.EncodedWord.Lines
import MailArchive.Proofs.FromLine.Escape

/-!
# MailArchive.Proofs.FromLine.Words

Escaped lines and encoded words together. What is written for a fragment has its lines escaped
first and its words written then. It is read in the same order, lines before words, and not the
other way round, which is right because the two commute.
-/

namespace MailArchive
namespace FromLine

open Text

/-- No word comes up in a text whose escapes are undone. -/
theorem wordless_unescape {t : Text} (h : EncodedWord.Wordless t) :
    EncodedWord.Wordless (unescape t) := by
  have hline : ∀ a : Text, EncodedWord.Wordless a → EncodedWord.Wordless (unescapeLine a) := by
    intro a ha
    obtain ⟨u, hu⟩ := unescapeLine_isSuffix a
    rw [← hu] at ha
    exact ha.of_append
  induction t using lineInduction with
  | last a ha =>
    rw [unescape_of_notMem ha]
    exact hline a h
  | line a t ha ih =>
    obtain ⟨hfirst, hrest⟩ := (EncodedWord.wordless_append_end_iff (.inr rfl)).mp h
    rw [unescape_append_lf ha]
    exact (EncodedWord.wordless_append_end_iff (.inr rfl)).mpr ⟨hline a hfirst, ih hrest⟩

/-- **Escaped lines and encoded words commute.** Words are written line by line, and it is the same
whether they are written before or after lines are escaped, and before or after escapes are undone.
So a body in which no word opens is had back from what is written for it, although its escapes are
undone while its words still stand. -/
theorem encode_commutes :
    (∀ t : Text, lines (EncodedWord.encode t) = (lines t).map EncodedWord.encode ∧
      escape (EncodedWord.encode t) = EncodedWord.encode (escape t) ∧
      unescape (EncodedWord.encode t) = EncodedWord.encode (unescape t)) ∧
      ∀ b : Text, EncodedWord.Unmarked b →
        EncodedWord.decode (unescape (EncodedWord.encode (escape b))) = .ok b := by
  refine ⟨fun t => ⟨EncodedWord.lines_encode t, escape_encode t, unescape_encode t⟩, ?_⟩
  intro b hb
  calc EncodedWord.decode (unescape (EncodedWord.encode (escape b)))
      = EncodedWord.decode (EncodedWord.encode (unescape (escape b))) := by rw [unescape_encode]
    _ = EncodedWord.decode (EncodedWord.encode b) := by rw [unescape_escape]
    _ = .ok b := EncodedWord.decode_encode hb.wordless

/-- Words stand in this body before, in and behind what makes a line look quoted. -/
theorem encode_commutes_quoted :
    EncodedWord.Unmarked ">From é\r\nFrom ü\né>From \n>é>From \n>>Fröm \n\n>>From ?=".toList ∧
      EncodedWord.decode (unescape (EncodedWord.encode (escape
        ">From é\r\nFrom ü\né>From \n>é>From \n>>Fröm \n\n>>From ?=".toList))) =
        .ok ">From é\r\nFrom ü\né>From \n>é>From \n>>Fröm \n\n>>From ?=".toList := by
  have h : EncodedWord.Unmarked
      ">From é\r\nFrom ü\né>From \n>é>From \n>>Fröm \n\n>>From ?=".toList := by
    show ¬ EncodedWord.opening <:+: _
    decide
  exact ⟨h, encode_commutes.2 _ h⟩

end FromLine
end MailArchive
