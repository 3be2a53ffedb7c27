import MailArchive.Archive
import MailArchive.Proofs.Fragment.Framing
import MailArchive.Proofs.FromLine.Words

/-!
# MailArchive.Proofs.Fragment.Reading

What is had back from a fragment (`Fragment.restored`) when its segment has been cut out and the
marks of the archive are gone. The body is not escaped any more, but the escapes are looked for in
the headers too, so a name that looks like a quoted separator loses one quotation mark
(`Header.unquoted`); and a carriage return at the end of the body is taken for part of the line end
behind it (`Fragment.kept`). All else is as it was if no word of its own can be read in it
(`decode_written`, `wordless_restored`).
-/

namespace MailArchive

open Text

variable {m : Message} {options : FormatOptions} {date body : Text}

/-! ## Headers -/

namespace Header

variable {h : Header}

/-- A header as it is had back from an archive. -/
def unquoted (h : Header) : Header := ⟨FromLine.unescapeLine h.name, h.value⟩

theorem unquoted_eq (hblank : ' ' ∉ h.name) : h.unquoted = h := by
  rw [unquoted, FromLine.unescapeLine_of_isQuoted (FromLine.isQuoted_of_notMem hblank)]

theorem unescapeLine_line (h : Header) : FromLine.unescapeLine h.line = h.unquoted.line := by
  have hline : ∀ x : Header, x.line = x.name ++ ':' :: (' ' :: x.value ++ ['\n']) := by
    intro x
    simp [line_eq, content]
  rw [hline, hline, FromLine.unescapeLine_append_cons (by decide)]
  rfl

theorem unquoted_name_suffix (h : Header) : h.unquoted.name <:+ h.name :=
  FromLine.unescapeLine_isSuffix h.name

theorem IsLine.unquoted (hh : h.IsLine) : h.unquoted.IsLine where
  name_lf hlf := hh.name_lf (h.unquoted_name_suffix.subset hlf)
  name_colon hcolon := hh.name_colon (h.unquoted_name_suffix.subset hcolon)
  name_trim := by
    show trim (FromLine.unescapeLine h.name) = FromLine.unescapeLine h.name
    rcases FromLine.unescapeLine_cases h.name with heq | ⟨hquoted, heq⟩
    · rw [heq, hh.name_trim]
    · -- A quoted separator begins with a quotation mark or with its first letter.
      generalize FromLine.unescapeLine h.name = name at hquoted heq ⊢
      have hends := trim_eq_self_iff.mp hh.name_trim
      rw [trim_eq_self_iff]
      cases name with
      | nil => cases hquoted
      | cons c name =>
        refine ⟨?_, fun d hd => hends.2 d (by rw [heq, List.getLast?_cons, hd]; rfl)⟩
        intro d hd
        obtain rfl := Option.some.inj hd
        by_cases hc : c = '>'
        · subst hc
          decide
        · have hhead : (c :: name).head? ≠ some '>' := by simpa using hc
          rw [FromLine.isQuoted_of_head? hhead] at hquoted
          obtain ⟨rest, hrest⟩ := FromLine.isSeparator_iff.mp hquoted
          obtain ⟨rfl, _⟩ := List.cons.inj hrest
          decide
  value_lf := hh.value_lf

end Header

/-! ## Bodies -/

namespace Fragment

/-- A body as it is had back: what is in front of the line end that it is written with. -/
def kept (body : Text) : Text := dropTerminator (body ++ ['\n'])

theorem kept_eq_self (h : ∀ c ∈ body.getLast?, c ≠ '\r') : kept body = body :=
  dropTerminator_append_lf h

theorem kept_cases (body : Text) :
    kept body = body ∧ (∀ c ∈ body.getLast?, c ≠ '\r') ∨ body = kept body ++ ['\r'] := by
  by_cases h : ∃ c ∈ body.getLast?, c = '\r'
  · obtain ⟨c, hc, rfl⟩ := h
    obtain ⟨init, rfl⟩ := List.getLast?_eq_some_iff.mp hc
    right
    rw [kept, List.append_assoc, List.singleton_append, dropTerminator_append_crlf]
  · have hcr : ∀ c ∈ body.getLast?, c ≠ '\r' := fun c hc heq => h ⟨c, hc, heq⟩
    exact .inl ⟨kept_eq_self hcr, hcr⟩

/-! ## Whole fragments -/

/-- A fragment as it is had back. -/
def restored (options : FormatOptions) (m : Message) (date : Text) : Text :=
  envelopeLine m ++
    (Header.block ((fields options m date).map Header.unquoted) ++ '\n' :: kept m.body)

/-- The text of the segment that a fragment becomes. -/
theorem dropTerminator_written :
    dropTerminator (written options m date) =
      EncodedWord.encode (head options m date ++ FromLine.escape (kept m.body)) := by
  have hlast : ∀ c ∈ (head options m date).getLast?, c ≠ '\r' := by
    intro c hc
    rw [closed_head c hc]
    decide
  rcases kept_cases m.body with ⟨hbody, hcr⟩ | hbody
  · rw [hbody, written, EncodedWord.encode_append_cons (by decide)]
    refine dropTerminator_append_lf fun c hc => ?_
    rw [EncodedWord.getLast?_encode] at hc
    obtain ⟨d, hd, rfl⟩ := Option.map_eq_some_iff.mp hc
    unfold EncodedWord.edge
    split
    · rw [List.getLast?_append, FromLine.getLast?_escape] at hd
      cases hl : m.body.getLast? with
      | none =>
        rw [hl] at hd
        exact hlast d hd
      | some e =>
        rw [hl] at hd
        obtain rfl : e = d := Option.some.inj hd
        exact hcr e hl
    · decide
  · have hescape : FromLine.escape m.body = FromLine.escape (kept m.body) ++ ['\r'] := by
      rw [← FromLine.escape_append_singleton (by decide), ← hbody]
    rw [written, hescape, ← List.append_assoc, EncodedWord.encode_append_cons (by decide),
      EncodedWord.encode_append_cons (by decide), List.append_assoc]
    exact dropTerminator_append_crlf

theorem unescape_head (hm : ∀ t ∈ m.headTexts, '\n' ∉ t) (hd : Rfc2822.write? m.date = some date) :
    FromLine.unescape (head options m date) =
      envelopeLine m ++ (Header.block ((fields options m date).map Header.unquoted) ++ ['\n']) := by
  have henvelope : FromLine.unescapeLine (envelopeLine m) = envelopeLine m :=
    FromLine.unescapeLine_of_head? (by simp [envelopeLine, FromLine.separator])
  have hempty : FromLine.unescapeLine ['\n'] = ['\n'] := rfl
  rw [FromLine.unescape, lines_head hm hd, List.flatMap_cons, henvelope, List.flatMap_append,
    List.flatMap_singleton, hempty, List.flatMap_map, Header.block, List.map_map, List.flatMap_def]
  simp only [Header.unescapeLine_line]
  rfl

/-- The marks of the archive are taken from the segment that a fragment becomes. -/
theorem unescape_kept (hm : ∀ t ∈ m.headTexts, '\n' ∉ t) (hd : Rfc2822.write? m.date = some date) :
    FromLine.unescape (head options m date ++ FromLine.escape (kept m.body)) =
      restored options m date := by
  rw [FromLine.unescape_append closed_head, unescape_head hm hd, FromLine.unescape_escape,
    restored, List.append_assoc, List.append_assoc]
  rfl

theorem decode_written (hm : ∀ t ∈ m.headTexts, '\n' ∉ t) (hd : Rfc2822.write? m.date = some date)
    (hwords : EncodedWord.Wordless (restored options m date)) :
    Archive.decode (dropTerminator (written options m date)) = .ok (restored options m date) := by
  rw [dropTerminator_written, Archive.decode, FromLine.unescape_encode, unescape_kept hm hd,
    EncodedWord.decode_encode hwords]

/-- No word comes up in what is had back of a fragment. -/
theorem wordless_restored (hm : ∀ t ∈ m.headTexts, '\n' ∉ t)
    (hd : Rfc2822.write? m.date = some date)
    (hwords : EncodedWord.Wordless (plain options m date)) :
    EncodedWord.Wordless (restored options m date) := by
  have hbody : EncodedWord.Wordless (head options m date ++ FromLine.escape m.body) := by
    rw [plain_eq, ← List.nil_append ('\n' :: _)] at hwords
    have hrest := ((EncodedWord.wordless_append_end_iff (.inr rfl)).mp hwords).2
    exact ((EncodedWord.wordless_append_end_iff (.inr rfl)).mp hrest).1
  have hkept : EncodedWord.Wordless (head options m date ++ FromLine.escape (kept m.body)) := by
    rcases kept_cases m.body with ⟨hsame, _⟩ | hcr
    · rwa [hsame]
    · rw [hcr, FromLine.escape_append_singleton (by decide), ← List.append_assoc] at hbody
      exact ((EncodedWord.wordless_append_end_iff (.inl rfl)).mp hbody).1
  rw [← unescape_kept hm hd]
  exact FromLine.wordless_unescape hkept

end Fragment
end MailArchive
