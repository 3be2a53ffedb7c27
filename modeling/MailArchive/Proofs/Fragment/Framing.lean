import MailArchive.Proofs.Fragment.Fields
import MailArchive.Proofs.Segment.Framing

/-!
# MailArchive.Proofs.Fragment.Framing

A fragment is one segment. It is an empty line and a text (`Fragment.written`) of which the envelope
line is the only boundary (`not_isBoundary_of_mem_own`): a header may begin with `From ` too, but no
blank line comes before it, and a line of the body that does is escaped. So an archive of which the
last line is ended has one more segment with a fragment behind it (`segments_written`).
-/

namespace MailArchive
namespace Fragment

open Text

variable {m : Message} {options : FormatOptions} {date a blank fragment : Text}

/-- A fragment behind its empty line. -/
def written (options : FormatOptions) (m : Message) (date : Text) : Text :=
  EncodedWord.encode ((head options m date ++ FromLine.escape m.body) ++ ['\n'])

theorem format?_eq_some_iff : format? options m = some fragment ↔
    ∃ date, Rfc2822.write? m.date = some date ∧ fragment = '\n' :: written options m date := by
  have hplain : ∀ date, EncodedWord.encode (plain options m date) =
      '\n' :: written options m date := by
    intro date
    rw [plain_eq, EncodedWord.encode_cons (by decide), written]
  rw [format?, Option.map_eq_some_iff]
  simp only [hplain, eq_comm]

theorem closed_written : Closed (written options m date) := by
  rw [written, EncodedWord.encode_append_cons (by decide)]
  exact closed_append_lf

/-- The lines of a fragment behind the envelope line. -/
def own (options : FormatOptions) (m : Message) (date : Text) : List Text :=
  (fields options m date).map (fun h => EncodedWord.encode h.line) ++
    (['\n'] :: (lines (m.body ++ ['\n'])).map fun line =>
      EncodedWord.encode (FromLine.escapeLine line))

theorem lines_written (hm : ∀ t ∈ m.headTexts, '\n' ∉ t) (hd : Rfc2822.write? m.date = some date) :
    lines (written options m date) =
      EncodedWord.encode (envelopeLine m) :: own options m date := by
  have hempty : EncodedWord.encode ['\n'] = ['\n'] := EncodedWord.encode_of_isAscii (by decide)
  rw [written, EncodedWord.lines_encode, List.append_assoc,
    ← FromLine.escape_append_singleton (by decide),
    lines_append closed_head, lines_head hm hd, FromLine.lines_escape, own]
  simp only [List.map_cons, List.map_append, List.map_map, hempty, List.cons_append,
    List.append_assoc, List.nil_append]
  rfl

theorem isSeparator_envelopeLine (m : Message) :
    FromLine.isSeparator (EncodedWord.encode (envelopeLine m)) = true := by
  rw [FromLine.isSeparator_encode]
  rfl

/-- The envelope line is the only boundary of a fragment. -/
theorem not_isBoundary_of_mem_own (offset : Nat) :
    ∀ l ∈ ArchiveLine.place offset (isBlankLine (EncodedWord.encode (envelopeLine m)))
      (own options m date), l.isBoundary = false := by
  have henvelope : isBlankLine (EncodedWord.encode (envelopeLine m)) = false :=
    isBlankLine_of_mem (c := 'F')
      (EncodedWord.mem_encode_of_mem (by decide) (by simp [envelopeLine, FromLine.separator]))
      (by decide)
  rw [henvelope]
  refine ArchiveLine.isBoundary_of_mem_place_append ?_ ?_
  · intro line hline
    obtain ⟨h, _, rfl⟩ := List.mem_map.mp hline
    exact isBlankLine_of_mem (EncodedWord.mem_encode_of_mem (by decide) h.colon_mem_line)
      (by decide)
  · refine List.forall_mem_cons.mpr ⟨rfl, ?_⟩
    intro line hline
    obtain ⟨l, _, rfl⟩ := List.mem_map.mp hline
    rw [FromLine.isSeparator_encode, FromLine.isSeparator_escapeLine]

theorem segments_written (options : FormatOptions) (hm : ∀ t ∈ m.headTexts, '\n' ∉ t)
    (hd : Rfc2822.write? m.date = some date) (ha : Closed (dropMark a))
    (hblank : IsTerminator blank) :
    ∃ s : Segment, s.text = dropTerminator (written options m date) ∧
      segments (a ++ (blank ++ written options m date)) = segments a ++ [s] :=
  segments_append ha hblank (lines_written hm hd) (isSeparator_envelopeLine m)
    not_isBoundary_of_mem_own

end Fragment
end MailArchive
