import MailArchive.Proofs.Archive.Append
import MailArchive.Proofs.Message.RoundTrip
import MailArchive.Proofs.Message.Unmarked

/-!
# MailArchive.Proofs.Archive.RoundTrip

Well-formed messages read back from an archive. What is had back from the fragment of one is the
message as it was written (`Fragment.restored_eq`). So an archive with the fragment at its end has
one more message than before (`messages_append_fragment`), and by induction on the messages an
archive that is made of fragments gives them all (`messages_fragments`).
-/

namespace MailArchive

open Text

variable {m : Message} {options : FormatOptions} {date a fragment : Text}

/-! ## Fragments -/

namespace Fragment

/-- Nothing of a well-formed message is changed on the way. -/
theorem restored_eq (hm : m.WellFormed) (hd : Rfc2822.write? m.date = some date) :
    restored options m date =
      envelopeLine m ++ (Header.block (fields options m date) ++ '\n' :: m.body) := by
  have hplain := isPlain_of_mem_fields options hm hd
  have hunquoted : ∀ h ∈ fields options m date, h.unquoted = h := by
    intro h hh
    refine Header.unquoted_eq fun hblank => ?_
    have hchar := Header.not_blank_of_mem_name (hplain h hh) hblank
    cases hchar
  rw [restored, List.map_congr_left hunquoted, List.map_id', kept_eq_self hm.body_cr]

theorem exists_fragment (options : FormatOptions) (hm : m.WellFormed) :
    ∃ fragment, format? options m = some fragment := by
  have hd := Rfc2822.write?_eq_some_iff.mpr ⟨hm.year, rfl⟩
  exact ⟨_, by rw [format?, hd, Option.map_some]⟩

theorem closed_fragment (hf : format? options m = some fragment) : Closed fragment := by
  obtain ⟨date, _, rfl⟩ := format?_eq_some_iff.mp hf
  exact (closed_append_lf (t := [])).append closed_written

end Fragment

/-! ## Archives -/

namespace Archive

variable {ms : List Message}

/-- The fragment of a well-formed message adds that message to an archive. -/
theorem messages_append_fragment (hm : m.WellFormed)
    (hf : Fragment.format? options m = some fragment) (ha : Closed a)
    (hms : messages .standard a = .ok ms) :
    messages .standard (a ++ fragment) = .ok (ms ++ [m]) := by
  obtain ⟨date, hd, rfl⟩ := Fragment.format?_eq_some_iff.mp hf
  have hwords := (Fragment.unmarked_plain options hm.unmarked hd).wordless
  have hdecode := Fragment.decode_written hm.lf_notMem hd
    (Fragment.wordless_restored hm.lf_notMem hd hwords)
  rw [Fragment.restored_eq hm hd] at hdecode
  have hmore := messages_append_written .standard hm.lf_notMem hd
    ⟨_, hdecode, (parse_standard _).trans (Fragment.parse_written hm hd)⟩ ha.dropMark (.inl rfl)
  rw [hms] at hmore
  exact hmore

/-- The fragments of well-formed messages add those messages to an archive, one after the other. -/
theorem messages_append_fragments (options : FormatOptions) (added : List Message)
    (h : ∀ m ∈ added, m.WellFormed) (ha : Closed a) (hms : messages .standard a = .ok ms) :
    ∃ fragments, added.mapM (Fragment.format? options) = some fragments ∧
      messages .standard (a ++ fragments.flatten) = .ok (ms ++ added) := by
  induction added generalizing a ms with
  | nil => exact ⟨[], rfl, by simpa using hms⟩
  | cons m added ih =>
    obtain ⟨hm, hadded⟩ := List.forall_mem_cons.mp h
    obtain ⟨fragment, hf⟩ := Fragment.exists_fragment options hm
    have hstep := messages_append_fragment hm hf ha hms
    obtain ⟨fragments, hfs, hread⟩ := ih hadded (ha.append (Fragment.closed_fragment hf)) hstep
    refine ⟨fragment :: fragments, ?_, ?_⟩
    · rw [List.mapM_cons, hf, hfs]
      rfl
    · rw [List.flatten_cons, ← List.append_assoc, hread, List.append_assoc]
      rfl

/-- **An archive gives back the messages it is made of.** The fragments of well-formed messages, one
after the other, are read as exactly these messages. -/
theorem messages_fragments (options : FormatOptions) (ms : List Message)
    (h : ∀ m ∈ ms, m.WellFormed) :
    ∃ fragments, ms.mapM (Fragment.format? options) = some fragments ∧
      messages .standard fragments.flatten = .ok ms :=
  messages_append_fragments options ms h closed_nil (messages_nil _)

/-- A question that an archive has to mark all over. -/
def question : Message where
  id := "<q.1@example.org>".toList
  author := ⟨"Zoë \"Zo\" Öst, Jr.".toList, "zoe@example.org".toList⟩
  sender := ⟨[], "list@example.org".toList⟩
  recipients :=
    [⟨"Jörg <home>".toList, "joerg@example.net".toList⟩, ⟨[], "ann@example.com".toList⟩]
  date := ⟨⟨2024, 2, 29, by decide⟩, ⟨23, 59, 60, 0, by decide⟩, -34200, by decide⟩
  subject := "Größe = ?".toList
  headers := [⟨">From".toList, "naïve: value".toList⟩]
  body := "From here on\r\n\r\n\nFrom there\n>From nowhere …\n\n".toList

/-- A reply to it that says nothing. -/
def answer : Message :=
  (Message.new "a".toList ⟨[], "ann@example.com".toList⟩).withHeader "In-Reply-To".toList
    "<q.1@example.org>".toList

theorem messages_fragments_question_answer :
    (∀ m ∈ [question, answer, question], m.WellFormed) ∧
      ∃ fragments, [question, answer, question].mapM (Fragment.format? {}) = some fragments ∧
        messages .standard fragments.flatten = .ok [question, answer, question] := by
  have h : ∀ m ∈ [question, answer, question], m.WellFormed := by decide +kernel
  exact ⟨h, messages_fragments {} [question, answer, question] h⟩

end Archive
end MailArchive
