import MailArchive.Archive
import MailArchive.Proofs.EncodedWord.RoundTrip
import MailArchive.Proofs.FromLine.Escape
import MailArchive.Proofs.Message.LineEnds
import MailArchive.Proofs.Segment.LineEnds

/-!
# MailArchive.Proofs.Archive.LineEnds

Archives with other line ends. Each step of the reading keeps them: the segments have them
(`map_text_segments_crlf`), undoing the escapes leaves them alone (`FromLine.unescape_crlf`), and
the message is the same but for its body (`Message.parse_crlf`). Words are decoded across a line end
in neither text, so a text in which none opens is read as it stands. `messages_crlf` is the whole.
-/

namespace MailArchive

open EncodedWord Text

variable {t : Text}

/-! ## Escapes -/

namespace FromLine

theorem unescape_crlf (t : Text) : unescape (crlf t) = crlf (unescape t) := by
  induction t using lineInduction with
  | last a ha =>
    rw [crlf_of_notMem ha, unescape_of_notMem ha, crlf_of_notMem (notMem_unescapeLine ha)]
  | line a t ha ih =>
    have hcr : '\n' ∉ a ++ ['\r'] := by simp [ha]
    rw [crlf_append_lf ha, unescape_append_lf hcr, ih, unescape_append_lf ha,
      crlf_append_lf (notMem_unescapeLine ha), unescapeLine_append_cons (by decide)]

/-- No word opens where an escape was undone. -/
theorem unmarked_unescape (h : Unmarked t) : Unmarked (unescape t) := by
  induction t using lineInduction with
  | last a ha =>
    rw [unescape_of_notMem ha]
    exact h.of_infix (unescapeLine_isSuffix a).isInfix
  | line a t ha ih =>
    have hline : Unmarked a := h.of_infix (List.prefix_append a _).isInfix
    have hrest : Unmarked t := h.of_infix ⟨a ++ ['\n'], [], by simp⟩
    rw [unescape_append_lf ha]
    exact unmarked_append_cons (by decide) (hline.of_infix (unescapeLine_isSuffix a).isInfix)
      (ih hrest)

theorem unescape_subset (t : Text) : unescape t ⊆ t := by
  intro c hc
  obtain ⟨line, hline, hmem⟩ := List.mem_flatMap.mp hc
  exact subset_of_mem_lines hline ((unescapeLine_isSuffix line).subset hmem)

end FromLine

theorem EncodedWord.unmarked_crlf (h : Unmarked t) : Unmarked (crlf t) := by
  induction t using lineInduction with
  | last a ha =>
    rw [crlf_of_notMem ha]
    exact h
  | line a t ha ih =>
    have hline : Unmarked a := h.of_infix (List.prefix_append a _).isInfix
    have hrest : Unmarked t := h.of_infix ⟨a ++ ['\n'], [], by simp⟩
    rw [crlf_append_lf ha]
    exact unmarked_append_cons (by decide)
      (unmarked_append_cons (by decide) hline unmarked_nil) (ih hrest)

/-! ## Segments and messages -/

namespace Archive

theorem decode_of_unmarked (h : Unmarked t) : decode t = .ok (FromLine.unescape t) :=
  EncodedWord.decode_of_unmarked (FromLine.unmarked_unescape h)

/-- A segment with other line ends is read as the same message, but for the line ends of its
body. -/
theorem readSegment_crlf (number : Nat) (hcr : '\r' ∉ t) (hm : Unmarked t) :
    readSegment .standard number (crlf t) =
      (readSegment .standard number t).map Message.withReturns := by
  have hplain : '\r' ∉ FromLine.unescape t := fun h => hcr (FromLine.unescape_subset t h)
  rw [readSegment, readSegment, decode_of_unmarked (unmarked_crlf hm), decode_of_unmarked hm,
    FromLine.unescape_crlf]
  simp only [MessageParser.standard, Message.parse_crlf hplain]
  cases Message.parse (FromLine.unescape t) <;> rfl

theorem readSegments_crlf {ss : List Segment} (h : ∀ s ∈ ss, '\r' ∉ s.text ∧ Unmarked s.text)
    {ss' : List Segment} (hss : ss'.map Segment.text = ss.map fun s => crlf s.text) (number : Nat) :
    readSegments .standard number ss' =
      (readSegments .standard number ss).map (List.map Message.withReturns) := by
  induction ss generalizing ss' number with
  | nil =>
    rw [List.map_eq_nil_iff.mp hss]
    rfl
  | cons s ss ih =>
    cases ss' with
    | nil => cases hss
    | cons s' ss' =>
      rw [List.map_cons, List.map_cons, List.cons.injEq] at hss
      obtain ⟨htext, hrest⟩ := hss
      obtain ⟨⟨hcr, hm⟩, htail⟩ := List.forall_mem_cons.mp h
      rw [readSegments, readSegments, htext, readSegment_crlf number hcr hm, ih htail hrest]
      cases readSegment .standard number s.text with
      | error fault => rfl
      | ok m => cases readSegments .standard (number + 1) ss <;> rfl

/-- **Line ends do not matter.** In an archive without carriage returns, and in which no word opens,
a carriage return is put in front of every line feed. Then its segments are the same ones with these
line ends, and it is read as the same messages, but for the line ends of their bodies, or cannot be
read because of the same segment and the same fault in it. -/
theorem messages_crlf (hcr : '\r' ∉ t) (hm : Unmarked t) :
    (segments (crlf t)).map Segment.text = (segments t).map (fun s => crlf s.text) ∧
      messages .standard (crlf t) =
        (messages .standard t).map (List.map fun m => { m with body := crlf m.body }) := by
  have hsegments := map_text_segments_crlf hcr
  refine ⟨hsegments, readSegments_crlf (fun s hs => ?_) hsegments 0⟩
  have hpart := isInfix_of_mem_segments hs
  exact ⟨fun h => hcr (hpart.subset h), hm.of_infix hpart⟩

/-- Two messages, with a folded header and an escape in the first one, and no line end behind the
second one. -/
def folded : Text :=
  "From a  d\nMessage-Id: 1\nSubject: s\n t\n\n>From b\n\n\nFrom c  d\nMessage-Id: 2\n\nx".toList

theorem messages_crlf_folded :
    '\r' ∉ folded ∧ Unmarked folded ∧
      (segments (crlf folded)).map Segment.text = (segments folded).map (fun s => crlf s.text) ∧
      messages .standard (crlf folded) =
        (messages .standard folded).map (List.map fun m => { m with body := crlf m.body }) := by
  have hcr : '\r' ∉ folded := by decide
  have hm : Unmarked folded := unmarked_of_notMem (c := '=') (by decide) (by decide)
  exact ⟨hcr, hm, messages_crlf hcr hm⟩

end Archive
end MailArchive
