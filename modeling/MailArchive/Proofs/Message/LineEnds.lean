import MailArchive.Message.Parser
import MailArchive.Proofs.Text.Cut
import MailArchive.Proofs.Text.LineEnds

/-!
# MailArchive.Proofs.Message.LineEnds

Reading a message does not depend on its line ends. Whatever is read line by line, the envelope and
the headers, is read without the ends of the lines (`Envelope.split_crlf`, `Header.unfold_crlf`),
and the empty line behind the headers is empty with both ends (`Header.splitBlock_crlf`). Only the
body is taken as it stands. So `Message.parse_crlf`: the same message but for the line ends of its
body, or the same fault.
-/

namespace MailArchive

open Text

variable {t : Text}

namespace Envelope

theorem ofLine_append_cr (line : Text) : ofLine (line ++ ['\r']) = ofLine line := by
  rw [ofLine, ofLine, trim_append_of_isBlank (by decide)]

theorem split_crlf (t : Text) : split (crlf t) = ((split t).1, crlf (split t).2) := by
  rw [split, split, strip?_crlf (by decide)]
  cases strip? FromLine.separator t with
  | none => rfl
  | some rest =>
    rw [Option.map_some]
    by_cases hlf : '\n' ∈ rest
    · obtain ⟨line, after, rfl, hline⟩ := List.eq_append_cons_of_mem hlf
      have hcr : '\n' ∉ line ++ ['\r'] := by simp [hline]
      rw [crlf_append_lf hline]
      simp only [cut?_singleton hline, cut?_singleton hcr, ofLine_append_cr]
    · have hnone : cut? ['\n'] rest = none :=
        (cut?_eq_none_iff (by simp)).mpr fun h => hlf (h.subset (List.mem_singleton_self _))
      rw [crlf_of_notMem hlf]
      simp only [hnone]
      rfl

end Envelope

namespace Header

theorem endsBlock_crlf (line : Text) : endsBlock (crlf line) = endsBlock line :=
  all_crlf (by decide) line

theorem splitBlock_crlf (t : Text) :
    splitBlock (crlf t) = (crlf (splitBlock t).1, crlf (splitBlock t).2) := by
  have hends : (fun line => !endsBlock line) ∘ crlf = fun line => !endsBlock line :=
    funext fun line => congrArg not (endsBlock_crlf line)
  rw [splitBlock, splitBlock, lines_crlf]
  simp only [List.takeWhile_map, List.dropWhile_map, hends, ← List.map_drop, crlf_flatten]

/-- The lines of a block are read without their ends. -/
theorem blockLines_crlf (h : '\r' ∉ t) : blockLines (crlf t) = blockLines t := by
  rw [blockLines, blockLines, lines_crlf, List.map_map]
  refine List.map_congr_left fun line hline => ?_
  have hcr : '\r' ∉ line := fun hmem => h (subset_of_mem_lines hline hmem)
  rw [Function.comp_apply, dropTerminator_crlf hcr,
    crlf_of_notMem (lf_notMem_dropTerminator hline)]

theorem unfold_crlf (h : '\r' ∉ t) : unfold (crlf t) = unfold t := by
  rw [unfold, unfold, blockLines_crlf h]

theorem skipped_crlf (h : '\r' ∉ t) : skipped (crlf t) = skipped t := by
  rw [skipped, skipped, blockLines_crlf h]

theorem splitBlock_subset (t : Text) : (splitBlock t).1 ⊆ t := by
  intro c hc
  obtain ⟨line, hline, hmem⟩ := List.mem_flatten.mp hc
  exact subset_of_mem_lines ((List.takeWhile_prefix _).subset hline) hmem

end Header

namespace Draft

/-- The draft with other line ends in its body. -/
def withReturns (d : Draft) : Draft := { d with body := crlf d.body }

theorem ofText?_crlf (h : '\r' ∉ t) : ofText? (crlf t) = (ofText? t).map withReturns := by
  have hblock : '\r' ∉ (Header.splitBlock (Envelope.split t).2).1 := fun hmem =>
    h ((Envelope.split_isSuffix t).subset (Header.splitBlock_subset _ hmem))
  rw [ofText?, ofText?, Envelope.split_crlf]
  simp only [Header.splitBlock_crlf, isEmpty_trim_crlf, Header.unfold_crlf hblock,
    Header.skipped_crlf hblock]
  split <;> rfl

end Draft

namespace Message

/-- The message with other line ends in its body. -/
def withReturns (m : Message) : Message := { m with body := crlf m.body }

/-- A text with other line ends is read as the same message, but for the line ends of its body. -/
theorem parse_crlf (h : '\r' ∉ t) : parse (crlf t) = (parse t).map withReturns := by
  rw [parse, parse, Draft.ofText?_crlf h]
  cases Draft.ofText? t with
  | none => rfl
  | some d =>
    have hid : d.withReturns.id = d.id := rfl
    rw [Option.map_some]
    simp only [hid]
    split <;> rfl

end Message
end MailArchive
