import Mathlib.Data.List.Infix
import MailArchive.Proofs.Segment.Partition
import MailArchive.Proofs.Text.LineEnds

/-!
# MailArchive.Proofs.Segment.LineEnds

The segments of an archive with other line ends. The boundaries are the same lines, since it depends
neither on the end of a line whether it begins with `From ` nor whether it is blank
(`ArchiveLine.map_isBoundary_place_crlf`). What stands between two boundaries has the other line
ends too (`span_crlf`), and so have the segments (`map_text_segments_crlf`).
-/

namespace MailArchive

open Text

variable {t : Text} {ls : List Text}

theorem FromLine.isSeparator_crlf (line : Text) : isSeparator (crlf line) = isSeparator line := by
  rw [isSeparator, isSeparator, startsWith, startsWith, strip?_crlf (by decide), Option.isSome_map]

theorem Text.dropMark_crlf (t : Text) : dropMark (crlf t) = crlf (dropMark t) := by
  cases t with
  | nil => rfl
  | cons c t =>
    by_cases hc : c = '\n'
    · rw [hc, crlf_cons_lf]
      rfl
    · by_cases hmark : c = byteOrderMark
      · rw [hmark]
        rfl
      · have hself : ∀ u, dropMark (c :: u) = c :: u := fun u => if_neg (by simpa using hmark)
        rw [crlf_cons hc, hself, hself, crlf_cons hc]

theorem Text.dropMark_isSuffix (t : Text) : dropMark t <:+ t := by
  unfold dropMark
  split
  · exact List.tail_suffix t
  · exact List.suffix_refl t

/-! ## Boundaries -/

/-- The same lines are boundaries, wherever they are placed. -/
theorem ArchiveLine.map_isBoundary_place_crlf (h : ∀ line ∈ ls, '\r' ∉ line) (at₁ at₂ : Nat)
    (afterBlank : Bool) :
    (place at₁ afterBlank (ls.map crlf)).map isBoundary =
      (place at₂ afterBlank ls).map isBoundary := by
  induction ls generalizing at₁ at₂ afterBlank with
  | nil => rfl
  | cons line ls ih =>
    obtain ⟨hline, hls⟩ := List.forall_mem_cons.mp h
    rw [List.map_cons, place_cons, place_cons, List.map_cons, List.map_cons,
      isBlankLine_crlf hline, ih hls, FromLine.isSeparator_crlf]

/-! ## Segments -/

theorem span_isInfix (ls : List Text) (i : Nat) (next : Option Nat) :
    span ls i next <:+: ls.flatten := by
  cases next with
  | none =>
    exact (dropTerminator_isPrefix _).isInfix.trans (List.drop_suffix i ls).isInfix.flatten
  | some j =>
    have hlines : (ls.take (j - 1)).drop i <:+: ls :=
      (List.drop_suffix i _).isInfix.trans (List.take_prefix _ ls).isInfix
    exact (dropTerminator_isPrefix _).isInfix.trans hlines.flatten

theorem span_crlf (h : ∀ line ∈ ls, '\r' ∉ line) (i : Nat) (next : Option Nat) :
    span (ls.map crlf) i next = crlf (span ls i next) := by
  have hpart : ∀ part : List Text, part ⊆ ls →
      dropTerminator (part.map crlf).flatten = crlf (dropTerminator part.flatten) := by
    intro part hsub
    rw [← crlf_flatten, dropTerminator_crlf]
    intro hmem
    obtain ⟨line, hline, hcr⟩ := List.mem_flatten.mp hmem
    exact h line (hsub hline) hcr
  cases next with
  | none =>
    rw [span, span, ← List.map_drop, hpart _ (List.drop_subset i ls)]
  | some j =>
    rw [span, span, ← List.map_take, ← List.map_drop,
      hpart _ (List.Subset.trans (List.drop_subset i _) (List.take_subset _ ls))]

/-- What a segment of an archive is, by its number. -/
theorem text_getElem?_segments (t : Text) (n : Nat) :
    (segments t)[n]?.map Segment.text =
      let starts := (ArchiveLine.ofText t).findIdxs ArchiveLine.isBoundary
      starts[n]?.map fun i => span (lines (dropMark t)) i starts[n + 1]? := by
  rw [segments, Cursor.start, Cursor.text_segments, ArchiveLine.ofText_eq,
    ArchiveLine.map_text_place]

theorem isInfix_of_mem_segments {s : Segment} (h : s ∈ segments t) : s.text <:+: t := by
  obtain ⟨n, hn⟩ := List.mem_iff_getElem?.mp h
  have htext := text_getElem?_segments t n
  rw [hn, Option.map_some] at htext
  obtain ⟨i, -, hi⟩ := Option.map_eq_some_iff.mp htext.symm
  have hspan := span_isInfix (lines (dropMark t)) i
    ((ArchiveLine.ofText t).findIdxs ArchiveLine.isBoundary)[n + 1]?
  rw [hi, flatten_lines] at hspan
  exact hspan.trans (dropMark_isSuffix t).isInfix

theorem map_text_segments_crlf (h : '\r' ∉ t) :
    (segments (crlf t)).map Segment.text = (segments t).map fun s => crlf s.text := by
  have hlines : ∀ line ∈ lines (dropMark t), '\r' ∉ line := fun line hline hcr =>
    h ((dropMark_isSuffix t).subset (subset_of_mem_lines hline hcr))
  have hstarts : (ArchiveLine.ofText (crlf t)).findIdxs ArchiveLine.isBoundary =
      (ArchiveLine.ofText t).findIdxs ArchiveLine.isBoundary := by
    have hsame : ∀ xs : List ArchiveLine,
        (xs.map ArchiveLine.isBoundary).findIdxs id = xs.findIdxs ArchiveLine.isBoundary :=
      fun xs => List.findIdxs_map
    rw [← hsame, ← hsame, ArchiveLine.ofText_eq, ArchiveLine.ofText_eq, dropMark_crlf, lines_crlf,
      ArchiveLine.map_isBoundary_place_crlf hlines]
  refine List.ext_getElem? fun n => ?_
  have htext := congrArg (Option.map crlf) (text_getElem?_segments t n)
  rw [List.getElem?_map, text_getElem?_segments, hstarts, dropMark_crlf, lines_crlf,
    List.getElem?_map]
  rw [Option.map_map, Option.map_map] at htext
  refine Eq.trans ?_ htext.symm
  exact congrArg (fun f => Option.map f _) (funext fun i => span_crlf hlines i _)

end MailArchive
