import Mathlib.Tactic.MkIffOfInductiveProp
import MailArchive.Fragment
import MailArchive.Message.HeaderBlock
import MailArchive.Proofs.Text.Cut
import MailArchive.Proofs.Text.Lines
import MailArchive.Proofs.Text.Trim

/-!
# MailArchive.Proofs.Message.HeaderBlock

Headers written one on a line and read back. A header of which neither part has a line end and whose
name is trimmed and without a colon (`Header.IsLine`) is had back from its line but for the blanks
around its value (`pushLine_line`), so a block of such lines gives the headers again
(`unfold_block`), and the empty line behind it ends it (`splitBlock_block`). A header whose name is
a printable word and whose value is trimmed (`Header.IsPlain`) is had back as it is.
-/

namespace MailArchive
namespace Header

open Text

variable {h : Header} {hs : List Header}

/-! ## Lines -/

/-- Whether the name of a header is had back from the line it is written on. -/
@[mk_iff]
structure IsLine (h : Header) : Prop where
  name_lf : '\n' ∉ h.name
  name_colon : ':' ∉ h.name
  name_trim : trim h.name = h.name
  value_lf : '\n' ∉ h.value

/-- Whether a header is had back from the line it is written on. -/
@[mk_iff]
structure IsPlain (h : Header) : Prop where
  name_ne : h.name ≠ []
  name_print : ∀ c ∈ h.name, 33 ≤ c.toNat ∧ c.toNat ≤ 126 ∧ c ≠ ':'
  value_lf : '\n' ∉ h.value
  value_trim : trim h.value = h.value

/-- The header without the blanks around its value. -/
def trimmed (h : Header) : Header := ⟨h.name, trim h.value⟩

theorem not_blank_of_mem_name (hh : h.IsPlain) {c : Char} (hc : c ∈ h.name) :
    isBlank c = false := by
  have hprint := hh.name_print c hc
  simp [isBlank]
  omega

theorem IsPlain.isLine (hh : h.IsPlain) : h.IsLine where
  name_lf hlf := absurd (hh.name_print '\n' hlf).1 (by decide)
  name_colon hcolon := (hh.name_print ':' hcolon).2.2 rfl
  name_trim := trim_eq_self_of_forall fun c hc => not_blank_of_mem_name hh hc
  value_lf := hh.value_lf

theorem IsPlain.trimmed_eq (hh : h.IsPlain) : h.trimmed = h := by
  rw [trimmed, hh.value_trim]

/-- What a header line holds in front of its end. -/
def content (h : Header) : Text := h.name ++ ':' :: ' ' :: h.value

def line (h : Header) : Text := Fragment.headerLine h.name h.value

def block (hs : List Header) : Text := (hs.map line).flatten

theorem line_eq (h : Header) : h.line = h.content ++ ['\n'] := by
  simp [line, content, Fragment.headerLine]

theorem colon_mem_line (h : Header) : ':' ∈ h.line := by
  simp [line_eq, content]

theorem block_cons (h : Header) (hs : List Header) : block (h :: hs) = h.line ++ block hs := rfl

theorem lf_notMem_content (hn : '\n' ∉ h.name) (hv : '\n' ∉ h.value) : '\n' ∉ h.content := by
  simp only [content, List.mem_append, List.mem_cons, not_or]
  exact ⟨hn, by decide, by decide, hv⟩

theorem IsLine.content_lf (hh : h.IsLine) : '\n' ∉ h.content :=
  lf_notMem_content hh.name_lf hh.value_lf

theorem closed_block (hs : List Header) : Closed (block hs) := by
  induction hs with
  | nil => exact closed_nil
  | cons h hs ih =>
    rw [block_cons, line_eq]
    exact closed_append_lf.append ih

theorem lines_block (hh : ∀ h ∈ hs, '\n' ∉ h.content) : lines (block hs) = hs.map line := by
  induction hs with
  | nil => rfl
  | cons h hs ih =>
    rw [block_cons, line_eq, List.append_assoc, List.singleton_append,
      lines_append_lf (hh h List.mem_cons_self), ← line_eq,
      ih fun x hx => hh x (List.mem_cons_of_mem _ hx), List.map_cons]

/-! ## The end of the block -/

theorem endsBlock_line (h : Header) : endsBlock h.line = false := by
  simp [line_eq, content, endsBlock]

theorem splitBlock_block (hh : ∀ h ∈ hs, '\n' ∉ h.content) (body : Text) :
    splitBlock (block hs ++ '\n' :: body) = (block hs, body) := by
  have hpos : ∀ l ∈ hs.map line, (!endsBlock l) = true := by
    intro l hl
    obtain ⟨h, _, rfl⟩ := List.mem_map.mp hl
    rw [endsBlock_line]
    rfl
  have hlines : lines (block hs ++ '\n' :: body) = hs.map line ++ ['\n'] :: lines body := by
    rw [lines_append (closed_block hs), lines_block hh]
    exact congrArg _ (lines_append_lf (by simp : '\n' ∉ ([] : Text)))
  rw [splitBlock]
  simp only [hlines]
  rw [List.takeWhile_append_of_pos hpos, List.dropWhile_append_of_pos hpos]
  show ((hs.map line ++ []).flatten, (lines body).flatten) = _
  rw [List.append_nil, flatten_lines]
  rfl

/-! ## Reading the lines -/

/-- A carriage return at the end of a value goes with the line end, but it is a blank anyway. -/
theorem dropTerminator_line (h : Header) :
    ∃ rest, dropTerminator h.line = h.name ++ ':' :: rest ∧ trim rest = trim h.value := by
  have hblank : trim (' ' :: h.value) = trim h.value := trim_cons_of_isBlank (by decide) _
  rw [line_eq, content]
  by_cases hcr : h.value.getLast? = some '\r'
  · obtain ⟨value, hvalue⟩ := List.getLast?_eq_some_iff.mp hcr
    refine ⟨' ' :: value, ?_, ?_⟩
    · have hcrlf := dropTerminator_append_crlf (t := h.name ++ ':' :: ' ' :: value)
      rw [hvalue]
      simpa using hcrlf
    · rw [hvalue, trim_append_of_isBlank (by decide), trim_cons_of_isBlank (by decide)]
  · refine ⟨' ' :: h.value, dropTerminator_append_lf fun c hc => ?_, hblank⟩
    rw [List.getLast?_append, List.getLast?_cons, List.getLast?_cons] at hc
    rintro rfl
    cases hl : h.value.getLast? with
    | none => simp [hl] at hc
    | some d =>
      rw [hl] at hc hcr
      exact hcr hc

theorem isIndented_append_colon {name : Text} (h : trim name = name) (rest : Text) :
    isIndented (name ++ ':' :: rest) = false := by
  cases name with
  | nil => rfl
  | cons c name =>
    have hblank := (trim_eq_self_iff.mp h).1 c rfl
    show (c == ' ' || c == '\t') = false
    rw [Bool.or_eq_false_iff, beq_eq_false_iff_ne, beq_eq_false_iff_ne]
    constructor
    · rintro rfl
      cases hblank
    · rintro rfl
      cases hblank

theorem pushLine_line (hh : h.IsLine) (read : List Header) :
    pushLine (dropTerminator h.line) ([], read) = ([], h.trimmed :: read) := by
  obtain ⟨rest, hline, htrim⟩ := dropTerminator_line h
  have hof : ofLine? (h.name ++ ':' :: rest) = some h.trimmed := by
    rw [ofLine?, cut?_singleton hh.name_colon, Option.map_some]
    simp only [hh.name_trim, htrim]
    rfl
  rw [hline, pushLine, isIndented_append_colon hh.name_trim, hof]
  simp [join]

theorem unfold_block (hh : ∀ h ∈ hs, h.IsLine) : unfold (block hs) = hs.map trimmed := by
  have hread : (hs.map fun h => dropTerminator h.line).foldr pushLine ([], []) =
      ([], hs.map trimmed) := by
    induction hs with
    | nil => rfl
    | cons h hs ih =>
      obtain ⟨hhead, htail⟩ := List.forall_mem_cons.mp hh
      rw [List.map_cons, List.foldr_cons, ih htail, pushLine_line hhead, List.map_cons]
  rw [unfold, blockLines, lines_block fun h hmem => (hh h hmem).content_lf, List.map_map]
  exact congrArg Prod.snd hread

theorem map_trimmed (hh : ∀ h ∈ hs, h.IsPlain) : hs.map trimmed = hs := by
  rw [List.map_congr_left fun h hmem => (hh h hmem).trimmed_eq, List.map_id']

theorem trim_block_ne_nil (hne : hs ≠ []) : trim (block hs) ≠ [] := by
  obtain ⟨h, rest, rfl⟩ := List.exists_cons_of_ne_nil hne
  intro hnil
  have hblank := trim_eq_nil_iff.mp hnil ':' (List.mem_append_left _ h.colon_mem_line)
  cases hblank

/-! ## Looking headers up -/

theorem find?_append (name : Text) (hs rest : List Header) :
    find? name (hs ++ rest) = (find? name hs).or (find? name rest) := by
  rw [find?, find?, find?, List.find?_append]
  cases hs.find? fun h => sameName h.name name <;> rfl

theorem find?_eq_none (h : ∀ x ∈ hs, isLifted x = false) {name : Text} (hn : name ∈ lifted) :
    find? name hs = none := by
  rw [find?, Option.map_eq_none_iff, List.find?_eq_none]
  intro x hx hsame
  have hlifted := h x hx
  rw [isLifted, List.any_eq_false] at hlifted
  exact hlifted name hn hsame

end Header
end MailArchive
