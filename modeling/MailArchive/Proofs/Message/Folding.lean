import Mathlib.Tactic.MkIffOfInductiveProp
import MailArchive.Proofs.Message.Reading
import MailArchive.Proofs.Message.WellFormed

/-!
# MailArchive.Proofs.Message.Folding

Headers on more than one line. Any space of a header can be written as a line end and a space or tab
(`Gap`). The words of the value are had back with one space between them wherever the header was
folded, but if it was folded behind its colon the value begins with a space (`Layout.read_text`).
Most fields of a message do not look at blanks in front. So a folded text is read like the same text
on single lines exactly if no header that is kept as it stands was folded behind its colon, and the
first subject was not either (`Message.parse_folded_iff`).
-/

namespace MailArchive

open Text

/-! ## Layouts -/

def Text.lineEnd (returns : Bool) : Text := if returns then ['\r', '\n'] else ['\n']

def Text.indent (tab : Bool) : Char := if tab then '\t' else ' '

/-- What stands in front of a word: a space, or a line end and what the next line begins with. -/
inductive Gap where
  | space
  | fold (returns tab : Bool)
  deriving DecidableEq, Repr

def Gap.text : Gap → Text
  | .space => [' ']
  | .fold returns tab => lineEnd returns ++ [indent tab]

/-- A header on the lines it is written on. -/
structure Layout where
  name : Text
  /-- What stands between the colon and the first word. -/
  gap : Gap
  first : Text
  /-- The other words, each with what stands in front of it. -/
  more : List (Gap × Text)
  /-- Whether the last line ends with a carriage return and a line feed. -/
  returns : Bool
  deriving DecidableEq, Repr

/-- Whether a text is a word of a value. -/
@[mk_iff]
structure IsWord (w : Text) : Prop where
  ne : w ≠ []
  not_blank : ∀ c ∈ w, isBlank c = false

instance (w : Text) : Decidable (IsWord w) := decidable_of_iff _ (isWord_iff w).symm

/-- The words as they are laid out. -/
def Gap.laidOut (words : List (Gap × Text)) : Text := words.flatMap fun p => p.1.text ++ p.2

/-- The words with a space in front of each. -/
def Gap.spaced (words : List (Gap × Text)) : Text := words.flatMap fun p => ' ' :: p.2

namespace Layout

/-- Whether the name of a header is printable and its value is made of words. -/
@[mk_iff]
structure IsPlain (l : Layout) : Prop where
  name_ne : l.name ≠ []
  name_print : ∀ c ∈ l.name, 33 ≤ c.toNat ∧ c.toNat ≤ 126 ∧ c ≠ ':'
  first_word : IsWord l.first
  more_words : ∀ p ∈ l.more, IsWord p.2

instance (l : Layout) : Decidable l.IsPlain := decidable_of_iff _ (isPlain_iff l).symm

def text (l : Layout) : Text :=
  l.name ++ ':' :: (l.gap.text ++ (l.first ++ (Gap.laidOut l.more ++ lineEnd l.returns)))

def block (ls : List Layout) : Text := (ls.map text).flatten

/-- The header on one line. -/
def unfolded (l : Layout) : Layout :=
  { l with gap := .space, more := l.more.map fun p => (.space, p.2) }

def value (l : Layout) : Text := l.first ++ Gap.spaced l.more

/-- The header that is read. If it was folded behind its colon there is nothing on its first line
that the words could be joined to. -/
def header (l : Layout) : Header := ⟨l.name, if l.gap = .space then l.value else ' ' :: l.value⟩

end Layout

variable {u w rest : Text} {words : List (Gap × Text)} {l : Layout} {ls : List Layout}

theorem isTerminator_lineEnd (returns : Bool) : IsTerminator (lineEnd returns) := by
  cases returns
  · exact .inl rfl
  · exact .inr rfl

/-! ## What stands on one line -/

/-- Whether a text can stand on a line as a part of a value. -/
structure IsPiece (u : Text) : Prop where
  solid : trim u = u ∧ u ≠ []
  lf : '\n' ∉ u

theorem IsWord.isPiece (hw : IsWord w) : IsPiece w where
  solid := ⟨trim_eq_self_of_forall hw.not_blank, hw.ne⟩
  lf hlf := absurd (hw.not_blank '\n' hlf) (by decide)

theorem IsPiece.append_word (hu : IsPiece u) (hw : IsWord w) : IsPiece (u ++ ' ' :: w) where
  solid := ⟨trim_append_append hu.solid hw.isPiece.solid [' '], by simp⟩
  lf := by simp [hu.lf, hw.isPiece.lf]

theorem IsPiece.getLast?_append (hu : IsPiece u) (front : Text) :
    ∀ c ∈ (front ++ u).getLast?, c ≠ '\r' := by
  rintro c hc rfl
  have hlast : '\r' ∈ u.getLast? := by
    rw [List.getLast?_append, List.getLast?_eq_some_getLast hu.solid.2] at hc
    rw [List.getLast?_eq_some_getLast hu.solid.2]
    exact hc
  have hblank := (trim_eq_self_iff.mp hu.solid.1).2 '\r' hlast
  cases hblank

namespace Header

/-- A line that goes on with a header is trimmed to its piece, and the words behind it are joined to
it, on whatever lines they are. -/
theorem read_continuation (hwords : ∀ p ∈ words, IsWord p.2) (hu : IsPiece u) (tab returns : Bool)
    (rest : Text) :
    ∃ waiting, read (indent tab :: (u ++ (Gap.laidOut words ++ (lineEnd returns ++ rest)))) =
        (waiting ++ (read rest).1, (read rest).2) ∧
      waiting.flatMap ([' '] ++ ·) = ' ' :: (u ++ Gap.spaced words) := by
  have hline : ∀ {u : Text}, IsPiece u → ∀ tab returns rest,
      read (indent tab :: (u ++ (lineEnd returns ++ rest))) =
        (u :: (read rest).1, (read rest).2) := by
    intro u hu tab returns rest
    have hlf : '\n' ∉ indent tab :: u := by
      cases tab <;> simpa [indent] using hu.lf
    have hindented : isIndented (indent tab :: u) = true := by cases tab <;> rfl
    have htrim : trim (indent tab :: u) = u := by
      rw [trim_cons_of_isBlank (by cases tab <;> decide), hu.solid.1]
    have hread := read_line hlf (hu.getLast?_append [indent tab]) (isTerminator_lineEnd returns)
      rest
    rwa [pushLine_indented hindented, htrim] at hread
  -- A space makes the piece on this line longer, a fold ends it and begins the next one.
  induction words generalizing u tab with
  | nil => exact ⟨[u], hline hu tab returns rest, by simp [Gap.spaced]⟩
  | cons p words ih =>
    obtain ⟨gap, w⟩ := p
    obtain ⟨hw, hmore⟩ := List.forall_mem_cons.mp hwords
    cases gap with
    | space =>
      obtain ⟨waiting, hread, hjoin⟩ := ih hmore (hu.append_word hw) tab
      refine ⟨waiting, ?_, ?_⟩
      · simpa [Gap.laidOut, Gap.text] using hread
      · simpa [Gap.spaced] using hjoin
    | fold returns' tab' =>
      obtain ⟨waiting, hread, hjoin⟩ := ih hmore hw.isPiece tab'
      refine ⟨u :: waiting, ?_, ?_⟩
      · have hfirst := hline hu tab returns'
          (indent tab' :: (w ++ (Gap.laidOut words ++ (lineEnd returns ++ rest))))
        rw [hread] at hfirst
        simpa [Gap.laidOut, Gap.text] using hfirst
      · rw [List.flatMap_cons, hjoin]
        simp [Gap.spaced]

/-- The words of a header are joined wherever it is folded behind its first word. -/
theorem read_pieces {name : Text} (hname : trim name = name) (hcolon : ':' ∉ name)
    (hlf : '\n' ∉ name) (hwords : ∀ p ∈ words, IsWord p.2) (hu : IsPiece u) (returns : Bool)
    (hrest : (read rest).1 = []) :
    read (name ++ ':' :: ' ' :: (u ++ (Gap.laidOut words ++ (lineEnd returns ++ rest)))) =
      ([], ⟨name, u ++ Gap.spaced words⟩ :: (read rest).2) := by
  have hline : ∀ {u : Text}, IsPiece u → ∀ returns rest,
      read (name ++ ':' :: ' ' :: (u ++ (lineEnd returns ++ rest))) =
        ([], ⟨name, join [' '] (u :: (read rest).1)⟩ :: (read rest).2) := by
    intro u hu returns rest
    have hcontent : '\n' ∉ name ++ ':' :: ' ' :: u := by simp [hlf, hu.lf]
    have hlast : ∀ c ∈ (name ++ ':' :: ' ' :: u).getLast?, c ≠ '\r' := by
      simpa using hu.getLast?_append (name ++ [':', ' '])
    have hread := read_line hcontent hlast (isTerminator_lineEnd returns) rest
    rw [pushLine_header hname hcolon, trim_cons_of_isBlank (by decide), hu.solid.1] at hread
    simpa using hread
  induction words generalizing u with
  | nil =>
    rw [Gap.laidOut, List.flatMap_nil, List.nil_append, hline hu, hrest, join_singleton]
    simp [Gap.spaced]
  | cons p words ih =>
    obtain ⟨gap, w⟩ := p
    obtain ⟨hw, hmore⟩ := List.forall_mem_cons.mp hwords
    cases gap with
    | space => simpa [Gap.laidOut, Gap.text, Gap.spaced] using ih hmore (hu.append_word hw)
    | fold returns' tab =>
      obtain ⟨waiting, hread, hjoin⟩ := read_continuation hmore hw.isPiece tab returns rest
      rw [hrest, List.append_nil] at hread
      have hfirst := hline hu returns'
        (indent tab :: (w ++ (Gap.laidOut words ++ (lineEnd returns ++ rest))))
      rw [hread, join_cons, hjoin] at hfirst
      simpa [Gap.laidOut, Gap.text, Gap.spaced] using hfirst

/-- No line of a folded header ends the headers. -/
theorem runs_pieces (hwords : ∀ p ∈ words, IsWord p.2) (hlf : '\n' ∉ u)
    (hends : endsBlock u = false) (returns : Bool) :
    Runs (u ++ (Gap.laidOut words ++ lineEnd returns)) := by
  induction words generalizing u with
  | nil =>
    rw [Gap.laidOut, List.flatMap_nil, List.nil_append]
    exact runs_line hlf hends (isTerminator_lineEnd returns)
  | cons p words ih =>
    obtain ⟨gap, w⟩ := p
    obtain ⟨hw, hmore⟩ := List.forall_mem_cons.mp hwords
    have hwlf := hw.isPiece.lf
    cases gap with
    | space =>
      have hmore' := ih hmore (u := u ++ ' ' :: w) (by simp [hlf, hwlf])
        (endsBlock_of_mem (c := ' ') (by simp) (by decide))
      simpa [Gap.laidOut, Gap.text] using hmore'
    | fold returns' tab =>
      have hindent : indent tab ∉ ['\r', '\n'] := by cases tab <;> decide
      have hindentlf : indent tab ≠ '\n' := fun h => hindent (by simp [h])
      have hnext := ih hmore (u := indent tab :: w) (by simp [hindentlf.symm, hwlf])
        (endsBlock_of_mem List.mem_cons_self hindent)
      have hfirst := runs_line hlf hends (isTerminator_lineEnd returns')
      simpa [Gap.laidOut, Gap.text] using hfirst.append hnext

end Header

/-! ## Headers -/

namespace Layout

theorem IsPlain.plain (hl : l.IsPlain) : Header.IsPlain ⟨l.name, l.first⟩ where
  name_ne := hl.name_ne
  name_print := hl.name_print
  value_lf := hl.first_word.isPiece.lf
  value_trim := hl.first_word.isPiece.solid.1

/-- A header is read with its words, and the headers behind it as they are. -/
theorem read_text (hl : l.IsPlain) (hrest : (Header.read rest).1 = []) :
    Header.read (l.text ++ rest) = ([], l.header :: (Header.read rest).2) := by
  have hline := hl.plain.isLine
  have htext : l.text ++ rest = l.name ++ ':' :: (l.gap.text ++
      (l.first ++ (Gap.laidOut l.more ++ (lineEnd l.returns ++ rest)))) := by
    simp [text]
  rw [htext, header]
  cases hgap : l.gap with
  | space =>
    exact Header.read_pieces hline.name_trim hline.name_colon hline.name_lf hl.more_words
      hl.first_word.isPiece l.returns hrest
  | fold returns tab =>
    obtain ⟨waiting, hread, hjoin⟩ := Header.read_continuation hl.more_words
      hl.first_word.isPiece tab l.returns rest
    have hlast : ∀ c ∈ (l.name ++ [':']).getLast?, c ≠ '\r' := by simp
    have hfirst := Header.read_line (l := l.name ++ [':']) (by simpa using hline.name_lf) hlast
      (isTerminator_lineEnd returns)
      (indent tab :: (l.first ++ (Gap.laidOut l.more ++ (lineEnd l.returns ++ rest))))
    rw [Header.pushLine_header hline.name_trim hline.name_colon, hread, hrest, List.append_nil,
      join_cons, hjoin] at hfirst
    simpa [Gap.text, value, trim, trimStart, trimEnd] using hfirst

theorem read_block (hls : ∀ l ∈ ls, l.IsPlain) : Header.read (block ls) = ([], ls.map header) := by
  induction ls with
  | nil => rfl
  | cons l ls ih =>
    obtain ⟨hl, hrest⟩ := List.forall_mem_cons.mp hls
    have hread := ih hrest
    have hnone : (Header.read (block ls)).1 = [] := by rw [hread]
    have htext := read_text hl hnone
    rw [hread] at htext
    exact htext

theorem runs_block (hls : ∀ l ∈ ls, l.IsPlain) : Header.Runs (block ls) := by
  induction ls with
  | nil => exact Header.runs_nil
  | cons l ls ih =>
    obtain ⟨hl, hrest⟩ := List.forall_mem_cons.mp hls
    have hwords : ∀ p ∈ (l.gap, l.first) :: l.more, IsWord p.2 :=
      List.forall_mem_cons.mpr ⟨hl.first_word, hl.more_words⟩
    have htext := Header.runs_pieces hwords (u := l.name ++ [':'])
      (by simpa using hl.plain.isLine.name_lf)
      (Header.endsBlock_of_mem (c := ':') (by simp) (by decide)) l.returns
    have hhead : Header.Runs l.text := by simpa [text, Gap.laidOut] using htext
    exact hhead.append (ih hrest)

theorem trim_block_ne_nil (hne : ls ≠ []) : trim (block ls) ≠ [] := by
  obtain ⟨l, rest, rfl⟩ := List.exists_cons_of_ne_nil hne
  intro hnil
  have hblank := trim_eq_nil_iff.mp hnil ':' (List.mem_append_left _ (by simp [text]))
  cases hblank

/-! ## The same headers on single lines -/

theorem value_unfolded (l : Layout) : l.unfolded.value = l.value := by
  simp [value, unfolded, Gap.spaced, List.flatMap_map]

theorem header_unfolded (l : Layout) : l.unfolded.header = ⟨l.name, l.value⟩ := by
  rw [header, value_unfolded]
  rfl

theorem header_eq_unfolded_iff (l : Layout) : l.header = l.unfolded.header ↔ l.gap = .space := by
  rw [header_unfolded, header]
  by_cases hgap : l.gap = .space <;> simp [hgap]

theorem IsPlain.unfolded (hl : l.IsPlain) : l.unfolded.IsPlain where
  name_ne := hl.name_ne
  name_print := hl.name_print
  first_word := hl.first_word
  more_words := by
    intro p hp
    obtain ⟨q, hq, rfl⟩ := List.mem_map.mp hp
    exact hl.more_words q hq

theorem trimStart_header (l : Layout) :
    trimStart l.header.value = trimStart l.unfolded.header.value := by
  rw [header_unfolded, header]
  split
  · rfl
  · exact List.dropWhile_cons_of_pos (by decide)

theorem find?_header (name : Text) (ls : List Layout) :
    Header.find? name (ls.map header) =
      (ls.find? fun l => sameName l.name name).map fun l => l.header.value := by
  rw [Header.find?, List.find?_map, Option.map_map]
  rfl

theorem find?_unfolded (name : Text) (ls : List Layout) :
    Header.find? name ((ls.map unfolded).map header) =
      (ls.find? fun l => sameName l.name name).map fun l => l.unfolded.header.value := by
  rw [find?_header, List.find?_map, Option.map_map]
  rfl

end Layout

/-! ## Messages -/

namespace Message

variable {envelope : Option Text} {body : Text}

/-- A text with an envelope line, if there is to be one, headers on one or more lines each, an empty
line and a body. -/
def foldedText (envelope : Option Text) (ls : List Layout) (returns : Bool) (body : Text) : Text :=
  Envelope.line envelope ++ (Layout.block ls ++ (lineEnd returns ++ body))

theorem ofText?_foldedText (henvelope : ∀ line ∈ envelope, '\n' ∉ line)
    (hls : ∀ l ∈ ls, l.IsPlain) (hne : ls ≠ []) (returns : Bool) (body : Text) :
    Draft.ofText? (foldedText envelope ls returns body) = some ⟨envelope.map Envelope.ofLine,
      ls.map Layout.header, Header.skipped (Layout.block ls), body⟩ := by
  have hstart : ¬ FromLine.separator <+: Layout.block ls ++ (lineEnd returns ++ body) := by
    obtain ⟨l, rest, rfl⟩ := List.exists_cons_of_ne_nil hne
    have hname : ' ' ∉ l.name := fun hspace =>
      absurd ((hls l List.mem_cons_self).name_print ' ' hspace).1 (by decide)
    simpa [Layout.block, Layout.text] using Header.not_separator_prefix hname _
  have hsplit : Header.splitBlock (Layout.block ls ++ (lineEnd returns ++ body)) =
      (Layout.block ls, body) := by
    rw [Header.splitBlock_append (Layout.runs_block hls),
      Header.splitBlock_terminator (isTerminator_lineEnd returns), List.append_nil]
  rw [foldedText, Draft.ofText?_of_split (Envelope.split_line henvelope fun _ => hstart) hsplit
    (Layout.trim_block_ne_nil hne), Header.unfold_eq_read, Layout.read_block hls]

/-- The subject is the same exactly if the header it is read from was not folded behind its colon.
-/
theorem subject_unfolded_iff (o : Option Layout) :
    (o.map fun l => l.header.value).getD [] = (o.map fun l => l.unfolded.header.value).getD [] ↔
      ∀ l ∈ o, l.gap = .space := by
  cases o with
  | none => simp
  | some l =>
    rw [Option.map_some, Option.map_some, Option.getD_some, Option.getD_some]
    simp only [Option.mem_some_iff, forall_eq']
    rw [← Layout.header_eq_unfolded_iff, Layout.header_unfolded]
    exact ⟨congrArg (Header.mk l.name), congrArg Header.value⟩

theorem headers_unfolded_iff (ls : List Layout) :
    (ls.map Layout.header).filter (!·.isLifted) =
        ((ls.map Layout.unfolded).map Layout.header).filter (!·.isLifted) ↔
      ∀ l ∈ ls, l.header.isLifted = false → l.gap = .space := by
  have hname : ∀ l : Layout, l.unfolded.header.isLifted = l.header.isLifted := fun _ => rfl
  rw [List.map_map, List.filter_map, List.filter_map]
  have hkept : (fun h : Header => !h.isLifted) ∘ (Layout.header ∘ Layout.unfolded) =
      (fun h : Header => !h.isLifted) ∘ Layout.header := funext fun l => congrArg not (hname l)
  rw [hkept, List.map_inj_left]
  simp only [List.mem_filter, Function.comp_apply, Bool.not_eq_true',
    Layout.header_eq_unfolded_iff, and_imp]

/-- **Where folding matters.** A text with folded headers is read like the same text with each
header on one line, whether that gives a message or a fault, exactly if in case of a message the
first subject was not folded behind its colon, and no header that is no field was. Folds between
words never matter, nor do those behind the colons of all other headers. -/
theorem parse_folded_iff (henvelope : ∀ line ∈ envelope, '\n' ∉ line)
    (hls : ∀ l ∈ ls, l.IsPlain) (hne : ls ≠ []) (returns : Bool) (body : Text) :
    parse (foldedText envelope ls returns body) =
        parse (foldedText envelope (ls.map Layout.unfolded) returns body) ↔
      ∀ m, parse (foldedText envelope (ls.map Layout.unfolded) returns body) = .ok m →
        (∀ l ∈ ls.find? fun l => sameName l.name "subject".toList, l.gap = .space) ∧
          ∀ l ∈ ls, l.header.isLifted = false → l.gap = .space := by
  have hunfolded : ∀ l ∈ ls.map Layout.unfolded, l.IsPlain := by
    intro l hl
    obtain ⟨x, hx, rfl⟩ := List.mem_map.mp hl
    exact (hls x hx).unfolded
  have hdraft := ofText?_foldedText henvelope hunfolded (mt List.map_eq_nil_iff.mp hne) returns body
  have hdraft' := ofText?_foldedText henvelope hls hne returns body
  have hagrees : ∀ name : Text, (Header.find? name (ls.map Layout.header)).map trimStart =
      (Header.find? name ((ls.map Layout.unfolded).map Layout.header)).map trimStart := by
    intro name
    rw [Layout.find?_header, Layout.find?_unfolded, Option.map_map, Option.map_map]
    exact congrArg (Option.map · _) (funext Layout.trimStart_header)
  rw [parse_eq_iff hdraft hdraft' ⟨rfl, rfl, fun name _ => hagrees name⟩, ← subject_unfolded_iff,
    ← Layout.find?_header, ← Layout.find?_unfolded, ← headers_unfolded_iff]
  rfl

/-- Headers folded at every place where it does not matter, the second subject among them. -/
def creased : List Layout :=
  [⟨"Message-ID".toList, .fold true true, "<1>".toList, [], false⟩,
    ⟨"from".toList, .fold false false, "A".toList, [(.fold true false, "<a@b>".toList)], true⟩,
    ⟨"To".toList, .fold false true, "c@d,".toList, [(.fold false false, "e@f".toList)], false⟩,
    ⟨"Date".toList, .fold false false, "2024-01-02".toList,
      [(.fold true true, "10:30:00Z".toList)], true⟩,
    ⟨"Subject".toList, .space, "a:".toList,
      [(.fold false true, ":".toList), (.space, "b\\".toList)], false⟩,
    ⟨"In-Reply-To".toList, .space, "x".toList, [(.fold true true, "<0>".toList)], true⟩,
    ⟨"SUBJECT".toList, .fold false false, "c".toList, [], false⟩]

theorem parse_folded_iff_creased :
    (∀ line ∈ some "c@d\r".toList, '\n' ∉ line) ∧ (∀ l ∈ creased, l.IsPlain) ∧ creased ≠ [] ∧
      parse (foldedText (some "c@d\r".toList) creased true "From x\n".toList) =
        parse (foldedText (some "c@d\r".toList) (creased.map Layout.unfolded) true
          "From x\n".toList) := by
  have henvelope : ∀ line ∈ some "c@d\r".toList, '\n' ∉ line := by decide
  have hplain : ∀ l ∈ creased, l.IsPlain := by decide +kernel
  have hsubject : ∀ l ∈ creased.find? fun l => sameName l.name "subject".toList,
      l.gap = .space := by decide +kernel
  have hothers : ∀ l ∈ creased, l.header.isLifted = false → l.gap = .space := by decide +kernel
  have hsame := parse_folded_iff henvelope hplain (by decide) true "From x\n".toList
  exact ⟨henvelope, hplain, by decide, hsame.mpr fun _ _ => ⟨hsubject, hothers⟩⟩

/-- Headers with a subject that was folded behind its colon. -/
def creasedSubject : List Layout :=
  [⟨"Message-Id".toList, .space, "1".toList, [], false⟩,
    ⟨"Subject".toList, .fold false false, "hello".toList, [], false⟩]

/-- A subject that was folded behind its colon is read with a space in front. -/
theorem not_parse_folded :
    ¬ ∀ (envelope : Option Text) (ls : List Layout) (returns : Bool) (body : Text),
      (∀ line ∈ envelope, '\n' ∉ line) → (∀ l ∈ ls, l.IsPlain) → ls ≠ [] →
      parse (foldedText envelope ls returns body) =
        parse (foldedText envelope (ls.map Layout.unfolded) returns body) := by
  intro h
  have hsame := h none creasedSubject false [] (by simp) (by decide +kernel) (by decide)
  have hdiffer : parse (foldedText none creasedSubject false []) ≠
      parse (foldedText none (creasedSubject.map Layout.unfolded) false []) := by decide +kernel
  exact hdiffer hsame

end Message
end MailArchive
