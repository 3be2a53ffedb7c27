import Mathlib.Tactic.MkIffOfInductiveProp
import MailArchive.Proofs.Message.Reading

/-!
# MailArchive.Proofs.Message.BrokenLine

Lines among the headers that hold no header. Such a line is passed over, wherever it stands and
whatever is in front of it and behind it (`Header.read_broken`). But it does not end the header
before it. Lines behind it that begin with a space or tab are joined to that header
(`Header.unfold_append`), although they were written to continue the line that is passed over.
`Message.parse_broken` says what is read of a text with such lines in it.
-/

namespace MailArchive

open Text

variable {a b t l : Text} {cs ls : List Text} {envelope : Option Text} {before : List Header}
  {h : Header}

/-- The lines, each with a line feed at its end. -/
def Text.ended (ls : List Text) : Text := (ls.map (· ++ ['\n'])).flatten

theorem Text.ended_cons (l : Text) (ls : List Text) (t : Text) :
    ended (l :: ls) ++ t = l ++ '\n' :: (ended ls ++ t) := by
  simp [ended]

/-! ## Lines that hold no header -/

namespace Header

/-- Whether a line is passed over. -/
@[mk_iff]
structure IsBroken (l : Text) : Prop where
  lf : '\n' ∉ l
  colon : ':' ∉ l
  indented : isIndented l = false
  ends : endsBlock l = false

/-- Whether a line goes on with what is in front of it. -/
@[mk_iff]
structure IsContinuation (l : Text) : Prop where
  lf : '\n' ∉ l
  indented : isIndented l = true

instance (l : Text) : Decidable (IsBroken l) := decidable_of_iff _ (isBroken_iff l).symm

instance (l : Text) : Decidable (IsContinuation l) :=
  decidable_of_iff _ (isContinuation_iff l).symm

theorem isIndented_dropTerminator (l : Text) :
    isIndented (dropTerminator (l ++ ['\n'])) = isIndented l := by
  have hend : isIndented (l ++ ['\n']) = isIndented l := by cases l <;> rfl
  obtain ⟨e, he, ht⟩ := dropTerminator_append (l ++ ['\n'])
  rw [← hend]
  conv_rhs => rw [ht]
  cases dropTerminator (l ++ ['\n']) with
  | nil => rcases he with rfl | rfl | rfl <;> rfl
  | cons c rest => rfl

theorem trim_dropTerminator (t : Text) : trim (dropTerminator t) = trim t := by
  obtain ⟨e, he, ht⟩ := dropTerminator_append t
  have hblank : ∀ c ∈ e, isBlank c = true := by
    rcases he with rfl | rfl | rfl <;> decide
  conv_rhs => rw [ht]
  exact (trim_append_blanks (a := []) (by simp) hblank _).symm

/-- A line that holds no header changes nothing. -/
theorem read_broken (hl : IsBroken l) (t : Text) : read (l ++ '\n' :: t) = read t := by
  have hcolon : ':' ∉ dropTerminator (l ++ ['\n']) := fun hc =>
    absurd ((dropTerminator_isPrefix _).subset hc) (by simp [hl.colon])
  rw [read_lf hl.lf, pushLine_broken ((isIndented_dropTerminator l).trans hl.indented) hcolon]

/-- Lines that go on with what is in front of them wait for a header there. -/
theorem read_continuations (hcs : ∀ c ∈ cs, IsContinuation c) (t : Text) :
    read (ended cs ++ t) = (cs.map trim ++ (read t).1, (read t).2) := by
  induction cs with
  | nil => rfl
  | cons c cs ih =>
    obtain ⟨hc, hrest⟩ := List.forall_mem_cons.mp hcs
    have htrim : trim (dropTerminator (c ++ ['\n'])) = trim c := by
      rw [trim_dropTerminator, trim_append_of_isBlank (by decide)]
    rw [ended_cons, read_lf hc.lf,
      pushLine_indented ((isIndented_dropTerminator c).trans hc.indented), ih hrest, htrim]
    rfl

theorem runs_ended (hls : ∀ l ∈ ls, '\n' ∉ l ∧ endsBlock l = false) : Runs (ended ls) := by
  induction ls with
  | nil => exact runs_nil
  | cons l ls ih =>
    obtain ⟨hl, hrest⟩ := List.forall_mem_cons.mp hls
    exact (runs_line hl.1 hl.2 (.inl rfl)).append (ih hrest)

theorem IsContinuation.ends (hl : IsContinuation l) : endsBlock l = false := by
  have hindented := hl.indented
  cases l with
  | nil => cases hindented
  | cons c l =>
    have hc : c = ' ' ∨ c = '\t' := by simpa [isIndented] using hindented
    exact endsBlock_of_mem List.mem_cons_self (by rcases hc with rfl | rfl <;> decide)

/-- What waits behind some lines is joined to the last header on them. -/
theorem unfold_append (ha : Closed a) (hlast : unfold a = before ++ [h]) (t : Text) :
    unfold (a ++ t) = before ++ ⟨h.name, join [' '] (h.value :: (read t).1)⟩ :: (read t).2 := by
  rw [unfold_eq_read, read_append ha]
  exact congrArg Prod.snd (foldr_pushLine hlast _ _)

/-- Without a colon there is no header. -/
theorem unfold_eq_nil (hcolon : ':' ∉ t) : unfold t = [] := by
  have hread : ∀ ls : List Text, (∀ l ∈ ls, ':' ∉ l) → (ls.foldr pushLine ([], [])).2 = [] := by
    intro ls hls
    induction ls with
    | nil => rfl
    | cons l ls ih =>
      obtain ⟨hl, hrest⟩ := List.forall_mem_cons.mp hls
      rw [List.foldr_cons]
      cases hindented : isIndented l with
      | true =>
        rw [pushLine_indented hindented]
        exact ih hrest
      | false =>
        rw [pushLine_broken hindented hl]
        exact ih hrest
  refine hread _ fun l hl hc => ?_
  obtain ⟨line, hline, rfl⟩ := List.mem_map.mp hl
  exact hcolon (subset_of_mem_lines hline ((dropTerminator_isPrefix line).subset hc))

end Header

/-! ## Messages -/

namespace Message

/-- A text with lines put in among its headers, behind those in front. -/
def textWith (envelope : Option Text) (front : Text) (ls : List Text) (rest : Text) : Text :=
  Envelope.line envelope ++ (front ++ (ended ls ++ rest))

section

variable (henvelope : ∀ line ∈ envelope, '\n' ∉ line) (ha : Header.Runs a)
  (hlast : Header.unfold a = before ++ [h])
  (hstart : envelope = none → ¬ FromLine.separator <+: a)
include henvelope ha hlast hstart

/-- What waits in the lines that were put in is joined to the last header in front of them. -/
theorem ofText?_textWith (hls : ∀ l ∈ ls, '\n' ∉ l ∧ Header.endsBlock l = false) (b : Text) :
    Draft.ofText? (textWith envelope a ls b) = some ⟨envelope.map Envelope.ofLine,
      before ++ ⟨h.name, join [' '] (h.value ::
          (Header.read (ended ls ++ (Header.splitBlock b).1)).1)⟩ ::
        (Header.read (ended ls ++ (Header.splitBlock b).1)).2,
      Header.skipped (a ++ (ended ls ++ (Header.splitBlock b).1)), (Header.splitBlock b).2⟩ := by
  have hcolon : ':' ∈ a := by
    by_contra hnot
    rw [Header.unfold_eq_nil hnot] at hlast
    simp at hlast
  have hsplit : Header.splitBlock (a ++ (ended ls ++ b)) =
      (a ++ (ended ls ++ (Header.splitBlock b).1), (Header.splitBlock b).2) := by
    rw [Header.splitBlock_append ha, Header.splitBlock_append (Header.runs_ended hls)]
  have htrim : trim (a ++ (ended ls ++ (Header.splitBlock b).1)) ≠ [] := by
    intro hnil
    have hblank := trim_eq_nil_iff.mp hnil ':' (List.mem_append_left _ hcolon)
    cases hblank
  -- No line of its own can begin in one part and end in the next.
  have hnext : envelope = none → ¬ FromLine.separator <+: a ++ (ended ls ++ b) := by
    rintro hnone hseparator
    rcases List.eq_nil_or_concat' a with rfl | ⟨u, c, rfl⟩
    · cases hcolon
    obtain rfl : c = '\n' := ha.closed c (by simp)
    rw [List.append_assoc, List.singleton_append, prefix_append_cons_iff (by decide)] at hseparator
    exact hstart hnone (hseparator.trans (List.prefix_append _ _))
  rw [textWith, Draft.ofText?_of_split (Envelope.split_line henvelope hnext) hsplit htrim,
    Header.unfold_append ha.closed hlast]

/-- **What a broken line does.** A line among the headers that holds none, put in behind a header
with lines that go on with it, is passed over: the text is read as if only the other lines had been
put in. These are joined to the last header in front of them, and nothing else is changed, neither
the envelope, nor any other header, nor the body. So all headers are the same as without the lines
exactly if the broken line stands alone. -/
theorem parse_broken (hl : Header.IsBroken l) (hcs : ∀ c ∈ cs, Header.IsContinuation c) (b : Text) :
    parse (textWith envelope a (l :: cs) b) = parse (textWith envelope a cs b) ∧
      ∃ d d' waiting after, Draft.ofText? (textWith envelope a [] b) = some d ∧
        Draft.ofText? (textWith envelope a (l :: cs) b) = some d' ∧
        d.headers = before ++ ⟨h.name, join [' '] (h.value :: waiting)⟩ :: after ∧
        d'.headers =
          before ++ ⟨h.name, join [' '] (h.value :: (cs.map trim ++ waiting))⟩ :: after ∧
        d'.envelope = d.envelope ∧ d'.body = d.body ∧ (d'.headers = d.headers ↔ cs = []) := by
  have hends : ∀ c ∈ cs, '\n' ∉ c ∧ Header.endsBlock c = false := fun c hc =>
    ⟨(hcs c hc).lf, (hcs c hc).ends⟩
  have hnone := ofText?_textWith henvelope ha hlast hstart (List.forall_mem_nil _) b
  have hrest := ofText?_textWith henvelope ha hlast hstart hends b
  have hall := ofText?_textWith henvelope ha hlast hstart
    (List.forall_mem_cons.mpr ⟨⟨hl.lf, hl.ends⟩, hends⟩) b
  rw [ended_cons, Header.read_broken hl] at hall
  constructor
  · rw [parse_of_draft hall, parse_of_draft hrest]
    rfl
  · rw [Header.read_continuations hcs] at hall
    refine ⟨_, _, _, _, hnone, hall, rfl, rfl, rfl, rfl, ?_⟩
    constructor
    · intro hsame
      have hvalue := congrArg Header.value (List.cons.inj (List.append_cancel_left hsame)).1
      exact List.map_eq_nil_iff.mp ((join_append_eq_iff (by simp)).mp hvalue)
    · rintro rfl
      rfl

end

/-- Headers of which the last one is continued already. -/
def continued : Text := "Message-Id: <1>\r\nX: a\n\tb\n".toList

theorem parse_broken_continued :
    Header.Runs continued ∧
      Header.unfold continued =
        [⟨"Message-Id".toList, "<1>".toList⟩] ++ [⟨"X".toList, "a b".toList⟩] ∧
      ¬ FromLine.separator <+: continued ∧ Header.IsBroken "no header\r".toList ∧
      (∀ c ∈ [" more\r".toList, "\tand: more".toList], Header.IsContinuation c) ∧
      parse (textWith none continued
          ["no header\r".toList, " more\r".toList, "\tand: more".toList] " c\n\nbody".toList) =
        parse (textWith none continued
          [" more\r".toList, "\tand: more".toList] " c\n\nbody".toList) ∧
      ∃ d d', Draft.ofText? (textWith none continued [] " c\n\nbody".toList) = some d ∧
        Draft.ofText? (textWith none continued
          ["no header\r".toList, " more\r".toList, "\tand: more".toList]
          " c\n\nbody".toList) = some d' ∧ d'.headers ≠ d.headers := by
  have hruns : Header.Runs continued := ⟨by decide, by decide +kernel⟩
  have hlast : Header.unfold continued =
      [⟨"Message-Id".toList, "<1>".toList⟩] ++ [⟨"X".toList, "a b".toList⟩] := by
    decide +kernel
  have hstart : ¬ FromLine.separator <+: continued := by decide
  have hbroken : Header.IsBroken "no header\r".toList := by decide
  have hcs : ∀ c ∈ [" more\r".toList, "\tand: more".toList], Header.IsContinuation c := by decide
  have henvelope : ∀ line ∈ (none : Option Text), '\n' ∉ line := by simp
  obtain ⟨hsame, d, d', _, _, hd, hd', _, _, _, _, hiff⟩ :=
    parse_broken henvelope hruns hlast (fun _ => hstart) hbroken hcs " c\n\nbody".toList
  exact ⟨hruns, hlast, hstart, hbroken, hcs, hsame, d, d', hd, hd',
    fun h => absurd (hiff.mp h) (by simp)⟩

/-- A line that was written to go on with a broken one becomes a part of the identifier. -/
theorem not_parse_broken :
    ¬ ∀ (envelope : Option Text) (a l : Text) (cs : List Text) (b : Text),
      (∀ line ∈ envelope, '\n' ∉ line) → Header.Runs a → Header.unfold a ≠ [] →
      (envelope = none → ¬ FromLine.separator <+: a) → Header.IsBroken l →
      (∀ c ∈ cs, Header.IsContinuation c ∧ trim c ≠ []) →
      (∀ line ∈ (lines b).head?, isIndented line = false ∧ ':' ∈ line) →
      parse (textWith envelope a (l :: cs) b) = parse (textWith envelope a [] b) := by
  intro h
  have hsame := h none "Message-Id: 1\n".toList "broken".toList [" more".toList]
    "Subject: s\n\n".toList (by simp) ⟨by decide, by decide⟩ (by decide) (by decide) (by decide)
    (by decide) (by decide)
  have hdiffer : parse (textWith none "Message-Id: 1\n".toList
      ["broken".toList, " more".toList] "Subject: s\n\n".toList) ≠
    parse (textWith none "Message-Id: 1\n".toList [] "Subject: s\n\n".toList) := by decide +kernel
  exact hdiffer hsame

end Message
end MailArchive
