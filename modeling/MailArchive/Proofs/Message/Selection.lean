import MailArchive.Proofs.Message.Reading
import MailArchive.Proofs.Message.WellFormed

/-!
# MailArchive.Proofs.Message.Selection

Which headers a message is read from. A field is read from the first header with its name, in any
case, and all headers that are no fields are kept as they stand. So two texts whose headers agree on
the first of each kind, and on those that are no fields, are read as the same message, or with the
same fault (`Message.parse_selected`).
-/

namespace MailArchive

open Text

variable {hs hs' : List Header} {envelope : Option Text} {body : Text}

/-! ## The same headers for every field -/

namespace Header

theorem exists_find?_of_isLifted {h : Header} (hh : h.isLifted = true) (hs : List Header) :
    ∃ name ∈ lifted, find? name (h :: hs) = some h.value := by
  obtain ⟨name, hname, hsame⟩ := List.any_eq_true.mp hh
  refine ⟨name, hname, ?_⟩
  rw [find?, List.find?_cons, hsame]
  rfl

/-- Where there is no header at all, there is none to be selected. -/
theorem eq_nil_of_selected (hfields : ∀ name ∈ lifted, find? name [] = find? name hs)
    (hothers : ([] : List Header).filter (!·.isLifted) = hs.filter (!·.isLifted)) : hs = [] := by
  cases hs with
  | nil => rfl
  | cons h hs =>
    cases hh : h.isLifted with
    | true =>
      obtain ⟨name, hname, hfind⟩ := exists_find?_of_isLifted hh hs
      have hnone := hfields name hname
      rw [hfind] at hnone
      cases hnone
    | false => simp [hh] at hothers

end Header

/-! ## Texts of headers -/

namespace Message

/-- A text with an envelope line, if there is to be one, each header on a line of its own, an empty
line and a body. -/
def textOf (envelope : Option Text) (hs : List Header) (body : Text) : Text :=
  Envelope.line envelope ++ (Header.block hs ++ '\n' :: body)

theorem ofText?_textOf (henvelope : ∀ line ∈ envelope, '\n' ∉ line)
    (hplain : ∀ h ∈ hs, h.IsPlain) (hne : hs ≠ []) (body : Text) :
    Draft.ofText? (textOf envelope hs body) =
      some ⟨envelope.map Envelope.ofLine, hs, Header.skipped (Header.block hs), body⟩ := by
  have hstart : ¬ FromLine.separator <+: Header.block hs ++ '\n' :: body := by
    obtain ⟨h, rest, rfl⟩ := List.exists_cons_of_ne_nil hne
    have hname : ' ' ∉ h.name := fun hspace =>
      absurd ((hplain h List.mem_cons_self).name_print ' ' hspace).1 (by decide)
    rw [Header.block_cons, Header.line_eq, Header.content]
    simpa using Header.not_separator_prefix hname _
  have hline : ∀ h ∈ hs, h.IsLine := fun h hh => (hplain h hh).isLine
  rw [textOf, Draft.ofText?_block (Envelope.split_line henvelope fun _ => hstart) hline hne,
    Header.map_trimmed hplain]

/-- **Headers are selected, not listed.** If two texts have the same envelope line and the same
body, if for every field the first header with its name holds the same in both or is missing in
both, and if the headers that are no fields are the same in the same order, then both are read as
the same message, or with the same fault. -/
theorem parse_selected (henvelope : ∀ line ∈ envelope, '\n' ∉ line)
    (hplain : ∀ h ∈ hs ++ hs', h.IsPlain)
    (hfields : ∀ name ∈ Header.lifted, Header.find? name hs = Header.find? name hs')
    (hothers : hs.filter (!·.isLifted) = hs'.filter (!·.isLifted)) (body : Text) :
    parse (textOf envelope hs body) = parse (textOf envelope hs' body) := by
  obtain ⟨hleft, hright⟩ := List.forall_mem_append.mp hplain
  by_cases hnil : hs = []
  · subst hnil
    rw [Header.eq_nil_of_selected hfields hothers]
  have hnil' : hs' ≠ [] := by
    rintro rfl
    exact hnil (Header.eq_nil_of_selected (fun name hname => (hfields name hname).symm)
      hothers.symm)
  have hdraft := ofText?_textOf henvelope hleft hnil body
  have hdraft' := ofText?_textOf henvelope hright hnil' body
  have hsubject := hfields "subject".toList (by decide)
  refine (parse_eq_iff hdraft' hdraft ?_).mpr fun _ _ =>
    ⟨congrArg (Option.getD · []) hsubject, hothers⟩
  exact ⟨rfl, rfl, fun name hname => congrArg _ (hfields name hname)⟩

/-- Headers with a second identifier and a value of nothing. -/
def scattered : List Header :=
  [⟨"SUBJECT".toList, "a: b".toList⟩, ⟨"X-A".toList, "1".toList⟩,
    ⟨"message-ID".toList, "<1>".toList⟩, ⟨"from".toList, "A <a at b>".toList⟩,
    ⟨"x-a".toList, []⟩, ⟨"Message-Id".toList, "<2>".toList⟩]

/-- Headers with a second subject and a second author. -/
def gathered : List Header :=
  [⟨"Message-Id".toList, "<1>".toList⟩, ⟨"From".toList, "A <a at b>".toList⟩,
    ⟨"Subject".toList, "a: b".toList⟩, ⟨"subject".toList, "c".toList⟩,
    ⟨"X-A".toList, "1".toList⟩, ⟨"FROM".toList, "c@d".toList⟩, ⟨"x-a".toList, []⟩]

theorem parse_selected_gathered :
    (∀ line ∈ some "c@d\r".toList, '\n' ∉ line) ∧ (∀ h ∈ scattered ++ gathered, h.IsPlain) ∧
      (∀ name ∈ Header.lifted, Header.find? name scattered = Header.find? name gathered) ∧
      scattered.filter (!·.isLifted) = gathered.filter (!·.isLifted) ∧
      parse (textOf (some "c@d\r".toList) scattered "From x\n".toList) =
        parse (textOf (some "c@d\r".toList) gathered "From x\n".toList) := by
  have henvelope : ∀ line ∈ some "c@d\r".toList, '\n' ∉ line := by decide
  have hplain : ∀ h ∈ scattered ++ gathered, h.IsPlain := by decide +kernel
  have hfields : ∀ name ∈ Header.lifted,
      Header.find? name scattered = Header.find? name gathered := by decide +kernel
  have hothers : scattered.filter (!·.isLifted) = gathered.filter (!·.isLifted) := by
    decide +kernel
  exact ⟨henvelope, hplain, hfields, hothers, parse_selected henvelope hplain hfields hothers _⟩

end Message
end MailArchive
