import Mathlib.Tactic.MkIffOfInductiveProp
import MailArchive.Proofs.Address.List
import MailArchive.Proofs.EncodedWord.RoundTrip
import MailArchive.Proofs.Fragment.Fields

/-!
# MailArchive.Proofs.Message.WellFormed

Well-formed messages (`Message.WellFormed`), of which nothing is lost when they are written to an
archive. What is written in front of their bodies has no line ends in it
(`Message.WellFormed.lf_notMem`), and their addresses fit on a header line in either form
(`Fragment.trim_person`) and are had back from it (`Fragment.parse_person`).
-/

namespace MailArchive

open Text

/-! ## Well-formed messages -/

/-- Whether an address is had back in every place where it can be written. -/
@[mk_iff]
structure Address.WellFormed (a : Address) : Prop where
  name_lf : '\n' ∉ a.name
  name_trim : trim a.name = a.name
  mailbox : ∃ l d, IsMailbox a.mailbox l d
  mailbox_marks : ∀ c ∈ a.mailbox, c ∉ marks

namespace Message

/-- The texts that a message is made of. -/
def texts (m : Message) : List Text :=
  [m.id, m.subject, m.body] ++
    (m.author :: m.sender :: m.recipients).flatMap (fun a => [a.name, a.mailbox]) ++
    m.headers.flatMap fun h => [h.name, h.value]

/-- Whether a message is had back from an archive that it is written to. -/
@[mk_iff]
structure WellFormed (m : Message) : Prop where
  id_ne : m.id ≠ []
  id_lf : '\n' ∉ m.id
  id_normal : normalizeId m.id = m.id
  author : m.author.WellFormed
  sender : m.sender.WellFormed
  recipients : ∀ a ∈ m.recipients, a.WellFormed
  year : 0 ≤ m.date.date.year ∧ m.date.date.year ≤ 9999
  whole_minutes : 60 ∣ m.date.ahead
  nano : m.date.time.nano = 0
  subject_lf : '\n' ∉ m.subject
  subject_trim : trim m.subject = m.subject
  headers_plain : ∀ h ∈ m.headers, h.IsPlain
  headers_own : ∀ h ∈ m.headers, h.isLifted = false
  body_cr : ∀ c ∈ m.body.getLast?, c ≠ '\r'
  unmarked : ∀ t ∈ m.texts, EncodedWord.Unmarked t

end Message

/-! ## Deciding well-formedness -/

/-- A mailbox can only be cut at its first at sign. -/
theorem Address.exists_isMailbox_iff {t : Text} :
    (∃ l d, IsMailbox t l d) ↔ ∃ p ∈ cut? ['@'] t,
      p.1 ≠ [] ∧ p.2 ≠ [] ∧ (∀ c ∈ p.1 ++ p.2, isBlank c = false) ∧ '@' ∉ p.1 ++ p.2 := by
  constructor
  · rintro ⟨l, d, hm⟩
    have hat : '@' ∉ l := fun hl => hm.at_notMem (List.mem_append_left _ hl)
    have hcut : cut? ['@'] t = some (l, d) := by rw [hm.eq, cut?_singleton hat]
    exact ⟨(l, d), hcut, hm.left, hm.right, hm.not_blank, hm.at_notMem⟩
  · rintro ⟨⟨l, d⟩, hcut, hl, hd, hblank, hat⟩
    have heq := cut?_append hcut
    rw [List.append_assoc] at heq
    exact ⟨l, d, heq, hl, hd, hblank, hat⟩

instance (t : Text) : Decidable (EncodedWord.Unmarked t) :=
  inferInstanceAs (Decidable (¬ _))

instance (t : Text) : Decidable (∃ l d, Address.IsMailbox t l d) :=
  decidable_of_iff _ Address.exists_isMailbox_iff.symm

instance (a : Address) : Decidable a.WellFormed :=
  decidable_of_iff _ (Address.wellFormed_iff a).symm

instance (h : Header) : Decidable h.IsPlain :=
  decidable_of_iff _ (Header.isPlain_iff h).symm

instance (m : Message) : Decidable m.WellFormed :=
  decidable_of_iff _ (Message.wellFormed_iff m).symm

/-! ## Addresses on a line -/

namespace Address

variable {a : Address}

theorem WellFormed.mailbox_not_blank (h : a.WellFormed) : ∀ c ∈ a.mailbox, isBlank c = false := by
  obtain ⟨l, d, hm⟩ := h.mailbox
  intro c hc
  rw [hm.eq, List.mem_append, List.mem_cons] at hc
  rcases hc with hc | rfl | hc
  · exact hm.not_blank c (List.mem_append_left _ hc)
  · decide
  · exact hm.not_blank c (List.mem_append_right _ hc)

theorem WellFormed.mailbox_lf (h : a.WellFormed) : '\n' ∉ a.mailbox := fun hlf => by
  have hblank := h.mailbox_not_blank '\n' hlf
  cases hblank

theorem WellFormed.mailbox_trim (h : a.WellFormed) : trim a.mailbox = a.mailbox :=
  trim_eq_self_of_forall h.mailbox_not_blank

theorem WellFormed.mailbox_at (h : a.WellFormed) : '@' ∈ a.mailbox := by
  obtain ⟨l, d, hm⟩ := h.mailbox
  simp [hm.eq]

theorem WellFormed.mailbox_lt (h : a.WellFormed) : '<' ∉ a.mailbox := fun hlt =>
  h.mailbox_marks '<' hlt (by decide)

theorem WellFormed.trim_toHeader (h : a.WellFormed) : trim a.toHeader = a.toHeader := by
  unfold toHeader
  split
  · exact h.mailbox_trim
  · rename_i hne
    exact trim_bracket h.name_trim (by simpa using hne) _

theorem WellFormed.toHeader_ne (h : a.WellFormed) : a.toHeader ≠ [] := by
  unfold toHeader
  split
  · exact List.ne_nil_of_mem h.mailbox_at
  · simp [bracket_eq]

theorem WellFormed.parse_toHeader (h : a.WellFormed) : parse a.toHeader = a :=
  Address.parse_toHeader h.name_trim h.mailbox_trim h.mailbox_lt (.inl h.mailbox_at)

theorem WellFormed.trim_obfuscated (h : a.WellFormed) : trim a.obfuscated = a.obfuscated := by
  unfold obfuscated
  split
  · exact trim_cons_append (by decide) (by decide) _
  · rename_i hne
    exact trim_bracket h.name_trim (by simpa using hne) _

end Address

namespace Fragment

variable {a : Address} {m : Message} {options : FormatOptions} {date : Text}

theorem trim_person (h : a.WellFormed) : trim (person options a) = person options a := by
  unfold person
  split
  · exact h.trim_obfuscated
  · exact h.trim_toHeader

/-- Either form of an address gives it back. -/
theorem parse_person (h : a.WellFormed) : Address.parse (person options a) = a := by
  obtain ⟨l, d, hm⟩ := h.mailbox
  unfold person
  split
  · exact Address.parse_obfuscated h.name_trim hm h.mailbox_lt
  · exact h.parse_toHeader

end Fragment

theorem Message.WellFormed.lf_notMem {m : Message} (hm : m.WellFormed) :
    ∀ t ∈ m.headTexts, '\n' ∉ t := by
  refine Message.forall_mem_headTexts.mpr ⟨hm.id_lf, hm.subject_lf, fun a ha => ?_, fun h hh => ?_⟩
  · have hpeople : ∀ a ∈ m.author :: m.sender :: m.recipients, a.WellFormed :=
      List.forall_mem_cons.mpr ⟨hm.author, List.forall_mem_cons.mpr ⟨hm.sender, hm.recipients⟩⟩
    exact ⟨(hpeople a ha).name_lf, (hpeople a ha).mailbox_lf⟩
  · have hline := (hm.headers_plain h hh).isLine
    exact ⟨hline.name_lf, hline.value_lf⟩

end MailArchive
