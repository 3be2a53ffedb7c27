import MailArchive.Proofs.Address.RoundTrip
import MailArchive.Proofs.Calendar.Ctime
import MailArchive.Proofs.Calendar.Rfc2822
import MailArchive.Proofs.FromLine.Escape
import MailArchive.Proofs.Message.HeaderBlock

/-!
# MailArchive.Proofs.Fragment.Fields

What a fragment is made of: an empty line, the envelope line, the headers that a message is written
with (`Fragment.fields`), an empty line and the escaped body (`plain_eq`). If none of the texts in
front of the body (`Message.headTexts`) has a line end in it, what is written in front of the body
is one line for each header (`lines_head`).
-/

namespace MailArchive

open Text

variable {m : Message} {options : FormatOptions} {date : Text}

namespace Message

/-- The texts of a message that are written in front of its body. -/
def headTexts (m : Message) : List Text :=
  [m.id, m.subject] ++
    (m.author :: m.sender :: m.recipients).flatMap (fun a => [a.name, a.mailbox]) ++
    m.headers.flatMap fun h => [h.name, h.value]

theorem forall_mem_headTexts {P : Text → Prop} :
    (∀ t ∈ m.headTexts, P t) ↔ P m.id ∧ P m.subject ∧
      (∀ a ∈ m.author :: m.sender :: m.recipients, P a.name ∧ P a.mailbox) ∧
      ∀ h ∈ m.headers, P h.name ∧ P h.value := by
  have hpair : ∀ {α : Type} (f g : α → Text) (xs : List α),
      (∀ t ∈ xs.flatMap fun x => [f x, g x], P t) ↔ ∀ x ∈ xs, P (f x) ∧ P (g x) := by
    intro α f g xs
    simp only [List.forall_mem_flatMap, List.forall_mem_cons, List.not_mem_nil,
      IsEmpty.forall_iff, implies_true, and_true]
  unfold headTexts
  rw [List.forall_mem_append, List.forall_mem_append, hpair, hpair]
  simp [and_assoc]

end Message

/-! ## Addresses on a line -/

namespace Address

variable {a : Address} {c : Char}

theorem lf_notMem_quote {name : Text} (h : '\n' ∉ name) : '\n' ∉ quote name := by
  have hescape : '\n' ∉ escape name := by
    intro hmem
    obtain ⟨c, hc, hmem⟩ := List.mem_flatMap.mp hmem
    have hne : c ≠ '\n' := fun he => h (he ▸ hc)
    unfold escapeChar at hmem
    split at hmem
    · simp [hne.symm] at hmem
    · simp [hne.symm] at hmem
  unfold quote
  split
  · simpa using hescape
  · exact h

theorem lf_notMem_bracket {name mailbox : Text} (hn : '\n' ∉ name) (hm : '\n' ∉ mailbox) :
    '\n' ∉ bracket (quote name) mailbox := by
  rw [bracket_eq]
  simp [lf_notMem_quote hn, hm]

theorem lf_notMem_toHeader (hn : '\n' ∉ a.name) (hm : '\n' ∉ a.mailbox) : '\n' ∉ a.toHeader := by
  unfold toHeader
  split
  · exact hm
  · exact lf_notMem_bracket hn hm

theorem lf_notMem_obfuscated (hn : '\n' ∉ a.name) (hm : '\n' ∉ a.mailbox) :
    '\n' ∉ a.obfuscated := by
  unfold obfuscated
  split
  · simpa using notMem_spelledOut (by decide) hm
  · exact lf_notMem_bracket hn (notMem_spelledOut (by decide) hm)

end Address

/-! ## Envelope lines -/

theorem Fragment.envelopeLine_eq (h : '\n' ∉ m.sender.mailbox) :
    ∃ line, '\n' ∉ line ∧
      Fragment.envelopeLine m = FromLine.separator ++ line ++ ['\n'] := by
  have hdate : '\n' ∉ Ctime.write m.date :=
    notMem_of_isDateChar (Ctime.isDateChar_of_mem_write m.date) (by decide)
  refine ⟨m.sender.mailbox ++ ("  ".toList ++ Ctime.write m.date), ?_, ?_⟩
  · simp only [List.mem_append, not_or]
    exact ⟨h, by decide, hdate⟩
  · simp only [Fragment.envelopeLine, List.append_assoc]
    rfl

/-! ## The headers of a message -/

namespace Fragment

/-- The headers that a message is written with. -/
def fields (options : FormatOptions) (m : Message) (date : Text) : List Header :=
  [⟨"From".toList, person options m.author⟩] ++
    (if m.author = m.sender then [] else [⟨"Sender".toList, person options m.sender⟩]) ++
    (if m.recipients.isEmpty then []
      else [⟨"To".toList, join ", ".toList (m.recipients.map Address.toHeader)⟩]) ++
    [⟨"Date".toList, date⟩, ⟨"Subject".toList, m.subject⟩, ⟨"Message-Id".toList, m.id⟩] ++
    m.headers

theorem headerLines_eq :
    (headerLines options m date).flatten = Header.block (fields options m date) := by
  have hlines : (m.headers.map fun h => headerLine h.name h.value) = m.headers.map Header.line :=
    rfl
  unfold headerLines fields Header.block
  rw [hlines]
  split <;> split <;> simp [Header.line]

/-- What holds of every field, and of every other header, holds of all that is written. -/
theorem forall_mem_fields {P : Header → Prop}
    (hauthor : P ⟨"From".toList, person options m.author⟩)
    (hsender : P ⟨"Sender".toList, person options m.sender⟩)
    (hto : m.recipients ≠ [] →
      P ⟨"To".toList, join ", ".toList (m.recipients.map Address.toHeader)⟩)
    (hdate : P ⟨"Date".toList, date⟩) (hsubject : P ⟨"Subject".toList, m.subject⟩)
    (hid : P ⟨"Message-Id".toList, m.id⟩) (hown : ∀ h ∈ m.headers, P h) :
    ∀ h ∈ fields options m date, P h := by
  unfold fields
  simp only [List.forall_mem_append, List.forall_mem_cons]
  refine ⟨⟨⟨⟨⟨hauthor, by simp⟩, ?_⟩, ?_⟩, hdate, hsubject, hid, by simp⟩, hown⟩
  · split
    · simp
    · exact List.forall_mem_singleton.mpr hsender
  · split
    · simp
    · rename_i hne
      exact List.forall_mem_singleton.mpr (hto (by simpa using hne))

theorem lf_notMem_person {a : Address} (hn : '\n' ∉ a.name) (hm : '\n' ∉ a.mailbox) :
    '\n' ∉ person options a := by
  unfold person
  split
  · exact Address.lf_notMem_obfuscated hn hm
  · exact Address.lf_notMem_toHeader hn hm

/-- The names of the headers that the fields of a message are written in. -/
def fieldNames : List String := ["From", "Sender", "To", "Date", "Subject", "Message-Id"]

theorem lf_notMem_fields (options : FormatOptions) (hm : ∀ t ∈ m.headTexts, '\n' ∉ t)
    (hd : Rfc2822.write? m.date = some date) :
    ∀ h ∈ fields options m date, '\n' ∉ h.name ∧ '\n' ∉ h.value := by
  obtain ⟨hid, hsubject, hpeople, hown⟩ := Message.forall_mem_headTexts.mp hm
  obtain ⟨hauthor, hothers⟩ := List.forall_mem_cons.mp hpeople
  obtain ⟨hsender, hrecipients⟩ := List.forall_mem_cons.mp hothers
  have hdate : '\n' ∉ date :=
    notMem_of_isDateChar (Rfc2822.isDateChar_of_mem_write? hd) (by decide)
  have hto : ∀ t ∈ m.recipients.map Address.toHeader, '\n' ∉ t := by
    intro t ht
    obtain ⟨a, ha, rfl⟩ := List.mem_map.mp ht
    exact Address.lf_notMem_toHeader (hrecipients a ha).1 (hrecipients a ha).2
  have hjoin : m.recipients ≠ [] → '\n' ∉ join ", ".toList (m.recipients.map Address.toHeader) := by
    intro hne
    refine join_of_forall (mt List.map_eq_nil_iff.mp hne) hto fun t u ht hu => ?_
    simp only [List.mem_append, not_or]
    exact ⟨ht, by decide, hu⟩
  have hnames : ∀ name ∈ fieldNames, '\n' ∉ name.toList := by decide
  exact forall_mem_fields ⟨hnames _ (by decide), lf_notMem_person hauthor.1 hauthor.2⟩
    ⟨hnames _ (by decide), lf_notMem_person hsender.1 hsender.2⟩
    (fun hne => ⟨hnames _ (by decide), hjoin hne⟩) ⟨hnames _ (by decide), hdate⟩
    ⟨hnames _ (by decide), hsubject⟩ ⟨hnames _ (by decide), hid⟩ hown

/-! ## In front of the body -/

/-- A message as it is written, up to its body. -/
def head (options : FormatOptions) (m : Message) (date : Text) : Text :=
  envelopeLine m ++ (Header.block (fields options m date) ++ ['\n'])

theorem plain_eq : plain options m date =
    '\n' :: ((head options m date ++ FromLine.escape m.body) ++ ['\n']) := by
  simp only [plain, head, headerLines_eq, List.append_assoc]
  rfl

theorem closed_head : Closed (head options m date) := by
  rw [head, ← List.append_assoc]
  exact closed_append_lf

theorem lines_head (hm : ∀ t ∈ m.headTexts, '\n' ∉ t) (hd : Rfc2822.write? m.date = some date) :
    lines (head options m date) =
      envelopeLine m :: ((fields options m date).map Header.line ++ [['\n']]) := by
  obtain ⟨hid, hsubject, hpeople, hown⟩ := Message.forall_mem_headTexts.mp hm
  obtain ⟨line, hline, heq⟩ := envelopeLine_eq (hpeople m.sender (by simp)).2
  have hlf : '\n' ∉ FromLine.separator ++ line := by
    simp only [List.mem_append, not_or]
    exact ⟨by decide, hline⟩
  have hfields : ∀ h ∈ fields options m date, '\n' ∉ h.content := fun h hh =>
    Header.lf_notMem_content (lf_notMem_fields options hm hd h hh).1
      (lf_notMem_fields options hm hd h hh).2
  rw [head, heq, List.append_assoc, List.singleton_append, lines_append_lf hlf,
    lines_append (Header.closed_block _), Header.lines_block hfields]
  rfl

end Fragment
end MailArchive
