import MailArchive.Proofs.Calendar.Ctime
import MailArchive.Proofs.Calendar.Rfc2822
import MailArchive.Proofs.Message.Reading
import MailArchive.Proofs.Message.WellFormed

/-!
# MailArchive.Proofs.Message.RoundTrip

Messages read back from their fragments, once the marks of the archive are gone. A well-formed
message is written with headers that are had back from their lines (`isPlain_of_mem_fields`), each
field is found again under the name it was written under (`find?_to`, `find?_subject` and so on),
and the headers that are no fields are left over (`filter_fields`). So the draft of the message is
the message (`toMessage_draft`). `parse_written` is the whole.
-/

namespace MailArchive

open Text

variable {m : Message} {options : FormatOptions} {date body : Text} {hs : List Header}

theorem Envelope.split_envelopeLine (h : '\n' ∉ m.sender.mailbox) (rest : Text) :
    ∃ envelope, Envelope.split (Fragment.envelopeLine m ++ rest) = (some envelope, rest) := by
  obtain ⟨line, hline, heq⟩ := Fragment.envelopeLine_eq h
  have henvelope : ∀ l ∈ some line, '\n' ∉ l := by simpa using hline
  have hsplit := Envelope.split_line henvelope (t := rest) (by simp)
  exact ⟨Envelope.ofLine line, heq ▸ hsplit⟩

/-! ## The headers of a message -/

namespace Fragment

theorem trim_of_normalizeId {t : Text} (h : normalizeId t = t) : trim t = t := by
  rw [← h]
  unfold normalizeId
  simp only
  split
  · exact trim_trim t
  · split
    · exact trim_trim t
    · exact trim_cons_append (by decide) (by decide) _

theorem isPlain_field {name : String} {value : Text} (hname : name ∈ fieldNames)
    (htrim : trim value = value) (hlf : '\n' ∉ value) : Header.IsPlain ⟨name.toList, value⟩ := by
  have hwords : ∀ name ∈ fieldNames,
      name.toList ≠ [] ∧ ∀ c ∈ name.toList, 33 ≤ c.toNat ∧ c.toNat ≤ 126 ∧ c ≠ ':' := by
    decide
  obtain ⟨hne, hprint⟩ := hwords name hname
  exact ⟨hne, hprint, hlf, htrim⟩

theorem isPlain_of_mem_fields (options : FormatOptions) (hm : m.WellFormed)
    (hd : Rfc2822.write? m.date = some date) :
    ∀ h ∈ fields options m date, h.IsPlain := by
  have hto : ∀ t ∈ m.recipients.map Address.toHeader, trim t = t ∧ t ≠ [] := by
    intro t ht
    obtain ⟨a, ha, rfl⟩ := List.mem_map.mp ht
    have haw := hm.recipients a ha
    exact ⟨haw.trim_toHeader, haw.toHeader_ne⟩
  have hjoin : m.recipients ≠ [] →
      trim (join ", ".toList (m.recipients.map Address.toHeader)) =
        join ", ".toList (m.recipients.map Address.toHeader) := by
    intro hne
    have hkept := join_of_forall (mt List.map_eq_nil_iff.mp hne) hto fun t u ht hu =>
      ⟨trim_append_append ht hu ", ".toList, by simp [ht.2]⟩
    exact hkept.1
  have hplain : ∀ h ∈ fields options m date, '\n' ∉ h.value → h.IsPlain :=
    forall_mem_fields (isPlain_field (by decide) (trim_person hm.author))
      (isPlain_field (by decide) (trim_person hm.sender))
      (fun hne => isPlain_field (by decide) (hjoin hne))
      (isPlain_field (by decide) (Rfc2822.trim_write? hd))
      (isPlain_field (by decide) hm.subject_trim)
      (isPlain_field (by decide) (trim_of_normalizeId hm.id_normal))
      (fun h hh _ => hm.headers_plain h hh)
  exact fun h hmem => hplain h hmem (lf_notMem_fields options hm.lf_notMem hd h hmem).2

/-! ## The fields -/

theorem find?_from :
    Header.find? "from".toList (fields options m date) = some (person options m.author) := rfl

/-- The sender is written only if it is not the author. -/
theorem find?_sender (hm : m.WellFormed) :
    Header.find? "sender".toList (fields options m date) =
      if m.author = m.sender then none else some (person options m.sender) := by
  have hnone := Header.find?_eq_none hm.headers_own
    (by decide : "sender".toList ∈ Header.lifted)
  unfold fields
  rw [Header.find?_append, hnone, Option.or_none]
  split
  · split <;> rfl
  · rfl

theorem find?_to (hm : m.WellFormed) :
    Header.find? "to".toList (fields options m date) =
      if m.recipients.isEmpty then none
      else some (join ", ".toList (m.recipients.map Address.toHeader)) := by
  have hnone := Header.find?_eq_none hm.headers_own (by decide : "to".toList ∈ Header.lifted)
  unfold fields
  rw [Header.find?_append, hnone, Option.or_none]
  split <;> split <;> rfl

theorem find?_date : Header.find? "date".toList (fields options m date) = some date := by
  unfold fields
  split <;> split <;> rfl

theorem find?_subject :
    Header.find? "subject".toList (fields options m date) = some m.subject := by
  unfold fields
  split <;> split <;> rfl

theorem find?_id : Header.find? "message-id".toList (fields options m date) = some m.id := by
  unfold fields
  split <;> split <;> rfl

theorem filter_fields (hm : m.WellFormed) :
    (fields options m date).filter (!·.isLifted) = m.headers := by
  have hown : m.headers.filter (!·.isLifted) = m.headers := by
    rw [List.filter_eq_self]
    intro h hmem
    rw [hm.headers_own h hmem]
    rfl
  unfold fields
  rw [List.filter_append, hown]
  split <;> split <;> rfl

/-! ## Whole messages -/

section

variable {d : Draft} (h : d.headers = fields options m date)
include h

theorem header?_draft (name : String) :
    d.header? name = Header.find? name.toList (fields options m date) := by
  rw [Draft.header?, h]

theorem id_draft (hm : m.WellFormed) : d.id = m.id := by
  rw [Draft.id, header?_draft h, find?_id, Option.map_some, hm.id_normal]
  rfl

theorem author_draft (hm : m.WellFormed) : d.author = m.author := by
  rw [Draft.author, header?_draft h, find?_from]
  exact parse_person hm.author

theorem sender_draft (hm : m.WellFormed) : d.sender = m.sender := by
  rw [Draft.sender, header?_draft h, find?_sender hm]
  by_cases hsame : m.author = m.sender
  · rw [if_pos hsame]
    exact (author_draft h hm).trans hsame
  · rw [if_neg hsame]
    exact parse_person hm.sender

theorem recipients_draft (hm : m.WellFormed) : d.recipients = m.recipients := by
  rw [Draft.recipients, header?_draft h, find?_to hm]
  by_cases hempty : m.recipients.isEmpty = true
  · rw [if_pos hempty]
    exact (List.isEmpty_iff.mp hempty).symm
  · rw [if_neg hempty]
    have hread : ∀ a ∈ m.recipients, Address.parse a.toHeader = a := fun a ha =>
      (hm.recipients a ha).parse_toHeader
    show Address.parseList (join ", ".toList (m.recipients.map Address.toHeader)) = m.recipients
    rw [Address.parseList_toHeader (fun a ha => (hm.recipients a ha).mailbox_marks) hread,
      List.filter_eq_self]
    intro a ha
    simpa using List.ne_nil_of_mem (hm.recipients a ha).mailbox_at

theorem date_draft (hm : m.WellFormed) (hd : Rfc2822.write? m.date = some date) :
    d.date = m.date := by
  rw [Draft.date, Draft.dates, header?_draft h, find?_date, Option.toList_some,
    List.singleton_append, List.findSome?_cons,
    Rfc2822.timestamp_read?_write? hd hm.whole_minutes hm.nano]
  rfl

theorem toMessage_draft (hm : m.WellFormed) (hd : Rfc2822.write? m.date = some date)
    (hbody : d.body = m.body) : d.toMessage = m := by
  have hsubject : (d.header? "subject").getD [] = m.subject := by
    rw [header?_draft h, find?_subject]
    rfl
  rw [Draft.toMessage, id_draft h hm, author_draft h hm, sender_draft h hm, recipients_draft h hm,
    date_draft h hm hd, hsubject, h, filter_fields hm, hbody]

end

theorem parse_written (hm : m.WellFormed) (hd : Rfc2822.write? m.date = some date) :
    Message.parse (envelopeLine m ++ (Header.block (fields options m date) ++ '\n' :: m.body)) =
      .ok m := by
  obtain ⟨envelope, henvelope⟩ := Envelope.split_envelopeLine hm.sender.mailbox_lf
    (Header.block (fields options m date) ++ '\n' :: m.body)
  have hplain := isPlain_of_mem_fields options hm hd
  have hdraft := Draft.ofText?_block henvelope (fun h hmem => (hplain h hmem).isLine)
    (List.cons_ne_nil _ _)
  rw [Header.map_trimmed hplain] at hdraft
  generalize hfields : Draft.mk _ _ _ _ = d at hdraft
  have hheaders : d.headers = fields options m date := by rw [← hfields]
  have hid : d.id ≠ [] := by
    rw [id_draft hheaders hm]
    exact hm.id_ne
  have hmessage := toMessage_draft hheaders hm hd (by rw [← hfields])
  exact Message.parse_eq_ok_iff.mpr ⟨d, hdraft, hid, hmessage.symm⟩

end Fragment
end MailArchive
