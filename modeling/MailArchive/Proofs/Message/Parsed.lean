import MailArchive.Message.Parser
import MailArchive.Proofs.Address.Parsed
import MailArchive.Proofs.Fragment.Fields

/-!
# MailArchive.Proofs.Message.Parsed

What is known of every message that was read from a text, however it was written
(`Message.isRead_of_parse`). Headers are read line by line, so there is no line end in what they
hold (`Header.isLine_of_mem_unfold`), nor in the addresses and identifiers that are made of them
(`Address.lf_notMem_parse`, `normalizeId_subset`). The body is the end of the text
(`Draft.body_isSuffix`). `Message.of_parse` is the whole.
-/

namespace MailArchive

open Text

variable {t : Text} {c : Char} {m : Message}

/-! ## Identifiers -/

theorem normalizeId_subset (t : Text) : normalizeId t ⊆ t := by
  unfold normalizeId
  simp only
  split
  · exact (trim_isInfix t).subset
  · rename_i before rest hlt
    split
    · exact (trim_isInfix t).subset
    · rename_i inner after hgt
      have hparts : trim t = before ++ ['<'] ++ (inner ++ ['>'] ++ after) := by
        rw [cut?_append hlt, cut?_append hgt]
      intro c hc
      refine (trim_isInfix t).subset ?_
      rw [hparts]
      simp only [List.mem_append, List.mem_cons, List.not_mem_nil, or_false] at hc ⊢
      tauto

theorem normalizeId_trim (t : Text) : normalizeId (trim t) = normalizeId t := by
  rw [normalizeId, normalizeId, trim_trim]

/-- What is compared is in its own normal form. -/
theorem normalizeId_normalizeId (t : Text) : normalizeId (normalizeId t) = normalizeId t := by
  have hself : normalizeId t = trim t ∨
      ∃ inner, '>' ∉ inner ∧ normalizeId t = '<' :: (inner ++ ['>']) := by
    unfold normalizeId
    simp only
    split
    · exact .inl rfl
    · split
      · exact .inl rfl
      · rename_i inner after hgt
        exact .inr ⟨inner, notMem_of_cut? hgt, rfl⟩
  rcases hself with h | ⟨inner, hinner, h⟩
  · rw [h, normalizeId_trim, h]
  · have hlt : cut? ['<'] ('<' :: (inner ++ ['>'])) = some ([], inner ++ ['>']) :=
      cut?_of_strip? (strip?_append ['<'] _)
    have hgt : cut? ['>'] (inner ++ ['>']) = some (inner, []) := cut?_singleton hinner
    rw [h, normalizeId, trim_cons_append (by decide) (by decide)]
    simp only [hlt, hgt]
    rfl

/-! ## Headers -/

namespace Header

theorem lf_notMem_of_mem_blockLines {block line : Text} (h : line ∈ blockLines block) :
    '\n' ∉ line := by
  obtain ⟨l, hl, rfl⟩ := List.mem_map.mp h
  exact lf_notMem_dropTerminator hl

/-- Every header that is read is had back from the line it would be written on. -/
theorem isLine_of_mem_unfold {block : Text} : ∀ h ∈ unfold block, h.IsLine := by
  have hread : ∀ ls : List Text, (∀ line ∈ ls, '\n' ∉ line) →
      (∀ t ∈ (ls.foldr pushLine ([], [])).1, '\n' ∉ t) ∧
        ∀ h ∈ (ls.foldr pushLine ([], [])).2, h.IsLine := by
    intro ls hls
    induction ls with
    | nil => simp
    | cons line ls ih =>
      obtain ⟨hline, hrest⟩ := List.forall_mem_cons.mp hls
      obtain ⟨hwaiting, hheaders⟩ := ih hrest
      rw [List.foldr_cons, pushLine]
      split
      · refine ⟨List.forall_mem_cons.mpr ⟨?_, hwaiting⟩, hheaders⟩
        exact fun hlf => hline ((trim_isInfix line).subset hlf)
      · split
        · exact ⟨hwaiting, hheaders⟩
        · rename_i h hof
          obtain ⟨⟨name, value⟩, hcut, rfl⟩ := Option.map_eq_some_iff.mp hof
          have hparts := cut?_append hcut
          rw [hparts] at hline
          simp only [List.mem_append, not_or] at hline
          have htrim : ∀ {u : Text} {c : Char}, c ∉ u → c ∉ trim u := fun hu hc =>
            hu ((trim_isInfix _).subset hc)
          have hvalue : '\n' ∉ join [' '] (trim value :: (ls.foldr pushLine ([], [])).1) :=
            join_of_forall (List.cons_ne_nil _ _)
              (List.forall_mem_cons.mpr ⟨htrim hline.2, hwaiting⟩) fun t u ht hu => by simp [ht, hu]
          have hname : ':' ∉ trim name := htrim (notMem_of_cut? hcut)
          exact ⟨by simp, List.forall_mem_cons.mpr
            ⟨⟨htrim hline.1.1, hname, trim_trim _, hvalue⟩, hheaders⟩⟩
  exact (hread _ fun line => lf_notMem_of_mem_blockLines).2

theorem mem_of_find? {name : Text} {hs : List Header} (h : find? name hs = some t) :
    ∃ x ∈ hs, x.value = t := by
  obtain ⟨x, hx, rfl⟩ := Option.map_eq_some_iff.mp h
  exact ⟨x, List.mem_of_find?_eq_some hx, rfl⟩

end Header

/-! ## Drafts -/

theorem Envelope.lf_notMem_sender {envelope : Envelope} (h : (split t).1 = some envelope) :
    '\n' ∉ envelope.sender := by
  have hline : ∀ line : Text, '\n' ∉ line → '\n' ∉ (ofLine line).sender := by
    intro line hlf hmem
    exact hlf ((trim_isInfix line).subset ((List.takeWhile_prefix _).subset hmem))
  unfold split at h
  split at h
  · cases h
  · rename_i rest _
    split at h
    · rename_i hcut
      cases h
      refine hline rest fun hlf => ?_
      obtain ⟨a, b, rfl, ha⟩ := List.eq_append_cons_of_mem hlf
      rw [cut?_singleton ha] at hcut
      cases hcut
    · rename_i hcut
      cases h
      exact hline _ (notMem_of_cut? hcut)

namespace Draft

variable {d : Draft}

theorem of_ofText? (h : ofText? t = some d) :
    (∀ h ∈ d.headers, h.IsLine) ∧ ∀ e ∈ d.envelope, '\n' ∉ e.sender := by
  unfold ofText? at h
  cases hsplit : Envelope.split t with
  | mk envelope rest =>
    rw [hsplit] at h
    simp only at h
    split at h
    · cases h
    · cases h
      refine ⟨Header.isLine_of_mem_unfold, fun e he => Envelope.lf_notMem_sender (t := t) ?_⟩
      rw [hsplit]
      exact he

theorem body_isSuffix (h : ofText? t = some d) : d.body <:+ t := by
  unfold ofText? at h
  simp only at h
  split at h
  · cases h
  · cases h
    exact (Header.splitBlock_isSuffix _).trans (Envelope.split_isSuffix t)

section

variable (hline : ∀ h ∈ d.headers, h.IsLine)
include hline

theorem lf_notMem_header? {name : String} (h : d.header? name = some t) : '\n' ∉ t := by
  obtain ⟨x, hx, rfl⟩ := Header.mem_of_find? h
  exact (hline x hx).value_lf

theorem lf_notMem_id : '\n' ∉ d.id := by
  unfold id
  cases h : d.header? "message-id" with
  | none => simp
  | some value => exact fun hlf => lf_notMem_header? hline h (normalizeId_subset _ hlf)

theorem lf_notMem_subject : '\n' ∉ (d.header? "subject").getD [] := by
  cases h : d.header? "subject" with
  | none => simp
  | some value => exact lf_notMem_header? hline h

theorem lf_notMem_author (henvelope : ∀ e ∈ d.envelope, '\n' ∉ e.sender) :
    '\n' ∉ d.author.name ∧ '\n' ∉ d.author.mailbox := by
  unfold author
  split
  · rename_i value h
    exact Address.lf_notMem_parse (lf_notMem_header? hline h)
  · rename_i envelope _ h
    exact Address.lf_notMem_parse (henvelope envelope h)
  · simp [Address.empty]

theorem lf_notMem_sender (henvelope : ∀ e ∈ d.envelope, '\n' ∉ e.sender) :
    '\n' ∉ d.sender.name ∧ '\n' ∉ d.sender.mailbox := by
  unfold sender
  split
  · rename_i value h
    exact Address.lf_notMem_parse (lf_notMem_header? hline h)
  · exact lf_notMem_author hline henvelope

theorem lf_notMem_recipients : ∀ a ∈ d.recipients, '\n' ∉ a.name ∧ '\n' ∉ a.mailbox := by
  unfold recipients
  split
  · rename_i value h
    exact Address.lf_notMem_parseList (lf_notMem_header? hline h)
  · simp

end

theorem mailbox_ne_of_mem_recipients : ∀ a ∈ d.recipients, a.mailbox ≠ [] := by
  unfold recipients
  split
  · exact fun _ => Address.mailbox_ne_of_mem_parseList
  · simp

theorem normalizeId_id (d : Draft) : normalizeId d.id = d.id := by
  unfold id
  cases d.header? "message-id" with
  | none => rfl
  | some value => exact normalizeId_normalizeId value

end Draft

/-! ## Messages -/

/-- What is known of every message that was read. -/
structure Message.IsRead (m : Message) : Prop where
  id_ne : m.id ≠ []
  id_normal : normalizeId m.id = m.id
  head_lf : ∀ t ∈ m.headTexts, '\n' ∉ t
  headers_line : ∀ h ∈ m.headers, h.IsLine
  headers_own : ∀ h ∈ m.headers, h.isLifted = false

/-- However a text is written, what is read from it fits on the lines of a fragment. -/
theorem Message.isRead_of_parse (h : Message.parse t = .ok m) : m.IsRead := by
  obtain ⟨d, hd, hid, rfl⟩ := Message.parse_eq_ok_iff.mp h
  obtain ⟨hline, henvelope⟩ := Draft.of_ofText? hd
  have hheaders : ∀ h ∈ d.toMessage.headers, h ∈ d.headers ∧ h.isLifted = false := by
    intro h hmem
    obtain ⟨hmem, hown⟩ := List.mem_filter.mp hmem
    exact ⟨hmem, by simpa using hown⟩
  have hpeople : ∀ a ∈ d.author :: d.sender :: d.recipients, '\n' ∉ a.name ∧ '\n' ∉ a.mailbox :=
    List.forall_mem_cons.mpr ⟨Draft.lf_notMem_author hline henvelope, List.forall_mem_cons.mpr
      ⟨Draft.lf_notMem_sender hline henvelope, Draft.lf_notMem_recipients hline⟩⟩
  exact {
    id_ne := hid
    id_normal := d.normalizeId_id
    head_lf := forall_mem_headTexts.mpr ⟨Draft.lf_notMem_id hline,
      Draft.lf_notMem_subject hline, hpeople, fun h hmem =>
        ⟨(hline h (hheaders h hmem).1).name_lf, (hline h (hheaders h hmem).1).value_lf⟩⟩
    headers_line := fun h hmem => hline h (hheaders h hmem).1
    headers_own := fun h hmem => (hheaders h hmem).2 }

theorem Message.normalizeId_inReplyTo? (m : Message) :
    ∀ id ∈ m.inReplyTo?, normalizeId id = id := by
  intro id hid
  obtain ⟨value, _, rfl⟩ := Option.map_eq_some_iff.mp hid
  exact normalizeId_normalizeId value

/-- **However a text is written, what is read from it is in order.** The message has an identifier,
which like that of the message it replies to is in the form in which identifiers are compared. No
text in front of its body has a line end in it, so none can pass for a further header when it is
written. The headers that are left have names that are had back from their lines and are none of
those that become fields. Every recipient has a mailbox, and the body is the end of the text as it
stands. -/
theorem Message.of_parse (h : Message.parse t = .ok m) :
    (m.id ≠ [] ∧ normalizeId m.id = m.id ∧ ∀ id ∈ m.inReplyTo?, normalizeId id = id) ∧
      (∀ u ∈ m.headTexts, '\n' ∉ u) ∧
      (∀ x ∈ m.headers, trim x.name = x.name ∧ ':' ∉ x.name ∧
        ∀ name ∈ Header.lifted, sameName x.name name = false) ∧
      (∀ a ∈ m.recipients, a.mailbox ≠ []) ∧ m.body <:+ t := by
  have hread := Message.isRead_of_parse h
  have hnames : ∀ x ∈ m.headers, trim x.name = x.name ∧ ':' ∉ x.name ∧
      ∀ name ∈ Header.lifted, sameName x.name name = false := by
    intro x hx
    have hline := hread.headers_line x hx
    have hown := hread.headers_own x hx
    rw [Header.isLifted, List.any_eq_false] at hown
    exact ⟨hline.name_trim, hline.name_colon, fun name hname => by simpa using hown name hname⟩
  obtain ⟨d, hd, _, rfl⟩ := Message.parse_eq_ok_iff.mp h
  exact ⟨⟨hread.id_ne, hread.id_normal, Message.normalizeId_inReplyTo? _⟩, hread.head_lf, hnames,
    Draft.mailbox_ne_of_mem_recipients, Draft.body_isSuffix hd⟩

namespace Message

/-- A message with a continuation of nothing in front of its headers and lines among them that are
no headers, one of them blank but for a carriage return. Its author is known from the envelope
only. -/
def offhandText : Text :=
  ("From x@y\r\n folded\nno colon\nMESSAGE-id: a <b c> <d>\r\n\tmore\nX \rodd\t: v\r\n\r \r\n" ++
    "In-Reply-To: x <q>\nTo: , \"a\\\\\\\", b\" <x at y>, z <>,\r\n w\nsUBJECT:\n\t \n" ++
    "to: second\n\r\r\nbody\r\n\nFrom x\r").toList

def offhand : Message where
  id := "<b c>".toList
  author := ⟨[], "x@y".toList⟩
  sender := ⟨[], "x@y".toList⟩
  recipients := [⟨"a\\\", b".toList, "x@y".toList⟩, ⟨[], "w".toList⟩]
  date := .epoch
  subject := " ".toList
  headers := [⟨"X \rodd".toList, "v".toList⟩, ⟨"In-Reply-To".toList, "x <q>".toList⟩]
  body := "body\r\n\nFrom x\r".toList

theorem of_parse_offhand :
    Message.parse offhandText = .ok offhand ∧
      (offhand.id ≠ [] ∧ normalizeId offhand.id = offhand.id ∧
        ∀ id ∈ offhand.inReplyTo?, normalizeId id = id) ∧
      (∀ u ∈ offhand.headTexts, '\n' ∉ u) ∧
      (∀ x ∈ offhand.headers, trim x.name = x.name ∧ ':' ∉ x.name ∧
        ∀ name ∈ Header.lifted, sameName x.name name = false) ∧
      (∀ a ∈ offhand.recipients, a.mailbox ≠ []) ∧ offhand.body <:+ offhandText := by
  have h : Message.parse offhandText = .ok offhand := by decide +kernel
  exact ⟨h, of_parse h⟩

end Message
end MailArchive
