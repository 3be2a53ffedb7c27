import MailArchive.Proofs.Archive.Append
import MailArchive.Proofs.Message.Parsed
import MailArchive.Proofs.Message.RoundTrip
import MailArchive.Proofs.Message.Unmarked

/-!
# MailArchive.Proofs.Archive.Readable

An archive stays readable when a message is added that was read from a text of its own
(`messages_append_parsed`), and the message keeps its place among the others: its identifier and the
one it replies to are looked up in headers that are as they were but for blanks around their values
and quotation marks in front of names that have a blank in them (`Header.find?_restored`). No word
of the message's own may be closed on its line, nor become so by what is written there, since
nothing keeps such a word from being decoded (`not_messages_append_parsed`).
-/

namespace MailArchive

open Text

variable {m new : Message} {options : FormatOptions} {date a e : Text} {ms : List Message}

/-! ## Headers -/

namespace Header

variable {hs : List Header} {name : Text}

theorem sameName_iff {a b : Text} : sameName a b = true ↔ a.map Char.toLower = b.map Char.toLower :=
  beq_iff_eq

theorem sameName_unescapeLine (h : ' ' ∉ name.map Char.toLower) (n : Text) :
    sameName (FromLine.unescapeLine n) name = sameName n name := by
  rcases FromLine.unescapeLine_cases n with heq | ⟨hquoted, heq⟩
  · rw [heq]
  · have hblank : ' ' ∈ FromLine.unescapeLine n := by
      by_contra hno
      rw [FromLine.isQuoted_of_notMem hno] at hquoted
      cases hquoted
    have hother : ∀ u : Text, ' ' ∈ u → sameName u name = false := by
      intro u hu
      rw [Bool.eq_false_iff, ne_eq, sameName_iff]
      intro hsame
      exact h (hsame ▸ List.mem_map.mpr ⟨' ', hu, rfl⟩)
    rw [hother _ hblank, hother n (heq ▸ List.mem_cons_of_mem _ hblank)]

/-- A header is found again in an archive, but for blanks around its value. -/
theorem find?_restored (h : ' ' ∉ name.map Char.toLower) (hs : List Header) :
    find? name ((hs.map unquoted).map trimmed) = (find? name hs).map trim := by
  have hname : (fun x : Header => sameName x.name name) ∘ (trimmed ∘ unquoted) =
      fun x => sameName x.name name := by
    funext x
    exact sameName_unescapeLine h x.name
  rw [find?, find?, List.map_map, List.find?_map, hname, Option.map_map, Option.map_map]
  rfl

theorem find?_filter (h : ∀ l ∈ lifted, sameName name l = false) :
    find? name (hs.filter (!·.isLifted)) = find? name hs := by
  have hkept : ∀ x : Header, sameName x.name name = true → x.isLifted = false := by
    intro x hx
    rw [isLifted, List.any_eq_false]
    intro l hl hsame
    rw [sameName_iff] at hx hsame
    have hsame' : sameName name l = true := sameName_iff.mpr (hx.symm.trans hsame)
    rw [h l hl] at hsame'
    cases hsame'
  have hsame : (fun x : Header => !x.isLifted && sameName x.name name) =
      fun x => sameName x.name name := by
    funext x
    cases hx : sameName x.name name with
    | false => rw [Bool.and_false]
    | true => simp [hkept x hx]
  rw [find?, find?, List.find?_filter]
  simp only [Bool.decide_and, Bool.decide_eq_true, hsame]

end Header

/-! ## Messages -/

namespace Fragment

theorem isLine_of_mem_fields (options : FormatOptions) (hm : m.IsRead)
    (hd : Rfc2822.write? m.date = some date) : ∀ h ∈ fields options m date, h.IsLine := by
  have hname : ∀ name ∈ fieldNames,
      '\n' ∉ name.toList ∧ ':' ∉ name.toList ∧ trim name.toList = name.toList := by
    decide
  have hfield : ∀ {name : String} {value : Text}, name ∈ fieldNames → '\n' ∉ value →
      Header.IsLine ⟨name.toList, value⟩ := by
    intro name value hmem hvalue
    obtain ⟨hlf, hcolon, htrim⟩ := hname name hmem
    exact ⟨hlf, hcolon, htrim, hvalue⟩
  have hline : ∀ h ∈ fields options m date, '\n' ∉ h.value → h.IsLine :=
    forall_mem_fields (hfield (by decide)) (hfield (by decide)) (fun _ => hfield (by decide))
      (hfield (by decide)) (hfield (by decide)) (hfield (by decide))
      (fun h hh _ => hm.headers_line h hh)
  exact fun h hmem => hline h hmem (lf_notMem_fields options hm.head_lf hd h hmem).2

theorem find?_inReplyTo : Header.find? "In-Reply-To".toList (fields options m date) =
    Header.find? "In-Reply-To".toList m.headers := by
  unfold fields
  split <;> split <;> rfl

theorem parse_restored (options : FormatOptions) (hm : m.IsRead)
    (hd : Rfc2822.write? m.date = some date) :
    ∃ new, Message.parse (restored options m date) = .ok new ∧ new.id = m.id ∧
      new.inReplyTo? = m.inReplyTo? := by
  have hlf := Message.forall_mem_headTexts.mp hm.head_lf
  obtain ⟨envelope, henvelope⟩ := Envelope.split_envelopeLine (hlf.2.2.1 m.sender (by simp)).2
    (Header.block ((fields options m date).map Header.unquoted) ++ '\n' :: kept m.body)
  have hline : ∀ h ∈ (fields options m date).map Header.unquoted, h.IsLine := by
    intro h hmem
    obtain ⟨x, hx, rfl⟩ := List.mem_map.mp hmem
    exact (isLine_of_mem_fields options hm hd x hx).unquoted
  have hdraft := Draft.ofText?_block henvelope hline (List.cons_ne_nil _ _)
  rw [← restored] at hdraft
  generalize hfields : Draft.mk _ _ _ _ = d at hdraft
  have hheader : ∀ name : String, ' ' ∉ name.toList.map Char.toLower →
      d.header? name = (Header.find? name.toList (fields options m date)).map trim := by
    intro name hname
    rw [Draft.header?, ← hfields]
    exact Header.find?_restored hname _
  have hid : d.id = m.id := by
    rw [Draft.id, hheader "message-id" (by decide), find?_id, Option.map_some, Option.map_some,
      normalizeId_trim, hm.id_normal]
    rfl
  have hreply : d.toMessage.inReplyTo? = m.inReplyTo? := by
    have hfilter : d.toMessage.header? "In-Reply-To".toList = d.header? "In-Reply-To" :=
      Header.find?_filter (by decide)
    have hnormal : normalizeId ∘ trim = normalizeId := funext normalizeId_trim
    rw [Message.inReplyTo?, hfilter, hheader "In-Reply-To" (by decide), find?_inReplyTo,
      Option.map_map, hnormal]
    rfl
  have hne : d.id ≠ [] := by
    rw [hid]
    exact hm.id_ne
  exact ⟨d.toMessage, Message.parse_eq_ok_iff.mpr ⟨d, hdraft, hne, rfl⟩, hid, hreply⟩

end Fragment

/-! ## Archives -/

namespace Archive

/-- **An archive stays readable.** A message that was read from a text of its own can be added to an
archive that can be read: the archive is read with one more message, which has the same identifier
and replies to the same message. The one condition is that no line of what is written for the
message has the opening of a word in it that is closed on the line, or becomes so by a word that is
written behind it; this is so if no text of the message has an opening in it
(`Fragment.unmarked_plain`). -/
theorem messages_append_parsed (options : FormatOptions) (ha : Closed a)
    (hms : messages .standard a = .ok ms) (hm : Message.parse e = .ok m)
    (hyear : 0 ≤ m.date.date.year ∧ m.date.date.year ≤ 9999)
    (hwords : ∀ date, Rfc2822.write? m.date = some date →
      EncodedWord.Wordless (Fragment.plain options m date)) :
    ∃ fragment new, Fragment.format? options m = some fragment ∧
      messages .standard (a ++ fragment) = .ok (ms ++ [new]) ∧
      new.id = m.id ∧ new.inReplyTo? = m.inReplyTo? := by
  have hread := Message.isRead_of_parse hm
  have hd := Rfc2822.write?_eq_some_iff.mpr ⟨hyear, rfl⟩
  obtain ⟨new, hnew, hid, hreply⟩ := Fragment.parse_restored options hread hd
  have hdecode := Fragment.decode_written hread.head_lf hd
    (Fragment.wordless_restored hread.head_lf hd (hwords _ hd))
  have hmore := messages_append_written .standard hread.head_lf hd
    ⟨_, hdecode, (parse_standard _).trans hnew⟩ ha.dropMark (.inl rfl)
  rw [hms] at hmore
  exact ⟨_, new, Fragment.format?_eq_some_iff.mpr ⟨_, hd, rfl⟩, hmore, hid, hreply⟩

/-- A reply that is not had back as it is, and in which a word opens that nothing closes. -/
def careless : Message where
  id := "<1>".toList
  author := .empty
  sender := .empty
  recipients := [⟨"a, b".toList, "c@d".toList⟩]
  date := .epoch
  subject := []
  headers := [⟨">From a b".toList, "c".toList⟩, ⟨"In-Reply-To".toList, "é <0>".toList⟩, ⟨[], []⟩]
  body := "From here =?utf-8?b?\n\r".toList

theorem messages_append_parsed_careless :
    messages .standard "From a\nMessage-Id: <0>\n\n\n".toList =
        .ok [Message.new "<0>".toList ⟨[], "a".toList⟩] ∧
      ∃ fragment new, Fragment.format? {} careless = some fragment ∧
        messages .standard ("From a\nMessage-Id: <0>\n\n\n".toList ++ fragment) =
          .ok [Message.new "<0>".toList ⟨[], "a".toList⟩, new] ∧
        new.id = "<1>".toList ∧ new.inReplyTo? = some "<0>".toList := by
  have hms : messages .standard "From a\nMessage-Id: <0>\n\n\n".toList =
      .ok [Message.new "<0>".toList ⟨[], "a".toList⟩] := by decide +kernel
  have hm : Message.parse
      (">From a b: c\nMessage-ID: x\n <1> y\nIn-Reply-To:é\n\t<0>\nno header\n" ++
        ": \r\nTo: \"a, b\" <c at d>\n\nFrom here =?utf-8?b?\n\r").toList = .ok careless := by
    decide +kernel
  have hd : Rfc2822.write? careless.date = some "Thu, 1 Jan 1970 00:00:00 +0000".toList := by
    decide
  have hwords : ∀ date, Rfc2822.write? careless.date = some date →
      EncodedWord.Wordless (Fragment.plain {} careless date) := by
    intro date h
    obtain rfl := Option.some.inj (hd.symm.trans h)
    decide +kernel
  have hreply : careless.inReplyTo? = some "<0>".toList := by decide
  obtain ⟨fragment, new, hf, hread, hid, hsame⟩ :=
    messages_append_parsed {} (by decide) hms hm (by decide) hwords
  exact ⟨hms, fragment, new, hf, hread, hid, hsame.trans hreply⟩

/-- A message with a word in it that stands for nothing. -/
def garbled : Message :=
  { Message.new "1".toList .empty with body := "=?utf-8?b?@@@?=\n".toList }

/-- A word that stands in the text a message is read from is written as it is, but decoded when the
archive is read. If it cannot be, nor can the archive. -/
theorem not_messages_append_parsed :
    ¬ ∀ (options : FormatOptions) (a e : Text) (ms : List Message) (m : Message), Closed a →
      messages .standard a = .ok ms → Message.parse e = .ok m →
      0 ≤ m.date.date.year ∧ m.date.date.year ≤ 9999 →
      ∃ fragment new, Fragment.format? options m = some fragment ∧
        messages .standard (a ++ fragment) = .ok (ms ++ [new]) ∧
        new.id = m.id ∧ new.inReplyTo? = m.inReplyTo? := by
  intro h
  have hm : Message.parse "Message-Id: 1\n\n=?utf-8?b?@@@?=\n".toList = .ok garbled := by
    decide +kernel
  have hread : (messages .standard ((Fragment.format? {} garbled).getD [])).toOption = none := by
    decide +kernel
  obtain ⟨fragment, new, hf, hmessages, _⟩ :=
    h {} [] _ [] garbled closed_nil (by decide +kernel) hm (by decide)
  rw [hf, Option.getD_some] at hread
  rw [List.nil_append] at hmessages
  rw [hmessages] at hread
  cases hread

end Archive
end MailArchive
