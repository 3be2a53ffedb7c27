import MailArchive.Proofs.Archive.Append
import MailArchive.Proofs.Disk.Append
import MailArchive.Proofs.Message.Parsed
import MailArchive.Proofs.Segment.OpenEnd
import MailArchive.Store

/-!
# MailArchive.Proofs.Store.Append

Appending a message to an archive in a file. What is read from the file afterwards is what was read
before, with the fragment of the message behind it (`readArchive_appendMessage`). A message that
reads back by itself is then one more message of the archive, unless the last line of the file is
not ended (`messages_appendMessage_iff`): the empty line that the fragment begins with only ends
that line, so there is no blank line in front of the envelope line and the message is lost in the
one before it.
-/

namespace MailArchive

open Text

variable {d d' : Disk} {path a fragment : Text} {m : Message} {ms : List Message}
  {options : FormatOptions}

/-! ## Archives -/

namespace Archive

/-- What is known of a message that reads back by itself. -/
theorem of_messages_fragment (hf : Fragment.format? options m = some fragment)
    (hself : messages .standard fragment = .ok [m]) :
    ∃ date, fragment = '\n' :: Fragment.written options m date ∧
      Rfc2822.write? m.date = some date ∧ (∀ t ∈ m.headTexts, '\n' ∉ t) ∧
      ∃ plain, decode (dropTerminator (Fragment.written options m date)) = .ok plain ∧
        MessageParser.standard.parse plain = .ok m := by
  obtain ⟨date, hd, rfl⟩ := Fragment.format?_eq_some_iff.mp hf
  obtain ⟨t, ht⟩ := exists_parse_of_mem hself List.mem_cons_self
  have hm : ∀ t ∈ m.headTexts, '\n' ∉ t := (Message.isRead_of_parse ht).head_lf
  obtain ⟨s, htext, hsegments⟩ :=
    Fragment.segments_written options hm hd closed_nil.dropMark (.inl rfl)
  have hread := messages_of_segments .standard hsegments
  rw [messages_nil, htext] at hread
  refine ⟨date, rfl, hd, hm, ?_⟩
  cases hs : readSegment .standard (segments []).length
      (dropTerminator (Fragment.written options m date)) with
  | error fault =>
    rw [hs] at hread
    cases hself.symm.trans hread
  | ok new =>
    rw [hs] at hread
    cases hself.symm.trans hread
    exact readSegment_eq_ok_iff.mp hs

theorem messages_append_iff (hms : messages .standard a = .ok ms)
    (hf : Fragment.format? options m = some fragment)
    (hself : messages .standard fragment = .ok [m]) :
    messages .standard (a ++ fragment) = .ok (ms ++ [m]) ↔
      Closed (dropMark a) ∨
        ∃ b, a = b ++ ['\r'] ∧ Closed (dropMark b) ∧ messages .standard b = .ok ms := by
  obtain ⟨date, rfl, hd, hm, hread⟩ := of_messages_fragment hf hself
  have hadd : ∀ {b blank : Text}, Closed (dropMark b) → IsTerminator blank →
      messages .standard (b ++ (blank ++ Fragment.written options m date)) =
        (messages .standard b).map (· ++ [m]) :=
    messages_append_written .standard hm hd hread
  have hcr : ∀ b : Text, (b ++ ['\r']) ++ '\n' :: Fragment.written options m date =
      b ++ (['\r', '\n'] ++ Fragment.written options m date) := fun b => by simp
  constructor
  · intro h
    by_contra hnot
    rw [not_or] at hnot
    obtain ⟨b, y, rfl, hmark, hb, hy, hne⟩ := exists_openEnd hnot.1
    by_cases hyr : y = ['\r']
    · subst hyr
      have hmore := hadd hb (.inr rfl)
      rw [← hcr, h] at hmore
      cases hold : messages .standard b with
      | error fault =>
        rw [hold] at hmore
        cases hmore
      | ok old =>
        rw [hold] at hmore
        have heq : ms = old := List.append_cancel_right (Except.ok.inj hmore)
        exact hnot.2 ⟨b, rfl, hb, by rw [hold, heq]⟩
    · -- No line is a boundary that was none before, so the number of messages is the same.
      have hlines : lines (Fragment.written options m date) = _ :: Fragment.own options m date :=
        Fragment.lines_written hm hd
      have hlen := length_segments_openEnd hmark hb hy hne hyr hlines
        Fragment.not_isBoundary_of_mem_own
      rw [← length_of_messages h, ← length_of_messages hms, List.length_append,
        List.length_singleton] at hlen
      omega
  · rintro (ha | ⟨b, rfl, hb, hold⟩)
    · have hmore := hadd ha (.inl rfl)
      rw [hms] at hmore
      exact hmore
    · have hmore := hadd hb (.inr rfl)
      rw [← hcr, hold] at hmore
      exact hmore

end Archive

/-! ## Files -/

namespace Store

theorem readArchive_eq_ok_iff : readArchive d path = .ok a ↔ d.read path = .ok a := by
  unfold readArchive
  cases d.read path with
  | error fault => simp [Except.mapError]
  | ok t => simp [Except.mapError]

theorem readArchive_appendMessage (hread : readArchive d path = .ok a)
    (happend : appendMessage d path m options = .ok d') :
    ∃ fragment, Fragment.format? options m = some fragment ∧
      readArchive d' path = .ok (a ++ fragment) := by
  unfold appendMessage at happend
  split at happend
  · cases happend
  · rename_i fragment hf
    refine ⟨fragment, hf, readArchive_eq_ok_iff.mpr ?_⟩
    cases hd : d.append path (Utf8.encode fragment) with
    | error fault =>
      rw [hd] at happend
      cases happend
    | ok after =>
      rw [hd] at happend
      cases happend
      exact Disk.read_append hd (readArchive_eq_ok_iff.mp hread)

/-- **What appending does to an archive.** If a message that reads back by itself is appended to a
file with an archive that can be read, then the messages of the file afterwards are those it held
and the new one, exactly if the last line of the archive was ended, or if there was nothing but a
carriage return on it and the archive reads the same without it. -/
theorem messages_appendMessage_iff (hread : readArchive d path = .ok a)
    (hms : Archive.messages .standard a = .ok ms)
    (hf : Fragment.format? options m = some fragment)
    (hself : Archive.messages .standard fragment = .ok [m])
    (happend : appendMessage d path m options = .ok d') :
    ∃ after, readArchive d' path = .ok after ∧
      (Archive.messages .standard after = .ok (ms ++ [m]) ↔
        Closed (dropMark a) ∨
          ∃ b, a = b ++ ['\r'] ∧ Closed (dropMark b) ∧ Archive.messages .standard b = .ok ms) := by
  obtain ⟨added, hadded, hafter⟩ := readArchive_appendMessage hread happend
  obtain rfl : fragment = added := Option.some.inj (hf.symm.trans hadded)
  exact ⟨a ++ fragment, hafter, Archive.messages_append_iff hms hf hself⟩

def archiveDisk (archive : Text) : Disk where
  entries := [(["a".toList], .file (Utf8.encode archive))]
  working := []

/-- A message that reads back by itself. -/
def note : Message :=
  { Message.new "<1>".toList ⟨"Zoë".toList, "zoe@example.org".toList⟩ with
    body := "From here\n\nFrom there".toList }

theorem exists_fragment_note : ∃ fragment, Fragment.format? {} note = some fragment ∧
    Archive.messages .standard fragment = .ok [note] := by
  have hself : (Fragment.format? {} note).map (Archive.messages .standard) = some (.ok [note]) := by
    decide +kernel
  obtain ⟨fragment, hf, hread⟩ := Option.map_eq_some_iff.mp hself
  exact ⟨fragment, hf, hread⟩

/-- A message without a body, and behind it a line with nothing but a carriage return. -/
def bodiless : Text := "From a\nMessage-Id: <0>\n\r".toList

theorem messages_appendMessage_iff_note :
    ∃ d' after, readArchive (archiveDisk bodiless) "a".toList = .ok bodiless ∧
      Archive.messages .standard bodiless = .ok [Message.new "<0>".toList ⟨[], "a".toList⟩] ∧
      appendMessage (archiveDisk bodiless) "a".toList note {} = .ok d' ∧
      readArchive d' "a".toList = .ok after ∧
      Archive.messages .standard after =
        .ok [Message.new "<0>".toList ⟨[], "a".toList⟩, note] := by
  have hread : readArchive (archiveDisk bodiless) "a".toList = .ok bodiless := by decide +kernel
  have hms : Archive.messages .standard bodiless =
      .ok [Message.new "<0>".toList ⟨[], "a".toList⟩] := by decide +kernel
  have hsame : Archive.messages .standard "From a\nMessage-Id: <0>\n".toList =
      .ok [Message.new "<0>".toList ⟨[], "a".toList⟩] := by decide +kernel
  have hok : (appendMessage (archiveDisk bodiless) "a".toList note {}).toOption.isSome = true := by
    decide +kernel
  obtain ⟨fragment, hf, hself⟩ := exists_fragment_note
  cases happend : appendMessage (archiveDisk bodiless) "a".toList note {} with
  | error failure =>
    rw [happend] at hok
    cases hok
  | ok d' =>
    obtain ⟨after, hafter, hmessages⟩ := messages_appendMessage_iff hread hms hf hself happend
    exact ⟨d', after, hread, hms, rfl, hafter,
      hmessages.mpr (.inr ⟨_, rfl, by decide, hsame⟩)⟩

/-- An archive of which the last line is not ended. -/
def unended : Text := "From a\nMessage-Id: <0>\n\nx".toList

/-- Where the last line is not ended, the new message is lost in it. -/
theorem not_messages_appendMessage :
    ¬ ∀ (d d' : Disk) (path a fragment : Text) (ms : List Message) (m : Message)
      (options : FormatOptions), readArchive d path = .ok a →
      Archive.messages .standard a = .ok ms → Fragment.format? options m = some fragment →
      Archive.messages .standard fragment = .ok [m] →
      appendMessage d path m options = .ok d' →
      ∃ after, readArchive d' path = .ok after ∧
        Archive.messages .standard after = .ok (ms ++ [m]) := by
  intro h
  have hread : readArchive (archiveDisk unended) "a".toList = .ok unended := by decide +kernel
  have hms : Archive.messages .standard unended =
      .ok [{ Message.new "<0>".toList ⟨[], "a".toList⟩ with body := ['x'] }] := by decide +kernel
  have hok : (appendMessage (archiveDisk unended) "a".toList note {}).toOption.isSome = true := by
    decide +kernel
  obtain ⟨fragment, hf, hself⟩ := exists_fragment_note
  cases happend : appendMessage (archiveDisk unended) "a".toList note {} with
  | error failure =>
    rw [happend] at hok
    cases hok
  | ok d' =>
    obtain ⟨after, hafter, hmessages⟩ := h _ d' _ _ fragment _ note {} hread hms hf hself happend
    obtain ⟨added, hadded, hgrown⟩ := readArchive_appendMessage hread happend
    obtain rfl : fragment = added := Option.some.inj (hf.symm.trans hadded)
    obtain rfl := Except.ok.inj (hafter.symm.trans hgrown)
    rcases (Archive.messages_append_iff hms hf hself).mp hmessages with hclosed | ⟨b, hb, _⟩
    · exact absurd hclosed (by decide)
    · have hlast := congrArg List.getLast? hb
      rw [List.getLast?_concat] at hlast
      exact absurd hlast (by decide)

end Store
end MailArchive
