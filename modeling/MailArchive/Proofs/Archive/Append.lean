import MailArchive.Archive
import MailArchive.Proofs.Fragment.Framing

/-!
# MailArchive.Proofs.Archive.Append

An archive that grows at its end. Its segments are read one after the other, so one more segment
behind them is read last and only if all the others can be read (`messages_of_segments`). A fragment
is one more segment whatever the message is (`segments_append_fragment`), as long as no text that is
written in front of its body has a line end in it.
-/

namespace MailArchive
namespace Archive

open Text

variable {parser : MessageParser} {number : Nat} {a b t blank date : Text} {m new : Message}
  {ms : List Message} {s : Segment} {fault : Fault} {options : FormatOptions}

theorem parse_standard (t : Text) : MessageParser.standard.parse t = Message.parse t := rfl

/-- A segment that cannot be read is reported with its number. -/
theorem segment_of_readSegment (h : readSegment parser number t = .error fault) :
    fault.segment = number := by
  unfold readSegment at h
  split at h
  · cases h
    rfl
  · rename_i decoded _
    cases hp : parser.parse decoded with
    | error why =>
      rw [hp] at h
      cases h
      rfl
    | ok new =>
      rw [hp] at h
      cases h

theorem readSegment_eq_ok_iff : readSegment parser number t = .ok new ↔
    ∃ plain, decode t = .ok plain ∧ parser.parse plain = .ok new := by
  unfold readSegment
  cases decode t with
  | error fault => simp
  | ok plain => cases hp : parser.parse plain <;> simp [Except.mapError, hp]

/-- Reading goes on where it has come to, unless it has failed. -/
theorem readSegments_append (parser : MessageParser) (number : Nat) (before after : List Segment) :
    readSegments parser number (before ++ after) =
      (readSegments parser number before).bind fun ms =>
        (readSegments parser (number + before.length) after).map (ms ++ ·) := by
  induction before generalizing number with
  | nil =>
    show readSegments parser number after = (readSegments parser number after).map ([] ++ ·)
    cases readSegments parser number after <;> rfl
  | cons s before ih =>
    have hlen : number + 1 + before.length = number + (s :: before).length := by
      rw [List.length_cons]
      omega
    rw [List.cons_append, readSegments, readSegments, ih, hlen]
    cases readSegment parser number s.text with
    | error fault => rfl
    | ok m =>
      cases readSegments parser (number + 1) before with
      | error fault => rfl
      | ok ms => cases readSegments parser (number + (s :: before).length) after <;> rfl

theorem messages_nil (parser : MessageParser) : messages parser [] = .ok [] := by
  rw [messages, segments, Cursor.start, ArchiveLine.ofText, Cursor.segments_nil]
  rfl

theorem messages_of_segments (parser : MessageParser) (h : segments b = segments a ++ [s]) :
    messages parser b = (messages parser a).bind fun ms =>
      (readSegment parser (segments a).length s.text).map fun new => ms ++ [new] := by
  rw [messages, h, readSegments_append, ← messages, Nat.zero_add]
  cases messages parser a with
  | error fault => rfl
  | ok ms =>
    show (readSegments parser _ [s]).map _ = (readSegment parser _ s.text).map _
    rw [readSegments]
    cases readSegment parser (segments a).length s.text <;> rfl

theorem of_readSegments {ss : List Segment} (h : readSegments parser number ss = .ok ms) :
    ms.length = ss.length ∧ ∀ m ∈ ms, ∃ n, ∃ s ∈ ss, readSegment parser n s.text = .ok m := by
  induction ss generalizing number ms with
  | nil =>
    cases h
    exact ⟨rfl, by simp⟩
  | cons s ss ih =>
    rw [readSegments] at h
    cases hs : readSegment parser number s.text with
    | error fault =>
      rw [hs] at h
      cases h
    | ok new =>
      cases hrest : readSegments parser (number + 1) ss with
      | error fault =>
        rw [hs, hrest] at h
        cases h
      | ok rest =>
        rw [hs, hrest] at h
        cases h
        obtain ⟨hlen, hmem⟩ := ih hrest
        refine ⟨congrArg (· + 1) hlen, List.forall_mem_cons.mpr ⟨?_, fun m hm => ?_⟩⟩
        · exact ⟨number, s, List.mem_cons_self, hs⟩
        · obtain ⟨n, s', hs', hread⟩ := hmem m hm
          exact ⟨n, s', List.mem_cons_of_mem _ hs', hread⟩

theorem length_of_messages (h : messages parser a = .ok ms) : ms.length = (segments a).length :=
  (of_readSegments h).1

theorem exists_parse_of_mem (h : messages parser a = .ok ms) (hm : m ∈ ms) :
    ∃ t, parser.parse t = .ok m := by
  obtain ⟨number, s, _, hs⟩ := (of_readSegments h).2 m hm
  obtain ⟨t, _, ht⟩ := readSegment_eq_ok_iff.mp hs
  exact ⟨t, ht⟩

/-- A fragment that can be read is one more message. -/
theorem messages_append_written (parser : MessageParser) (hm : ∀ t ∈ m.headTexts, '\n' ∉ t)
    (hd : Rfc2822.write? m.date = some date)
    (hnew : ∃ plain, decode (dropTerminator (Fragment.written options m date)) = .ok plain ∧
      parser.parse plain = .ok new)
    (ha : Closed (dropMark a)) (hblank : IsTerminator blank) :
    messages parser (a ++ (blank ++ Fragment.written options m date)) =
      (messages parser a).map (· ++ [new]) := by
  obtain ⟨s, htext, hsegments⟩ := Fragment.segments_written options hm hd ha hblank
  have hs : readSegment parser (segments a).length s.text = .ok new := by
    rw [htext]
    exact readSegment_eq_ok_iff.mpr hnew
  rw [messages_of_segments parser hsegments, hs]
  cases messages parser a <;> rfl

/-- **A fragment is one more segment.** At the end of an archive of which the last line is ended,
the fragment of a message is one segment, whatever the body of the message is, and the segments in
front of it stay as they are. So the archive is read as before, and then the new segment is. -/
theorem segments_append_fragment (options : FormatOptions) (hm : ∀ t ∈ m.headTexts, '\n' ∉ t)
    (hyear : 0 ≤ m.date.date.year ∧ m.date.date.year ≤ 9999) (ha : Closed a) :
    ∃ (rest : Text) (s : Segment), Fragment.format? options m = some ('\n' :: rest) ∧
      rest.getLast? = some '\n' ∧ s.text = dropTerminator rest ∧
      segments (a ++ '\n' :: rest) = segments a ++ [s] ∧
      ∀ parser : MessageParser,
        (∀ fault, messages parser a = .error fault →
          messages parser (a ++ '\n' :: rest) = .error fault) ∧
        ∀ ms, messages parser a = .ok ms →
          (∃ new, readSegment parser (segments a).length s.text = .ok new ∧
            messages parser (a ++ '\n' :: rest) = .ok (ms ++ [new])) ∨
          ∃ fault, readSegment parser (segments a).length s.text = .error fault ∧
            messages parser (a ++ '\n' :: rest) = .error fault ∧
            fault.segment = (segments a).length := by
  have hd := Rfc2822.write?_eq_some_iff.mpr ⟨hyear, rfl⟩
  obtain ⟨s, htext, hsegments⟩ :=
    Fragment.segments_written options hm hd ha.dropMark (.inl rfl)
  refine ⟨_, s, Fragment.format?_eq_some_iff.mpr ⟨_, hd, rfl⟩, ?_, htext, hsegments, ?_⟩
  · rw [Fragment.written, EncodedWord.encode_append_cons (by decide)]
    exact List.getLast?_concat
  · intro parser
    have hread := messages_of_segments parser hsegments
    refine ⟨fun fault hfault => ?_, fun ms hms => ?_⟩
    · rw [hfault] at hread
      exact hread
    · rw [hms] at hread
      cases hnew : readSegment parser (segments a).length s.text with
      | ok new =>
        rw [hnew] at hread
        exact .inl ⟨new, rfl, hread⟩
      | error fault =>
        rw [hnew] at hread
        exact .inr ⟨fault, rfl, hread, segment_of_readSegment hnew⟩

/-- A message that is made to look like several, by a clock that is a second short of a day ahead of
UTC. -/
def forged : Message where
  id := "From 1".toList
  author := ⟨"From b".toList, "a@example.org".toList⟩
  sender := ⟨[], "\r".toList⟩
  recipients := []
  date := ⟨⟨2023, 12, 31, by decide⟩, ⟨23, 59, 60, 5, by decide⟩, 86399, by decide⟩
  subject := "\r".toList
  headers := [⟨"From c".toList, "=?utf-8?b?@?=".toList⟩]
  body := "\nFrom d\r\n\r\nFrom e\n>From f\n\n\r".toList

theorem segments_append_fragment_forged :
    (∀ t ∈ forged.headTexts, '\n' ∉ t) ∧ Closed "From x\n\n".toList ∧
      ∃ (rest : Text) (s : Segment), Fragment.format? {} forged = some ('\n' :: rest) ∧
        s.text = dropTerminator rest ∧
        segments ("From x\n\n".toList ++ '\n' :: rest) = segments "From x\n\n".toList ++ [s] := by
  have hm : ∀ t ∈ forged.headTexts, '\n' ∉ t := by decide
  have ha : Closed "From x\n\n".toList := by decide
  obtain ⟨rest, s, hf, _, htext, hsegments, _⟩ :=
    segments_append_fragment {} hm (by decide) ha
  exact ⟨hm, ha, rest, s, hf, htext, hsegments⟩

end Archive
end MailArchive
