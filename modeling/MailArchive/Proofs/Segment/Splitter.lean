import MailArchive.Segment.Splitter
import MailArchive.Proofs.Segment.Partition

/-!
# MailArchive.Proofs.Segment.Splitter

Going through an archive once finds the segments that its boundaries make (`next?_splitter`). At a
line a scan stops, begins a message or passes the line (`run?_boundary`, `run?_first`, `run?_pass`).
Within a message it has a part of the archive behind it that consists of whole lines, and what it
keeps are lengths in it: where the last line ends without its terminator, and behind a blank line
where the one in front of it ends. A step keeps this (`Inside`, `Inside.pass`). So the places are in
order and no slice is refused, and no segment is empty, because it begins with a separator.
-/

namespace MailArchive

open Text

namespace Text

theorem byteLength_append (t u : Text) : byteLength (t ++ u) = byteLength t + byteLength u := by
  have hadd : ∀ (u : Text) (n : Nat),
      u.foldl (fun n c => n + c.utf8Size) n = n + byteLength u := by
    intro u
    induction u with
    | nil => exact fun _ => rfl
    | cons c u ih =>
      intro n
      rw [byteLength, List.foldl_cons, List.foldl_cons, ih, ih (0 + c.utf8Size)]
      omega
  rw [byteLength, List.foldl_append, hadd]
  rfl

variable {t u line : Text} {ls : List Text}

theorem idxOf?_append_lf (h : '\n' ∉ t) : (t ++ '\n' :: u).idxOf? '\n' = some t.length := by
  induction t with
  | nil => rfl
  | cons c t ih =>
    rw [List.mem_cons, not_or] at h
    rw [List.cons_append, List.idxOf?_cons, ih h.2]
    simp [Ne.symm h.1]

/-- The first line of a text, and what comes behind it. -/
theorem exists_of_lines_eq_cons (h : lines t = line :: ls) :
    line ≠ [] ∧ ∃ rest, t = line ++ rest ∧ lines rest = ls ∧
      (rest ≠ [] → line.getLast? = some '\n') ∧
      ∀ before : Text, nextLine (before ++ t) before.length = before.length + line.length := by
  have hne : line ≠ [] := (of_mem_lines (h ▸ List.mem_cons_self)).1
  refine ⟨hne, ?_⟩
  by_cases hlf : '\n' ∈ t
  · obtain ⟨a, rest, rfl, ha⟩ := List.eq_append_cons_of_mem hlf
    rw [lines_append_lf ha, List.cons.injEq] at h
    obtain ⟨rfl, hls⟩ := h
    refine ⟨rest, by simp, hls, by simp, fun before => ?_⟩
    rw [nextLine, List.drop_left, idxOf?_append_lf ha]
    simp [Nat.add_assoc]
  · have hnil : t ≠ [] := by
      rintro rfl
      cases h
    rw [lines_of_notMem hlf hnil, List.cons.injEq] at h
    obtain ⟨rfl, rfl⟩ := h
    refine ⟨[], by simp, rfl, by simp, fun before => ?_⟩
    have hidx : t.idxOf? '\n' = none := List.idxOf?_eq_none_iff.mpr hlf
    rw [nextLine, List.drop_left, hidx, List.length_append]

/-- Of several lines the last one loses its terminator. -/
theorem dropTerminator_append_line (hne : line ≠ []) (h : t.getLast? ≠ some '\r') :
    dropTerminator (t ++ line) = t ++ dropTerminator line := by
  by_cases hlf : line.getLast? = some '\n'
  · obtain ⟨u, rfl⟩ := List.getLast?_eq_some_iff.mp hlf
    by_cases hcr : u.getLast? = some '\r'
    · obtain ⟨v, rfl⟩ := List.getLast?_eq_some_iff.mp hcr
      rw [List.append_assoc v, List.singleton_append, ← List.append_assoc,
        dropTerminator_append_crlf, dropTerminator_append_crlf]
    · have hu : ∀ c ∈ u.getLast?, c ≠ '\r' := by
        rintro c hc rfl
        exact hcr hc
      have htu : ∀ c ∈ (t ++ u).getLast?, c ≠ '\r' := by
        rintro c hc rfl
        rw [Option.mem_def, List.getLast?_append] at hc
        cases hl : u.getLast? with
        | none =>
          rw [hl] at hc
          exact h hc
        | some d =>
          rw [hl] at hc
          exact hcr (hl.trans hc)
      rw [dropTerminator_append_lf hu, ← List.append_assoc, dropTerminator_append_lf htu]
  · have hline : ∀ c ∈ line.getLast?, c ≠ '\n' := by
      rintro c hc rfl
      exact hlf hc
    have hall : ∀ c ∈ (t ++ line).getLast?, c ≠ '\n' := by
      rwa [List.getLast?_append_of_ne_nil t hne]
    rw [dropTerminator_eq_self hline, dropTerminator_eq_self hall]

theorem slice?_append (before : Text) {n : Nat} (h : n ≤ t.length) (rest : Text) :
    slice? (before ++ (t ++ rest)) before.length (before.length + n) = some (t.take n) := by
  have hlast : before.length + n ≤ (before ++ (t ++ rest)).length := by
    rw [List.length_append, List.length_append]
    omega
  rw [slice?, if_pos ⟨Nat.le_add_right _ _, hlast⟩, List.take_length_add_append, List.drop_left,
    List.take_append_of_le_length h]

end Text

namespace Splitter

variable {archive before rest line : Text} {v : Scan} {own : List ArchiveLine} {ls : List Text}

/-- The lines behind the place of a splitter. -/
def cursor (s : Splitter) : Cursor :=
  ⟨ArchiveLine.place (byteLength (s.text.take s.place)) s.afterBlank (lines (s.text.drop s.place))⟩

/-- The line at the place of a scan. -/
def Scan.placed (v : Scan) (before line : Text) : ArchiveLine :=
  ⟨line, byteLength before, v.afterBlank && FromLine.isSeparator line⟩

/-! ## One line -/

/-- The line at the place of a scan. -/
structure Scan.AtLine (archive : Text) (v : Scan) (line : Text) : Prop where
  lt : v.place < archive.length
  next : nextLine archive v.place = v.place + line.length
  slice : (archive.take (v.place + line.length)).drop v.place = line

theorem atLine {front : Text} (harchive : archive = front ++ (line ++ rest))
    (hplace : v.place = front.length) (hline : line ≠ [])
    (hend : nextLine (front ++ (line ++ rest)) front.length = front.length + line.length) :
    v.AtLine archive line where
  lt := by
    have hpos := List.length_pos_iff.mpr hline
    simp only [hplace, harchive, List.length_append]
    omega
  next := by rw [hplace, harchive, hend]
  slice := by rw [harchive, hplace, List.take_length_add_append, List.drop_left, List.take_left]

section

variable {t : Text} {found : Option Text}

/-- The next message begins, so the one before it is found. -/
theorem run?_boundary (h : v.AtLine archive line)
    (hb : FromLine.isSeparator line = true ∧ v.afterBlank = true)
    (hmessage : v.message? archive v.cut = some (some t)) :
    run? archive v = some (some ⟨t, v.bareSeparators⟩, ⟨archive, v.place, true⟩) := by
  rw [run?, dif_pos h.lt]
  simp only [h.next, h.slice, if_pos hb, hmessage]

/-- There is nothing in front of the message that begins. -/
theorem run?_first (h : v.AtLine archive line)
    (hb : FromLine.isSeparator line = true ∧ v.afterBlank = true)
    (hmessage : v.message? archive v.cut = some none) :
    run? archive v = run? archive (v.enter.pass line (v.place + line.length)) := by
  rw [run?, dif_pos h.lt]
  simp only [h.next, h.slice, if_pos hb, hmessage]

theorem run?_pass (h : v.AtLine archive line)
    (hb : ¬(FromLine.isSeparator line = true ∧ v.afterBlank = true)) :
    run? archive v = run? archive ((v.note archive line).pass line (v.place + line.length)) := by
  rw [run?, dif_pos h.lt]
  simp only [h.next, h.slice, if_neg hb]

theorem run?_end (h : v.place = archive.length)
    (hmessage : v.message? archive (max v.contentEnd (v.first.getD 0)) = some found) :
    run? archive v =
      some (found.map (⟨·, v.bareSeparators⟩), ⟨archive, v.place, v.afterBlank⟩) := by
  rw [run?, dif_neg (Nat.not_lt.mpr (Nat.le_of_eq h.symm))]
  simp only [hmessage]

end

/-! ## Within a message -/

/-- The text of some lines. -/
def body (own : List ArchiveLine) : Text := (own.map ArchiveLine.text).flatten

theorem body_append (own more : List ArchiveLine) : body (own ++ more) = body own ++ body more := by
  rw [body, List.map_append, List.flatten_append]
  rfl

theorem body_placed (v : Scan) (before line : Text) : body [v.placed before line] = line := by
  simp [body, Scan.placed]

/-- The archive is what stands in front of the message, the lines of the message so far, and the
rest; the scan has the lengths of these. -/
structure Inside (archive : Text) (v : Scan) (before : Text) (own : List ArchiveLine)
    (rest : Text) : Prop where
  text : archive = before ++ (body own ++ rest)
  place : v.place = before.length + (body own).length
  first : v.first = some before.length
  contentEnd : v.contentEnd = before.length + (dropTerminator (body own)).length
  cut : v.afterBlank = true →
    v.cut = before.length + (dropTerminator (body own.dropLast)).length
  separator : ∃ b more, own = b :: more ∧ FromLine.isSeparator b.text = true ∧
    (v.afterBlank = true → more ≠ [])
  ended : rest ≠ [] → (body own).getLast? = some '\n'
  bare : v.bareSeparators = (Segment.ofLines own true).bareSeparators

theorem Inside.take_place (h : Inside archive v before own rest) :
    archive.take v.place = before ++ body own := by
  rw [h.text, h.place, ← List.append_assoc, ← List.length_append, List.take_left]

theorem Inside.drop_place (h : Inside archive v before own rest) :
    archive.drop v.place = rest := by
  rw [h.text, h.place, ← List.append_assoc, ← List.length_append, List.drop_left]

/-- The message up to a line of it. -/
theorem Inside.message? {part : List ArchiveLine} (h : Inside archive v before own rest)
    (hpart : part <+: own) (hnil : part ≠ []) :
    v.message? archive (before.length + (dropTerminator (body part)).length) =
      some (some (dropTerminator (body part))) := by
  obtain ⟨b, more, rfl, hb, -⟩ := h.separator
  obtain ⟨c, part, rfl⟩ := List.exists_cons_of_ne_nil hnil
  obtain rfl : c = b := (List.cons_prefix_cons.mp hpart).1
  have hne : dropTerminator (body (c :: part)) ≠ [] := Cursor.dropTerminator_ne_nil hb
  obtain ⟨after, hafter⟩ := hpart
  obtain ⟨e, he⟩ := dropTerminator_isPrefix (body (c :: part))
  generalize dropTerminator (body (c :: part)) = content at hne he ⊢
  have hall : archive = before ++ (content ++ (e ++ body after ++ rest)) := by
    rw [h.text, ← hafter, body_append, ← he]
    simp
  have hslice : slice? archive before.length (before.length + content.length) = some content := by
    rw [hall, slice?_append before (Nat.le_refl _), List.take_length]
  rw [Scan.message?, h.first]
  simp only [hslice]
  rw [if_neg (by simpa using hne)]

theorem bareSeparators_concat {l : ArchiveLine} (own : List ArchiveLine)
    (h : l.isBoundary = false) :
    (Segment.ofLines (own ++ [l]) true).bareSeparators =
      (Segment.ofLines own true).bareSeparators ++
        if FromLine.isSeparator l.text then [l.offset] else [] := by
  by_cases hsep : FromLine.isSeparator l.text <;> simp [Segment.ofLines, h, hsep]

/-- A line that begins no message belongs to the one before it. -/
theorem Inside.pass (h : Inside archive v before own (line ++ rest)) (hline : line ≠ [])
    (hended : rest ≠ [] → line.getLast? = some '\n')
    (hb : (v.placed (before ++ body own) line).isBoundary = false) :
    Inside archive ((v.note archive line).pass line (v.place + line.length)) before
      (own ++ [v.placed (before ++ body own) line]) rest := by
  have hlf : (body own).getLast? ≠ some '\r' := by
    rw [h.ended (List.append_ne_nil_of_left_ne_nil hline rest)]
    decide
  have htext : body (own ++ [v.placed (before ++ body own) line]) = body own ++ line := by
    rw [body_append, body_placed]
  obtain ⟨b, more, hown, hseparator, -⟩ := h.separator
  constructor
  · rw [htext, h.text, List.append_assoc]
  · rw [htext, List.length_append, ← Nat.add_assoc, ← h.place]
    rfl
  · exact h.first
  · rw [htext, dropTerminator_append_line hline hlf, List.length_append, ← Nat.add_assoc, ← h.place]
    rfl
  · intro hblank
    rw [List.dropLast_concat, ← h.contentEnd]
    exact if_pos hblank
  · exact ⟨b, more ++ [_], by rw [hown]; rfl, hseparator, fun _ => by simp⟩
  · intro hrest
    rw [htext, List.getLast?_append_of_ne_nil _ hline]
    exact hended hrest
  · have hnote : ((v.note archive line).pass line (v.place + line.length)).bareSeparators =
        if FromLine.isSeparator line ∧ v.first.isSome then
          v.bareSeparators ++ [byteLength (archive.take v.place)]
        else v.bareSeparators := rfl
    rw [bareSeparators_concat own hb, ← h.bare, hnote, h.first, h.take_place]
    by_cases hsep : FromLine.isSeparator line <;> simp [Scan.placed, hsep]

/-- The message is over at the end of the archive. -/
theorem Inside.run?_end (h : Inside archive v before own []) :
    v.place = archive.length ∧ run? archive v =
      some (some (Segment.ofLines own true), ⟨archive, v.place, v.afterBlank⟩) := by
  have hend : v.place = archive.length := by
    rw [h.text, h.place, List.append_nil, List.length_append]
  have hmax : max v.contentEnd (v.first.getD 0) =
      before.length + (dropTerminator (body own)).length := by
    rw [h.first, Option.getD_some, h.contentEnd, Nat.max_eq_left (Nat.le_add_right _ _)]
  obtain ⟨b, more, hown, -⟩ := h.separator
  have hmessage := h.message? List.prefix_rfl (hown ▸ List.cons_ne_nil b more)
  refine ⟨hend, ?_⟩
  rw [Splitter.run?_end hend (hmax ▸ hmessage)]
  simp [h.bare, Segment.ofLines, body]

/-- The message is over in front of the blank line behind which the next one begins. -/
theorem Inside.message?_cut (h : Inside archive v before own rest) (hb : v.afterBlank = true) :
    v.message? archive v.cut = some (some (Segment.ofLines own false).text) := by
  obtain ⟨b, more, hown, -, hmore⟩ := h.separator
  have hpart : own.dropLast ≠ [] := by
    rw [hown, List.dropLast_cons_of_ne_nil (hmore hb)]
    exact List.cons_ne_nil b _
  rw [h.cut hb, h.message? (List.dropLast_prefix own) hpart]
  simp [Segment.ofLines, body]

/-- From within a message the scan finds the message with the lines up to the next boundary, and
stops there. -/
theorem run?_inside (h : Inside archive v before own rest) (hls : lines rest = ls) :
    let placed := ArchiveLine.place (byteLength (before ++ body own)) v.afterBlank ls
    ∃ s : Splitter, run? archive v = some (some (Segment.ofLines
        (own ++ placed.takeWhile (!·.isBoundary)) (placed.dropWhile (!·.isBoundary)).isEmpty), s) ∧
      s.text = archive ∧ s.place ≤ archive.length ∧
      s.cursor = ⟨placed.dropWhile (!·.isBoundary)⟩ := by
  induction ls generalizing v own rest with
  | nil =>
    obtain rfl : rest = [] := by rw [← flatten_lines rest, hls]; rfl
    obtain ⟨hend, hrun⟩ := h.run?_end
    refine ⟨⟨archive, v.place, v.afterBlank⟩, hrun.trans ?_, rfl, Nat.le_of_eq hend, ?_⟩
    · rw [ArchiveLine.place_nil, List.takeWhile_nil, List.append_nil]
      rfl
    · rw [cursor, hend, List.drop_length]
      rfl
  | cons line ls ih =>
    obtain ⟨hline, rest, rfl, hrest, hended, hend⟩ := exists_of_lines_eq_cons hls
    have hfront : archive = (before ++ body own) ++ (line ++ rest) := by
      rw [h.text, List.append_assoc]
    have hplace : v.place = (before ++ body own).length := by rw [List.length_append, h.place]
    have hat : v.AtLine archive line := atLine hfront hplace hline (hend _)
    rw [ArchiveLine.place_cons]
    dsimp only
    by_cases hb : FromLine.isSeparator line = true ∧ v.afterBlank = true
    · rw [run?_boundary hat hb (h.message?_cut hb.2)]
      refine ⟨⟨archive, v.place, true⟩, ?_, rfl, Nat.le_of_lt hat.lt, ?_⟩
      · simp [hb, h.bare, Segment.ofLines]
      · rw [cursor, h.take_place, h.drop_place, hls, ArchiveLine.place_cons]
        simp [hb]
    · have hplaced : (v.afterBlank && FromLine.isSeparator line) = false := by
        simpa [and_comm] using hb
      obtain ⟨s, hs, htext, hle, hcursor⟩ := ih (h.pass hline hended hplaced) hrest
      rw [body_append, body_placed, ← List.append_assoc, byteLength_append, List.append_assoc] at hs
      rw [body_append, body_placed, ← List.append_assoc, byteLength_append] at hcursor
      rw [run?_pass hat hb, hplaced, List.takeWhile_cons_of_pos rfl,
        List.dropWhile_cons_of_pos rfl]
      refine ⟨s, hs.trans ?_, htext, hle, hcursor⟩
      rw [Scan.placed, hplaced]
      rfl

/-! ## In front of a message -/

/-- A boundary begins a message. -/
theorem inside_enter (harchive : archive = before ++ (line ++ rest))
    (hplace : v.place = before.length) (hbare : v.bareSeparators = [])
    (hsep : FromLine.isSeparator line = true) (hended : rest ≠ [] → line.getLast? = some '\n') :
    Inside archive (v.enter.pass line (v.place + line.length)) before
      [⟨line, byteLength before, true⟩] rest := by
  have htext : body [⟨line, byteLength before, true⟩] = line := by simp [body]
  have hne : dropTerminator line ≠ [] := by
    have h : dropTerminator (body [⟨line, byteLength before, true⟩]) ≠ [] :=
      Cursor.dropTerminator_ne_nil hsep
    rwa [htext] at h
  have hblank : (v.enter.pass line (v.place + line.length)).afterBlank ≠ true := fun h =>
    hne (List.isEmpty_iff.mp h)
  constructor
  · rw [htext, harchive]
  · rw [htext, ← hplace]
    rfl
  · rw [← hplace]
    rfl
  · rw [htext, ← hplace]
    rfl
  · exact fun h => absurd h hblank
  · exact ⟨_, [], rfl, hsep, fun h => absurd h hblank⟩
  · rwa [htext]
  · simpa [Scan.pass, Scan.enter, Segment.ofLines] using hbare

/-- From in front of the next message the scan finds what the cursor finds. -/
theorem run?_outside (harchive : archive = before ++ rest) (hplace : v.place = before.length)
    (hfirst : v.first = none) (hbare : v.bareSeparators = []) (hls : lines rest = ls) :
    let c : Cursor := ⟨ArchiveLine.place (byteLength before) v.afterBlank ls⟩
    ∃ s : Splitter, run? archive v = some (c.next.1, s) ∧ s.text = archive ∧
      s.place ≤ archive.length ∧ s.cursor = c.next.2 := by
  induction ls generalizing v before rest with
  | nil =>
    obtain rfl : rest = [] := by rw [← flatten_lines rest, hls]; rfl
    have hend : v.place = archive.length := by rw [harchive, hplace, List.append_nil]
    refine ⟨⟨archive, v.place, v.afterBlank⟩, ?_, rfl, Nat.le_of_eq hend, ?_⟩
    · exact run?_end hend (by rw [Scan.message?, hfirst])
    · rw [cursor, hend, List.drop_length]
      rfl
  | cons line ls ih =>
    obtain ⟨hline, rest, rfl, hrest, hended, hend⟩ := exists_of_lines_eq_cons hls
    have hmessage : v.message? archive v.cut = some none := by rw [Scan.message?, hfirst]
    have hat : v.AtLine archive line := atLine harchive hplace hline (hend _)
    rw [ArchiveLine.place_cons]
    dsimp only
    by_cases hb : FromLine.isSeparator line = true ∧ v.afterBlank = true
    · obtain ⟨s, hs, htext, hle, hcursor⟩ :=
        run?_inside (inside_enter harchive hplace hbare hb.1 hended) hrest
      have hbody : body [⟨line, byteLength before, true⟩] = line := by simp [body]
      rw [hbody, byteLength_append] at hs hcursor
      have hplaced : (v.afterBlank && FromLine.isSeparator line) = true := by simp [hb]
      rw [run?_first hat hb hmessage, hplaced, Cursor.next, List.dropWhile_cons_of_neg (by simp)]
      exact ⟨s, hs, htext, hle, hcursor⟩
    · have hplaced : (v.afterBlank && FromLine.isSeparator line) = false := by
        simpa [and_comm] using hb
      have hnote :
          ((v.note archive line).pass line (v.place + line.length)).bareSeparators = [] := by
        simp [Scan.pass, Scan.note, hfirst, hbare]
      rw [run?_pass hat hb, hplaced, ← byteLength_append, Cursor.next,
        List.dropWhile_cons_of_pos rfl]
      refine ih ?_ ?_ hfirst hnote hrest
      · rw [harchive, List.append_assoc]
      · rw [List.length_append, ← hplace]
        rfl

/-! ## The whole archive -/

theorem next?_eq {s : Splitter} (h : s.place ≤ s.text.length) :
    ∃ s' : Splitter, s.next? = some (s.cursor.next.1, s') ∧ s'.place ≤ s'.text.length ∧
      s'.cursor = s.cursor.next.2 := by
  obtain ⟨s', hs, htext, hle, hcursor⟩ := run?_outside
    (v := { place := s.place, afterBlank := s.afterBlank, contentEnd := s.place, cut := s.place })
    (List.take_append_drop s.place s.text).symm (List.length_take_of_le h).symm rfl rfl rfl
  exact ⟨s', hs, htext ▸ hle, hcursor⟩

theorem cursor_start (archive : Text) : (start archive).cursor = Cursor.start archive := by
  rw [Cursor.start, ArchiveLine.ofText_eq, cursor, start, ArchiveLine.origin, dropMark]
  split
  · rename_i hmark
    obtain ⟨rest, rfl⟩ := List.head?_eq_some_iff.mp hmark
    rfl
  · rfl

/-- The splitter after a number of segments, if none of them is out of bounds. -/
def after? : Nat → Splitter → Option Splitter
  | 0, s => some s
  | n + 1, s => s.next?.bind fun found => after? n found.2

theorem after?_eq (n : Nat) {s : Splitter} (h : s.place ≤ s.text.length) :
    ∃ s' : Splitter, s.after? n = some s' ∧ s'.place ≤ s'.text.length ∧
      s'.cursor = s.cursor.skip n := by
  induction n generalizing s with
  | zero => exact ⟨s, rfl, h, rfl⟩
  | succ n ih =>
    obtain ⟨next, hnext, hle, hcursor⟩ := next?_eq h
    obtain ⟨s', hs, hle', hskip⟩ := ih hle
    refine ⟨s', ?_, hle', ?_⟩
    · rw [after?, hnext]
      exact hs
    · rw [hskip, hcursor, Cursor.skip, Cursor.skip, Function.iterate_succ_apply]

/-- **Going through an archive once finds its segments.** Asking a splitter over and over gives the
segments in order and then nothing for ever, with the notices of each; no place that it keeps is out
of bounds. -/
theorem next?_splitter (archive : Text) (n : Nat) :
    ∃ s s' : Splitter, (start archive).after? n = some s ∧
      s.next? = some ((segments archive)[n]?, s') := by
  have hstart : (start archive).place ≤ (start archive).text.length := by
    unfold start
    split
    · rename_i hmark
      obtain ⟨rest, rfl⟩ := List.head?_eq_some_iff.mp hmark
      exact Nat.succ_le_succ (Nat.zero_le _)
    · exact Nat.zero_le _
  obtain ⟨s, hs, hle, hcursor⟩ := after?_eq n hstart
  obtain ⟨s', hnext, -⟩ := next?_eq hle
  refine ⟨s, s', hs, ?_⟩
  rw [hnext, hcursor, cursor_start, Cursor.next_skip]
  rfl

end Splitter
end MailArchive
