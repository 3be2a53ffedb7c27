import MailArchive.Segment

/-!
# MailArchive.Segment.Splitter

The segments of an archive, found by going through its text once. A splitter has a place in the
archive; a scan goes on from there line by line and keeps where the message began, where the line
before ended, and where the line in front of the last blank one ended (`Splitter.run?`). Places are
counted in characters, and only the offsets of notices in bytes.
-/

namespace MailArchive

namespace Text

/-- The part of a text between two places, if they are places of the text in this order. -/
def slice? (t : Text) (first last : Nat) : Option Text :=
  if first ≤ last ∧ last ≤ t.length then some ((t.take last).drop first) else none

/-- The place behind the line that begins at a place. -/
def nextLine (t : Text) (place : Nat) : Nat :=
  match (t.drop place).idxOf? '\n' with
  | none => t.length
  | some i => place + i + 1

theorem lt_nextLine {t : Text} {place : Nat} (h : place < t.length) : place < nextLine t place := by
  unfold nextLine
  split
  · exact h
  · omega

end Text

structure Splitter where
  text : Text
  place : Nat
  /-- Whether the line before the place is blank. -/
  afterBlank : Bool
  deriving DecidableEq, Repr

namespace Splitter

/-- The beginning of an archive, behind the byte order mark if there is one. It counts as a blank
line. -/
def start (archive : Text) : Splitter where
  text := archive
  place := if archive.head? = some Text.byteOrderMark then 1 else 0
  afterBlank := true

/-- What a scan knows at the beginning of a line. -/
structure Scan where
  place : Nat
  afterBlank : Bool
  /-- Where the message begins. -/
  first : Option Nat := none
  /-- Where the line before ends, without its terminator. -/
  contentEnd : Nat
  /-- Where the line in front of the last blank one ends, without its terminator. -/
  cut : Nat
  bareSeparators : List Nat := []
  deriving DecidableEq, Repr

namespace Scan

/-- The message up to a place, if there is anything of it. There is no answer if the place is in
front of the message or behind the archive. -/
def message? (archive : Text) (v : Scan) (last : Nat) : Option (Option Text) :=
  match v.first with
  | none => some none
  | some first =>
    match Text.slice? archive first last with
    | none => none
    | some t => some (if t.isEmpty then none else some t)

/-- The scan at the beginning of a message. -/
def enter (v : Scan) : Scan := { v with first := some v.place }

/-- The scan with a note if the line begins with `From ` within a message. -/
def note (archive : Text) (v : Scan) (line : Text) : Scan :=
  { v with
    bareSeparators :=
      if FromLine.isSeparator line ∧ v.first.isSome then
        v.bareSeparators ++ [Text.byteLength (archive.take v.place)]
      else v.bareSeparators }

/-- The scan behind the line at its place. -/
def pass (v : Scan) (line : Text) (next : Nat) : Scan :=
  let content := Text.dropTerminator line
  { v with
    place := next
    afterBlank := content.isEmpty
    contentEnd := v.place + content.length
    cut := if content.isEmpty then v.contentEnd else v.cut }

end Scan

/-- Goes on with a scan until the next message begins or the archive ends. The place of the splitter
that is left is the beginning of that message. -/
def run? (archive : Text) (v : Scan) : Option (Option Segment × Splitter) :=
  if _h : v.place < archive.length then
    let next := Text.nextLine archive v.place
    let line := (archive.take next).drop v.place
    if FromLine.isSeparator line ∧ v.afterBlank then
      match v.message? archive v.cut with
      | none => none
      | some (some t) => some (some ⟨t, v.bareSeparators⟩, ⟨archive, v.place, true⟩)
      | some none => run? archive (v.enter.pass line next)
    else run? archive ((v.note archive line).pass line next)
  else
    match v.message? archive (max v.contentEnd (v.first.getD 0)) with
    | none => none
    | some found => some (found.map (⟨·, v.bareSeparators⟩), ⟨archive, v.place, v.afterBlank⟩)
termination_by archive.length - v.place
decreasing_by
  all_goals
    have hlt := Text.lt_nextLine _h
    simp only [Scan.pass]
    omega

/-- The next segment, if there is one, and the splitter behind it. -/
def next? (s : Splitter) : Option (Option Segment × Splitter) :=
  run? s.text
    { place := s.place, afterBlank := s.afterBlank, contentEnd := s.place, cut := s.place }

end Splitter
end MailArchive
