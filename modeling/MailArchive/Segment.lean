import MailArchive.FromLine

/-!
# MailArchive.Segment

An archive is cut into segments, one for each message. A line that begins with `From ` starts a
segment if it is the first line of the archive or follows a blank line; the blank line belongs to
no segment, nor does the terminator of the line before it. `Cursor.next` hands out one segment
after the other, so that an archive can be read as far as it is needed.
-/

namespace MailArchive

/-- A line of an archive, with its place. -/
structure ArchiveLine where
  text : Text
  /-- The number of bytes before the line. -/
  offset : Nat
  /-- Whether the line starts a segment. -/
  isBoundary : Bool
  deriving DecidableEq, Repr

/-- The message that stands between two boundaries of an archive. -/
structure Segment where
  text : Text
  /-- The offsets of the lines in it that begin with `From ` but follow no blank line. -/
  bareSeparators : List Nat
  deriving DecidableEq, Repr

namespace ArchiveLine

/-- Places lines one after the other, with the placed ones in hand, last one first. -/
def placeAfter (placed : List ArchiveLine) (offset : Nat) (afterBlank : Bool) :
    List Text → List ArchiveLine
  | [] => placed.reverse
  | line :: rest =>
    placeAfter (⟨line, offset, afterBlank && FromLine.isSeparator line⟩ :: placed)
      (offset + Text.byteLength line) (Text.isBlankLine line) rest

theorem placeAfter_eq (placed : List ArchiveLine) (offset : Nat) (afterBlank : Bool)
    (ls : List Text) :
    placeAfter placed offset afterBlank ls =
      placed.reverse ++ placeAfter [] offset afterBlank ls := by
  induction ls generalizing placed offset afterBlank with
  | nil => simp [placeAfter]
  | cons line rest ih =>
    rw [placeAfter, ih, placeAfter, ih [_]]
    simp

/-- The lines of an archive without the byte order mark. The start of the archive counts as a
blank line. -/
def ofText (archive : Text) : List ArchiveLine :=
  match archive with
  | [] => []
  | c :: rest =>
    if c = Text.byteOrderMark then placeAfter [] c.utf8Size true (Text.lines rest)
    else placeAfter [] 0 true (Text.lines archive)

end ArchiveLine

namespace Segment

/-- The segment with the given lines. If another boundary follows, the blank line before it is the
last of them and does not count. -/
def ofLines (ls : List ArchiveLine) (last : Bool) : Segment where
  text :=
    Text.dropTerminator (((if last then ls else ls.dropLast).map ArchiveLine.text).flatten)
  bareSeparators :=
    (ls.filter fun l => FromLine.isSeparator l.text && !l.isBoundary).map ArchiveLine.offset

end Segment

/-- A place in an archive: the lines that are still to be read. -/
structure Cursor where
  lines : List ArchiveLine
  deriving DecidableEq, Repr

namespace Cursor

def start (archive : Text) : Cursor := ⟨ArchiveLine.ofText archive⟩

/-- The next segment, if there is one, and the place after it. -/
def next (cursor : Cursor) : Option Segment × Cursor :=
  match cursor.lines.dropWhile (!·.isBoundary) with
  | [] => (none, ⟨[]⟩)
  | boundary :: rest =>
    let own := rest.takeWhile (!·.isBoundary)
    let after := rest.dropWhile (!·.isBoundary)
    (some (Segment.ofLines (boundary :: own) after.isEmpty), ⟨after⟩)

theorem length_next {cursor after : Cursor} {segment : Segment}
    (h : cursor.next = (some segment, after)) : after.lines.length < cursor.lines.length := by
  unfold next at h
  split at h
  · simp at h
  · rename_i boundary rest hd
    have h₁ : (cursor.lines.dropWhile (!·.isBoundary)).length ≤ cursor.lines.length :=
      (List.dropWhile_sublist _).length_le
    rw [hd, List.length_cons] at h₁
    have h₂ : (rest.dropWhile (!·.isBoundary)).length ≤ rest.length :=
      (List.dropWhile_sublist _).length_le
    simp only [Prod.mk.injEq] at h
    rw [← h.2]
    exact Nat.lt_of_le_of_lt h₂ h₁

/-- The segments after a place, with those before it in hand, last one first. -/
def segmentsAfter (found : List Segment) (cursor : Cursor) : List Segment :=
  match _h : cursor.next with
  | (none, _) => found.reverse
  | (some segment, after) => segmentsAfter (segment :: found) after
termination_by cursor.lines.length
decreasing_by exact length_next _h

/-- The segments from a place on. -/
def segments (cursor : Cursor) : List Segment := segmentsAfter [] cursor

end Cursor

def segments (archive : Text) : List Segment := (Cursor.start archive).segments

end MailArchive
