import MailArchive.Calendar.Timestamp
import MailArchive.Text.Line

/-!
# MailArchive.Calendar.Tolerant

Dates as careless programs write them. The reader looks for seven numbers in their usual order,
day, month, year, hour, minute, second and offset, and pays little attention to what stands between
them. A sign goes straight to the offset, a semicolon begins again, and comments in parentheses are
passed over. Each number has a slot with room for a few digits, which fills from the left.

A text of several lines is taken for the start of a message, of which the `Date` header comes first
(`headerBlock`): the date is the value of the last `Date` header in it.
-/

namespace MailArchive
namespace Tolerant

/-- A number that is being read, with the digits it has room for. -/
structure Slot where
  room : Nat
  value : Nat
  deriving DecidableEq, Repr

namespace Slot

def empty (room : Nat) : Slot := ⟨room, 0⟩

/-- Puts a digit to the left end of the room. -/
def push (digit : Nat) (s : Slot) : Slot :=
  ⟨s.room - 1, s.value + digit * Nat.pow 10 (s.room - 1)⟩

/-- Takes away the room that is left. -/
def close (s : Slot) : Slot := ⟨s.room, s.value / Nat.pow 10 s.room⟩

end Slot

/-- What has been found in a date. -/
structure Scan where
  slots : List Slot := [2, 2, 4, 2, 2, 2, 4].map Slot.empty
  /-- The slot that takes the next digit. -/
  place : Nat := 0
  /-- Whether a number or a word is being read. -/
  inToken : Bool := false
  started : Bool := false
  /-- Whether a minus sign was seen. -/
  behind : Bool := false
  /-- The letters seen in the place of the month. -/
  letters : Nat := 0
  /-- The sum of the second and the third of these letters' marks. -/
  sum : Nat := 0
  deriving DecidableEq, Repr

/-- The mark of a letter, in either case. Letters that no name of a month has in the second or third
place have a mark of 31. -/
def mark (c : Char) : Nat :=
  match c.toLower with
  | 'a' => 0
  | 'b' => 14
  | 'c' => 4
  | 'e' => 10
  | 'g' => 14
  | 'l' => 4
  | 'n' => 10
  | 'o' => 15
  | 'p' => 15
  | 'r' => 5
  | 't' => 0
  | 'u' => 5
  | 'v' => 15
  | 'y' => 0
  | _ => 31

/-- The months by the sum of their second and third letter's marks. -/
def months : List (Nat × Nat) :=
  [(0, 5), (4, 10), (5, 3), (9, 7), (10, 1), (14, 12), (15, 6), (19, 8), (20, 4), (24, 2), (25, 9),
    (30, 11)]

namespace Scan

/-- Goes on to the next slot. -/
def close (s : Scan) : Scan :=
  { s with slots := s.slots.modify s.place Slot.close, place := s.place + 1, inToken := false }

/-- Goes on to the next slot if something stands in this one. -/
def closeToken (s : Scan) : Scan := if s.inToken && s.started then s.close else s

/-- Takes a digit. One for which there is no room is lost. -/
def digit (n : Nat) (s : Scan) : Scan :=
  match s.slots[s.place]? with
  | some slot =>
    if 0 < slot.room then
      { s with
        slots := s.slots.modify s.place (Slot.push n)
        started := true
        inToken := true }
    else { s with inToken := true }
  | none => { s with inToken := true }

/-- Takes a letter, which counts only in the place of the month. -/
def letter (c : Char) (s : Scan) : Scan :=
  if s.place = 1 then
    { s with
      sum := if s.letters = 1 ∨ s.letters = 2 then s.sum + mark c else s.sum
      letters := s.letters + 1
      inToken := true }
  else { s with inToken := true }

/-- Takes a character that stands outside of comments and does not end the date. -/
def push (s : Scan) (c : Char) : Scan :=
  match Text.digit? c with
  | some n => s.digit n
  | none =>
    if c.isAlpha then s.letter c
    else
      match c with
      | ':' => if s.place = 3 ∨ s.place = 4 then s.closeToken else s
      | '+' => { s with place := 6 }
      | '-' => { s with place := 6, behind := true }
      | ' ' => s.closeToken
      | '\t' => s.closeToken
      | ';' => {}
      | _ => s

/-- The number of the month: by name if three letters give one, else as it is written. -/
def month (s : Scan) (written : Nat) : Nat :=
  if s.letters = 3 ∧ s.sum ≤ 30 then ((months.find? (·.1 == s.sum)).map (·.2)).getD 0 else written

/-- The timestamp that was found, if the numbers up to the seconds are complete. -/
def timestamp? (s : Scan) : Option Timestamp :=
  match s.slots.map Slot.value with
  | [day, month, year, hour, minute, second, offset] =>
    if 6 ≤ s.place ∧ offset % 100 ≤ 59 then
      let year := if year ≤ 49 then year + 2000 else if year ≤ 99 then year + 1900 else year
      let size : Int := (60 * (offset / 100) + offset % 100 : Nat)
      Timestamp.ofParts?
        { year, month := s.month month, day, hour, minute, second,
          offset := if s.behind then -size else size }
    else none
  | _ => none

end Scan

/-- Reads on, with as many comments open as `depth` says. The date ends with its line; a line that
begins with a blank belongs to the one before it. -/
def scan (depth : Nat) (s : Scan) : Text → Scan
  | [] => s
  | '\n' :: ' ' :: t => scan depth (if depth = 0 then s.closeToken else s) t
  | '\n' :: '\t' :: t => scan depth (if depth = 0 then s.closeToken else s) t
  | '\n' :: _ => s
  | '\\' :: ')' :: t => scan depth s t
  | c :: t =>
    if depth = 0 then
      if c = '(' then scan 1 { s with inToken := false } t else scan 0 (s.push c) t
    else if c = '(' then scan (depth + 1) s t
    else if c = ')' then scan (depth - 1) s t
    else scan depth s t

/-! ### Header blocks -/

/-- Whether a character is left out around the name of a header. -/
def isBlank (c : Char) : Bool := c == ' ' || c == '\t' || c == '\n' || c == '\r' || c == '\x0c'

/-- What a line of a header block is, if it does not go on with the header before it. -/
inductive BlockLine where
  /-- A line of nothing but blanks ends the block. -/
  | empty
  | header (name value : Text)
  /-- A line without a name or without a colon after it is passed over. -/
  | other
  deriving DecidableEq, Repr

/-- Reads a line of a header block. Colons in front of a name do not count. -/
def BlockLine.ofText (line : Text) : BlockLine :=
  if line.all isBlank then .empty
  else
    match Text.cut? [':'] (line.dropWhile fun c => isBlank c || c == ':') with
    | some (name, value) => .header (name.reverse.dropWhile isBlank).reverse value
    | none => .other

/-- The value of the last `Date` header among the lines of a block; `last` is that of the last one
before them. Indented lines after a header belong to its value. -/
def lastDate (last : Option Text) : List Text → Option Text
  | [] => last
  | line :: rest =>
    match BlockLine.ofText line with
    | .empty => last
    | .other => lastDate last rest
    | .header name value =>
      let value := value ++ (rest.takeWhile Text.isIndented).flatten
      lastDate (if Text.sameName name "Date".toList then some value else last)
        (rest.dropWhile Text.isIndented)
termination_by ls => ls.length
decreasing_by
  · exact Nat.lt_succ_self rest.length
  · exact Nat.lt_succ_of_le (List.dropWhile_sublist Text.isIndented).length_le

/-- The header block that begins with a date. -/
def headerBlock (t : Text) : Text := "Date: ".toList ++ t ++ "\n\n".toList

/-- The timestamp that a careless date stands for. -/
def read? (t : Text) : Option Timestamp :=
  (lastDate none (Text.lines (headerBlock t))).bind fun value => (scan 0 {} value).timestamp?

end Tolerant
end MailArchive
