import MailArchive.Message
import MailArchive.Text.Line

/-!
# MailArchive.Message.HeaderBlock

The headers of a message up to the first empty line. A header is a line with a colon; the lines
after it that begin with a blank continue its value. Other lines are left out, but they do not end
the header before them: a continuation after such a line still belongs to that header. The body
after the empty line is left as it is (`Header.splitBlock_isSuffix`).
-/

namespace MailArchive
namespace Header

def endsBlock (line : Text) : Bool := line.all fun c => c == '\r' || c == '\n'

def splitBlock (t : Text) : Text × Text :=
  let ls := Text.lines t
  ((ls.takeWhile (!endsBlock ·)).flatten, ((ls.dropWhile (!endsBlock ·)).drop 1).flatten)

theorem splitBlock_isSuffix (t : Text) : (splitBlock t).2 <:+ t := by
  let ls := Text.lines t
  refine ⟨(ls.takeWhile (!endsBlock ·) ++ (ls.dropWhile (!endsBlock ·)).take 1).flatten, ?_⟩
  show _ ++ ((ls.dropWhile (!endsBlock ·)).drop 1).flatten = t
  rw [← List.flatten_append, List.append_assoc, List.take_append_drop,
    List.takeWhile_append_dropWhile, Text.flatten_lines]

/-- The header that a line holds, if there is a colon in it. -/
def ofLine? (line : Text) : Option Header :=
  (Text.cut? [':'] line).map fun (name, value) => ⟨Text.trim name, Text.trim value⟩

/-- Reads one line in front of those that are read already. They have given headers, and
continuations that still wait for a header in front of them. -/
def pushLine (line : Text) (read : List Text × List Header) : List Text × List Header :=
  if Text.isIndented line then (Text.trim line :: read.1, read.2)
  else
    match ofLine? line with
    | none => read
    | some h => ([], { h with value := Text.join [' '] (h.value :: read.1) } :: read.2)

def blockLines (block : Text) : List Text := (Text.lines block).map Text.dropTerminator

/-- The headers of a block. Continuations in front of all headers are left out. -/
def unfold (block : Text) : List Header := ((blockLines block).foldr pushLine ([], [])).2

/-- The lines of a block that are left out because they are no headers. -/
def skipped (block : Text) : List Text :=
  (blockLines block).filter fun line => !Text.isIndented line && (ofLine? line).isNone

/-- The names of the headers that become fields of a message. -/
def lifted : List Text :=
  ["from".toList, "sender".toList, "to".toList, "date".toList, "subject".toList,
    "message-id".toList]

def isLifted (h : Header) : Bool := lifted.any (Text.sameName h.name)

end Header
end MailArchive
