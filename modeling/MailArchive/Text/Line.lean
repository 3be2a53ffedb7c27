import MailArchive.Text.Basic

/-!
# MailArchive.Text.Line

Lines. A text is cut after each line feed, so a line carries its terminator, which is a line feed
or a carriage return and a line feed; only the last line of a text may have none. `flatten_lines`
says that the lines put together are the text again.
-/

namespace MailArchive
namespace Text

def consLine (c : Char) (ls : List Text) : List Text :=
  if c = '\n' then [c] :: ls
  else
    match ls with
    | [] => [[c]]
    | l :: rest => (c :: l) :: rest

/-- The lines of a text, each with its terminator. -/
def lines (t : Text) : List Text := t.foldr consLine []

@[simp] theorem lines_nil : lines [] = [] := rfl

theorem lines_cons (c : Char) (t : Text) : lines (c :: t) = consLine c (lines t) := rfl

theorem flatten_consLine (c : Char) (ls : List Text) :
    (consLine c ls).flatten = c :: ls.flatten := by
  unfold consLine
  split
  · simp
  · cases ls <;> simp

@[simp] theorem flatten_lines (t : Text) : (lines t).flatten = t := by
  induction t with
  | nil => rfl
  | cons c t ih => rw [lines_cons, flatten_consLine, ih]

/-- A text without the line terminator it ends with, if it ends with one. -/
def dropTerminator (t : Text) : Text :=
  match t.reverse with
  | '\n' :: '\r' :: rest => rest.reverse
  | '\n' :: rest => rest.reverse
  | _ => t

/-- A blank line holds nothing but its terminator. -/
def isBlankLine (line : Text) : Bool := (dropTerminator line).isEmpty

/-- Whether a line begins with a space or a tab, as the lines do that go on with a header. -/
def isIndented : Text → Bool
  | c :: _ => c == ' ' || c == '\t'
  | [] => false

end Text
end MailArchive
