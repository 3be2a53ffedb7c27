import MailArchive.Text.Line

/-!
# MailArchive.FromLine

In an archive a line that begins with `From ` starts a message, so in a body such a line gets a
leading `>`. To keep this reversible every line that looks quoted already, `>From `, `>>From ` and
so on, gets one more. Each line is treated on its own: `escapeLine` and `unescapeLine` undo each
other on a line that has been escaped (`unescapeLine_escapeLine`).
-/

namespace MailArchive
namespace FromLine

/-- What the line that starts a message begins with. -/
def separator : Text := "From ".toList

/-- Whether a line starts a message if it stands in the right place. -/
def isSeparator (line : Text) : Bool := Text.startsWith separator line

/-- Whether a line is a separator behind any number of `>`. -/
def isQuoted (line : Text) : Bool := isSeparator (line.dropWhile (· == '>'))

/-- A line with one more `>` in front if it is a quoted separator. -/
def escapeLine (line : Text) : Text := if isQuoted line then '>' :: line else line

/-- A line with one `>` less in front if it is a quoted separator that has one. -/
def unescapeLine : Text → Text
  | '>' :: rest => if isQuoted rest then rest else '>' :: rest
  | line => line

/-- A text of which no line is a separator, from which the text can be had back. -/
def escape (t : Text) : Text := (Text.lines t).flatMap escapeLine

/-- The text that was escaped. -/
def unescape (t : Text) : Text := (Text.lines t).flatMap unescapeLine

theorem isQuoted_cons_gt (line : Text) : isQuoted ('>' :: line) = isQuoted line := by
  simp [isQuoted]

theorem unescapeLine_escapeLine (line : Text) : unescapeLine (escapeLine line) = line := by
  unfold escapeLine
  split
  · rename_i h
    simp [unescapeLine, h]
  · rename_i h
    unfold unescapeLine
    split
    · rename_i rest
      rw [isQuoted_cons_gt] at h
      simp [h]
    · rfl

end FromLine
end MailArchive
