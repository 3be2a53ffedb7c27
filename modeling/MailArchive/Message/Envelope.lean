import MailArchive.FromLine

/-!
# MailArchive.Message.Envelope

The line in front of a message in an archive: `From `, who sent the message, and when. A message
that comes by itself may be without it. What follows the line is left as it is
(`Envelope.split_isSuffix`).
-/

namespace MailArchive

structure Envelope where
  sender : Text
  date : Text
  deriving DecidableEq, Repr

namespace Envelope

/-- The envelope from the rest of its line. -/
def ofLine (line : Text) : Envelope :=
  let line := Text.trim line
  ⟨line.takeWhile (!Text.isBlank ·), Text.trim (line.dropWhile (!Text.isBlank ·))⟩

/-- The envelope of a message, if there is one, and the text after its line. -/
def split (t : Text) : Option Envelope × Text :=
  match Text.strip? FromLine.separator t with
  | none => (none, t)
  | some rest =>
    match Text.cut? ['\n'] rest with
    | none => (some (ofLine rest), [])
    | some (line, after) => (some (ofLine line), after)

theorem split_isSuffix (t : Text) : (split t).2 <:+ t := by
  unfold split
  split
  · exact List.suffix_rfl
  · rename_i rest h
    rw [Text.strip?_eq_some_iff] at h
    split
    · exact List.nil_suffix
    · rename_i line after hcut
      refine ⟨FromLine.separator ++ (line ++ ['\n']), ?_⟩
      rw [h, Text.cut?_append hcut, List.append_assoc]

end Envelope

end MailArchive
