import Mathlib.Data.List.Forall2
import MailArchive.Report
import MailArchive.Proofs.Calendar.Rfc3339
import MailArchive.Proofs.Conversation.Outline
import MailArchive.Proofs.Text.Lines

/-!
# MailArchive.Proofs.Report.Outline

The printed form of a conversation. Two spaces stand for each level in front of what is printed of a
message, and a date never begins with a space, so the level can be told from the text
(`isLine_outlineLine`). What is printed of a message is one line if there is no line feed in the
message's author and subject; if this is so for all messages, the printed text has a line for each
of them and an empty one (`lines_outline`). `exists_texts` puts the two together.
-/

namespace MailArchive

open Text

/-- Whether what is shown of a message fits on one line. -/
def Message.OneLine (m : Message) : Prop := '\n' ∉ m.author.display ∧ '\n' ∉ m.subject

theorem Date.solid_write (d : Date) : Solid d.write :=
  (((((Rfc3339.solid_writeYear d.year).append _).append _).append _).append _)

theorem Date.lf_notMem_write (d : Date) : '\n' ∉ d.write := by
  have hdigits (w n : Nat) : '\n' ∉ padded w n := fun h => by cases isDigit_of_mem_padded h
  have hyear : '\n' ∉ Date.writeYear d.year := by
    unfold Date.writeYear
    split
    · simp [hdigits]
    · split <;> simp [hdigits]
  simp [Date.write, hyear, hdigits]

theorem TimeOfDay.lf_notMem_writeMinutes (t : TimeOfDay) : '\n' ∉ t.writeMinutes := by
  have hdigits (n : Nat) : '\n' ∉ padded 2 n := fun h => by cases isDigit_of_mem_padded h
  simp [TimeOfDay.writeMinutes, hdigits]

namespace Report

/-- What is printed of a message at a depth: the depth in spaces, and then the message with the end
of the line. -/
structure IsLine (depth : Nat) (m : Message) (text : Text) : Prop where
  indent : (text.takeWhile (· = ' ')).length = 2 * depth
  shown : text.dropWhile (· = ' ') =
    m.date.date.write ++ ' ' :: m.date.time.writeMinutes ++ "  ".toList ++
      m.author.display ++ "  ".toList ++ m.subject ++ ['\n']

theorem isLine_outlineLine (depth : Nat) (m : Message) :
    IsLine depth m (outlineLine depth m) := by
  have hspace : ∀ c ∈ List.replicate (2 * depth) ' ', decide (c = ' ') = true := by
    intro c hc
    exact decide_eq_true (List.eq_of_mem_replicate hc)
  obtain ⟨c, hc, hblank⟩ := m.date.date.solid_write
  obtain ⟨rest, hrest⟩ := List.head?_eq_some_iff.mp hc
  have hne : decide (c = ' ') = false := by
    rw [decide_eq_false_iff_not]
    rintro rfl
    cases hblank
  constructor
  · simp [outlineLine, line, hrest, List.takeWhile_append_of_pos, hne]
  · simp [outlineLine, line, hrest, List.dropWhile_append_of_pos, hne]

theorem lines_outlineLine {m : Message} (h : m.OneLine) (depth : Nat) (rest : Text) :
    lines (outlineLine depth m ++ rest) = outlineLine depth m :: lines rest := by
  have hindent : '\n' ∉ List.replicate (2 * depth) ' ' := fun hmem => by
    cases List.eq_of_mem_replicate hmem
  have hshown : '\n' ∉ List.replicate (2 * depth) ' ' ++ m.date.date.write ++ " ".toList ++
      m.date.time.writeMinutes ++ "  ".toList ++ m.author.display ++ "  ".toList ++ m.subject := by
    simp [hindent, m.date.date.lf_notMem_write, m.date.time.lf_notMem_writeMinutes, h.1, h.2]
  rw [outlineLine, line, List.append_assoc]
  exact lines_append_lf hshown

/-- The printed text has a line for each message, and an empty line at the end. -/
theorem lines_outline {c : Conversation} (h : ∀ m ∈ c.messages, m.OneLine) :
    lines (outline c) =
      ((c.outline 0).map fun l => outlineLine l.1 l.2) ++ [['\n']] := by
  have hlines : ∀ ls : List (Nat × Message), (∀ l ∈ ls, l.2.OneLine) →
      lines ((ls.map fun l => outlineLine l.1 l.2).flatten ++ line []) =
        (ls.map fun l => outlineLine l.1 l.2) ++ [['\n']] := by
    intro ls hls
    induction ls with
    | nil => rfl
    | cons l ls ih =>
      obtain ⟨hl, hls⟩ := List.forall_mem_cons.mp hls
      rw [List.map_cons, List.flatten_cons, List.append_assoc, lines_outlineLine hl, ih hls,
        List.cons_append]
  exact hlines _ fun l hl => h l.2 (Conversation.mem_messages_of_mem_outline hl)

/-- The printed text is the messages of the outline, each behind as many spaces as tell its level,
and an empty line; and these are its lines if each message fits on one. -/
theorem exists_texts (c : Conversation) : ∃ texts : List Text,
    List.Forall₂ (fun l text => IsLine l.1 l.2 text) (c.outline 0) texts ∧
      outline c = texts.flatten ++ ['\n'] ∧
      ((∀ m ∈ c.messages, m.OneLine) → lines (outline c) = texts ++ [['\n']]) := by
  have hend : line [] = ['\n'] := rfl
  refine ⟨(c.outline 0).map fun l => outlineLine l.1 l.2, ?_, ?_, fun h => ?_⟩
  · rw [List.forall₂_map_right_iff, List.forall₂_same]
    exact fun l _ => isLine_outlineLine l.1 l.2
  · rw [outline, hend]
  · rw [lines_outline h]

end Report
end MailArchive
