import MailArchive.FromLine
import MailArchive.Proofs.EncodedWord.Encode
import MailArchive.Proofs.Text.Cut

/-!
# MailArchive.Proofs.FromLine.Escape

Escaping line by line. The lines of an escaped text are the lines of the text, escaped
(`lines_escape`), and none of them is a separator (`isSeparator_escapeLine`); the text is had back
from them (`unescape_escape`). Encoded words do not interfere, since they never change whether a
line is quoted (`isQuoted_encode`): words can be written before or after the lines are escaped
(`escape_encode`), and before or after the escapes are undone (`unescape_encode`).
-/

namespace MailArchive
namespace FromLine

open Text

variable {a b t line : Text}

/-! ## Quoted lines -/

theorem isSeparator_iff : isSeparator line = true ↔ separator <+: line := startsWith_iff

theorem isQuoted_of_isSeparator (h : isSeparator line = true) : isQuoted line = true := by
  obtain ⟨rest, rfl⟩ := isSeparator_iff.mp h
  rfl

theorem isSeparator_of_isQuoted (h : isQuoted line = false) : isSeparator line = false := by
  rw [Bool.eq_false_iff]
  intro hs
  rw [isQuoted_of_isSeparator hs] at h
  cases h

/-- A separator ends in front of a character that it does not have. -/
theorem isSeparator_append_cons {c : Char} (hc : c ∉ separator) (rest : Text) :
    isSeparator (line ++ c :: rest) = isSeparator line := by
  rw [Bool.eq_iff_iff, isSeparator_iff, isSeparator_iff, prefix_append_cons_iff hc]

theorem isQuoted_of_head? (h : line.head? ≠ some '>') : isQuoted line = isSeparator line := by
  cases line with
  | nil => rfl
  | cons c line =>
    have hc : c ≠ '>' := by simpa using h
    simp [isQuoted, hc]

theorem isQuoted_append_cons {c : Char} (hc : c ∉ '>' :: separator) (rest : Text) :
    isQuoted (line ++ c :: rest) = isQuoted line := by
  rw [List.mem_cons, not_or] at hc
  induction line with
  | nil =>
    have hhead : (c :: rest).head? ≠ some '>' := by simpa using hc.1
    have hnil : isSeparator ([] ++ c :: rest) = isSeparator [] := isSeparator_append_cons hc.2 rest
    rw [List.nil_append, isQuoted_of_head? hhead]
    exact hnil
  | cons d line ih =>
    by_cases hd : d = '>'
    · subst hd
      rw [List.cons_append, isQuoted_cons_gt, isQuoted_cons_gt, ih]
    · rw [isQuoted_of_head? (by simpa using hd), isQuoted_of_head? (by simpa using hd),
        isSeparator_append_cons hc.2]

theorem unescapeLine_of_head? (h : line.head? ≠ some '>') : unescapeLine line = line := by
  cases line with
  | nil => rfl
  | cons c line =>
    unfold unescapeLine
    split
    · rename_i heq
      obtain ⟨rfl, _⟩ := List.cons.inj heq
      exact absurd rfl h
    · rfl

theorem isQuoted_of_notMem (h : ' ' ∉ line) : isQuoted line = false := by
  rw [Bool.eq_false_iff]
  intro hq
  have hblank : ' ' ∈ line.dropWhile (· == '>') := (isSeparator_iff.mp hq).subset (by decide)
  exact h ((List.dropWhile_suffix _).subset hblank)

theorem unescapeLine_of_isQuoted (h : isQuoted line = false) : unescapeLine line = line := by
  unfold unescapeLine
  split
  · rename_i rest
    rw [isQuoted_cons_gt] at h
    rw [h]
    rfl
  · rfl

/-- Whether a line is escaped is seen in front of any character that no escape has. -/
theorem unescapeLine_append_cons {c : Char} (hc : c ∉ '>' :: separator) (line rest : Text) :
    unescapeLine (line ++ c :: rest) = unescapeLine line ++ c :: rest := by
  by_cases hh : line.head? = some '>'
  · obtain ⟨line, rfl⟩ := List.head?_eq_some_iff.mp hh
    rw [List.cons_append, unescapeLine, unescapeLine, isQuoted_append_cons hc]
    split <;> rfl
  · have hline : (line ++ c :: rest).head? ≠ some '>' := by
      cases line with
      | nil => exact fun h => hc (by simpa using Or.inl (Option.some.inj h))
      | cons d line => exact hh
    rw [unescapeLine_of_head? hh, unescapeLine_of_head? hline]

/-- A line loses nothing but a quotation mark in front of a quoted separator. -/
theorem unescapeLine_cases (line : Text) :
    unescapeLine line = line ∨
      isQuoted (unescapeLine line) = true ∧ line = '>' :: unescapeLine line := by
  unfold unescapeLine
  split
  · rename_i rest
    split
    · rename_i h
      exact .inr ⟨h, rfl⟩
    · exact .inl rfl
  · exact .inl rfl

theorem unescapeLine_isSuffix (line : Text) : unescapeLine line <:+ line := by
  rcases unescapeLine_cases line with h | ⟨_, h⟩
  · exact ⟨[], h⟩
  · exact ⟨['>'], h.symm⟩

theorem notMem_unescapeLine {c : Char} (h : c ∉ line) : c ∉ unescapeLine line :=
  fun hc => h ((unescapeLine_isSuffix line).subset hc)

/-! ## Escaping -/

theorem escapeLine_append_cons {c : Char} (hc : c ∉ '>' :: separator) (rest : Text) :
    escapeLine (line ++ c :: rest) = escapeLine line ++ c :: rest := by
  unfold escapeLine
  rw [isQuoted_append_cons hc]
  split <;> rfl

theorem mem_escapeLine {c : Char} (h : c ∈ escapeLine line) : c = '>' ∨ c ∈ line := by
  unfold escapeLine at h
  split at h
  · exact List.mem_cons.mp h
  · exact .inr h

theorem isSeparator_escapeLine (line : Text) : isSeparator (escapeLine line) = false := by
  unfold escapeLine
  split
  · rfl
  · rename_i h
    exact isSeparator_of_isQuoted (Bool.not_eq_true _ ▸ h)

theorem lines_escape (t : Text) : lines (escape t) = (lines t).map escapeLine := by
  have hlf : ∀ {u : Text}, '\n' ∉ u → '\n' ∉ escapeLine u := by
    intro u hu h
    rcases mem_escapeLine h with h | h
    · exact absurd h (by decide)
    · exact hu h
  induction t using lineInduction with
  | last a ha =>
    cases a with
    | nil => rfl
    | cons c a =>
      have hne : escapeLine (c :: a) ≠ [] := by
        unfold escapeLine
        split <;> simp
      rw [escape, lines_of_notMem ha (by simp), List.flatMap_singleton,
        lines_of_notMem (hlf ha) hne]
      rfl
  | line a t ha ih =>
    have hline : escapeLine (a ++ ['\n']) = escapeLine a ++ ['\n'] :=
      escapeLine_append_cons (by decide) []
    rw [escape, lines_append_lf ha, List.flatMap_cons, hline, List.append_assoc,
      List.singleton_append, lines_append_lf (hlf ha), ← escape, ih, List.map_cons, hline]

theorem unescape_escape (t : Text) : unescape (escape t) = t := by
  rw [unescape, lines_escape, List.flatMap_map]
  simp only [unescapeLine_escapeLine]
  rw [List.flatMap_id', flatten_lines]

theorem escape_of_notMem (h : '\n' ∉ a) : escape a = escapeLine a := by
  cases a with
  | nil => rfl
  | cons c a => rw [escape, lines_of_notMem h (by simp), List.flatMap_singleton]

theorem escape_append_lf (h : '\n' ∉ a) :
    escape (a ++ '\n' :: t) = escapeLine a ++ '\n' :: escape t := by
  rw [escape, lines_append_lf h, List.flatMap_cons, escapeLine_append_cons (by decide),
    List.append_assoc, ← escape]
  rfl

/-- What no separator has in it stays at the end of a text. -/
theorem escape_append_singleton {c : Char} (hc : c ∉ '>' :: separator) (t : Text) :
    escape (t ++ [c]) = escape t ++ [c] := by
  induction t using lineInduction with
  | last a ha =>
    rw [escape, lines_append_singleton ha, List.flatMap_singleton, escapeLine_append_cons hc,
      escape_of_notMem ha]
  | line a t ha ih =>
    rw [List.append_assoc, List.cons_append, escape_append_lf ha, ih, escape_append_lf ha,
      List.append_assoc, List.cons_append]

/-- Escapes stand at the front of lines, so a text ends as it did. -/
theorem getLast?_escape (t : Text) : (escape t).getLast? = t.getLast? := by
  induction t using lineInduction with
  | last a ha =>
    rw [escape_of_notMem ha]
    cases a with
    | nil => rfl
    | cons c a =>
      unfold escapeLine
      split <;> rfl
  | line a t ha ih =>
    rw [escape_append_lf ha, List.getLast?_append, List.getLast?_append, List.getLast?_cons,
      List.getLast?_cons, ih]
    cases t.getLast? <;> rfl

theorem unescape_append (h : Closed a) : unescape (a ++ b) = unescape a ++ unescape b := by
  rw [unescape, lines_append h, List.flatMap_append, ← unescape, ← unescape]

theorem unescape_of_notMem (h : '\n' ∉ a) : unescape a = unescapeLine a := by
  cases a with
  | nil => rfl
  | cons c a => rw [unescape, lines_of_notMem h (by simp), List.flatMap_singleton]

theorem unescape_append_lf (h : '\n' ∉ a) :
    unescape (a ++ '\n' :: t) = unescapeLine a ++ '\n' :: unescape t := by
  rw [unescape, lines_append_lf h, List.flatMap_cons, unescapeLine_append_cons (by decide),
    List.append_assoc, ← unescape]
  rfl

/-! ## Encoded words -/

theorem isSeparator_encode (line : Text) :
    isSeparator (EncodedWord.encode line) = isSeparator line := by
  rw [Bool.eq_iff_iff, isSeparator_iff, isSeparator_iff, EncodedWord.prefix_encode_iff (by decide)]

theorem head?_encode_ne (h : line.head? ≠ some '>') :
    (EncodedWord.encode line).head? ≠ some '>' := by
  rw [EncodedWord.head?_encode]
  cases line with
  | nil => exact h
  | cons c line =>
    simp only [List.head?_cons, Option.map_some, ne_eq, Option.some.injEq, EncodedWord.edge]
    split
    · simpa using h
    · decide

theorem isQuoted_encode (line : Text) : isQuoted (EncodedWord.encode line) = isQuoted line := by
  induction line with
  | nil => rfl
  | cons c line ih =>
    by_cases hc : c = '>'
    · subst hc
      rw [EncodedWord.encode_cons (by decide), isQuoted_cons_gt, isQuoted_cons_gt, ih]
    · have hhead : (c :: line).head? ≠ some '>' := by simpa using hc
      rw [isQuoted_of_head? (head?_encode_ne hhead), isQuoted_of_head? hhead, isSeparator_encode]

theorem unescapeLine_encode (line : Text) :
    unescapeLine (EncodedWord.encode line) = EncodedWord.encode (unescapeLine line) := by
  by_cases hh : line.head? = some '>'
  · obtain ⟨rest, rfl⟩ := List.head?_eq_some_iff.mp hh
    rw [EncodedWord.encode_cons (by decide), unescapeLine, unescapeLine, isQuoted_encode]
    split
    · rfl
    · rw [EncodedWord.encode_cons (by decide)]
  · rw [unescapeLine_of_head? hh, unescapeLine_of_head? (head?_encode_ne hh)]

theorem escapeLine_encode (line : Text) :
    escapeLine (EncodedWord.encode line) = EncodedWord.encode (escapeLine line) := by
  unfold escapeLine
  rw [isQuoted_encode]
  split
  · rw [EncodedWord.encode_cons (by decide)]
  · rfl

/-- What a function that keeps line ends makes of the lines can be written line by line. -/
theorem encode_flatMap_lines {f : Text → Text} (hf : ∀ a, Closed (f (a ++ ['\n']))) (t : Text) :
    EncodedWord.encode ((lines t).flatMap f) =
      (lines t).flatMap fun line => EncodedWord.encode (f line) := by
  induction t using lineInduction with
  | last a ha =>
    cases a with
    | nil => rfl
    | cons c a => rw [lines_of_notMem ha (by simp), List.flatMap_singleton, List.flatMap_singleton]
  | line a t ha ih =>
    have hlast : ∀ c ∈ (f (a ++ ['\n'])).getLast?, isAscii c = true := by
      intro c hc
      rw [hf a c hc]
      decide
    rw [lines_append_lf ha, List.flatMap_cons, List.flatMap_cons,
      EncodedWord.encode_append hlast, ih]

theorem closed_unescapeLine (a : Text) : Closed (unescapeLine (a ++ ['\n'])) := by
  rw [unescapeLine_append_cons (by decide)]
  exact closed_append_lf

theorem closed_escapeLine (a : Text) : Closed (escapeLine (a ++ ['\n'])) := by
  rw [escapeLine_append_cons (by decide)]
  exact closed_append_lf

theorem escape_encode (t : Text) :
    escape (EncodedWord.encode t) = EncodedWord.encode (escape t) := by
  rw [escape, EncodedWord.lines_encode, List.flatMap_map, escape,
    encode_flatMap_lines closed_escapeLine]
  simp only [escapeLine_encode]

theorem unescape_encode (t : Text) :
    unescape (EncodedWord.encode t) = EncodedWord.encode (unescape t) := by
  rw [unescape, EncodedWord.lines_encode, List.flatMap_map, unescape,
    encode_flatMap_lines closed_unescapeLine]
  simp only [unescapeLine_encode]

end FromLine
end MailArchive
