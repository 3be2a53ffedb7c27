import MailArchive.Json.Read
import MailArchive.Json.Write
import MailArchive.Proofs.Calendar.Field

/-!
# MailArchive.Proofs.Json.Scalar

Strings and whole numbers in JSON text. Every character is read back from the way in which it is
written (`codePoints?_escapeChar`), and so is a string (`string?_flatMap`). The digits of a number
are read as far as a value can go (`number?_ofNat`).
-/

namespace MailArchive
namespace Json

variable {rest : Text} {n : Nat}

/-! ## Strings -/

theorem numberIn?_hexDigit : ∀ n < 32,
    Text.numberIn? 16 ['0', '0', hexDigit (n / 16), hexDigit (n % 16)] = some n := by
  decide

theorem codePoints?_escape {c : Char} (hu : c ≠ 'u') (h : escaped? c = some n) (t : Text) :
    codePoints? ('\\' :: c :: t) = (codePoints? t).map fun (ns, t) => (n :: ns, t) := by
  rw [codePoints?]
  · rw [h]
    cases codePoints? t <;> rfl
  · intro _ _ _ _ _ h
    exact absurd h hu

theorem codePoints?_hex {a b c d : Char} (h : Text.numberIn? 16 [a, b, c, d] = some n) (t : Text) :
    codePoints? ('\\' :: 'u' :: a :: b :: c :: d :: t) =
      (codePoints? t).map fun (ns, t) => (n :: ns, t) := by
  rw [codePoints?, h]
  cases codePoints? t <;> rfl

theorem codePoints?_cons {c : Char} (hq : c ≠ '"') (hb : c ≠ '\\') (hc : 32 ≤ c.toNat) (t : Text) :
    codePoints? (c :: t) = (codePoints? t).map fun (ns, t) => (c.toNat :: ns, t) := by
  rw [codePoints?]
  · rw [if_neg]
    · rintro (h | h)
      · exact absurd hc (Nat.not_le.mpr h)
      · exact hb h
  · exact hq
  · intro _ _ _ _ _ h
    exact absurd h hb
  · intro _ _ h
    exact absurd h hb

/-- A character is read back from the way in which it is written. -/
theorem codePoints?_escapeChar (c : Char) (t : Text) :
    codePoints? (escapeChar c ++ t) =
      (codePoints? t).map fun (ns, t) => (c.toNat :: ns, t) := by
  unfold escapeChar
  split
  · exact codePoints?_escape (by decide) rfl t
  · exact codePoints?_escape (by decide) rfl t
  · exact codePoints?_escape (by decide) rfl t
  · exact codePoints?_escape (by decide) rfl t
  · exact codePoints?_escape (by decide) rfl t
  · rename_i hq hb _ _ _
    split
    · rename_i h
      rw [h]
      exact codePoints?_escape (by decide) rfl t
    split
    · rename_i h
      rw [h]
      exact codePoints?_escape (by decide) rfl t
    split
    · rename_i h
      exact codePoints?_hex (numberIn?_hexDigit c.toNat h) t
    · rename_i h
      exact codePoints?_cons hq hb (Nat.not_lt.mp h) t

theorem codePoints?_flatMap (s rest : Text) :
    codePoints? (s.flatMap escapeChar ++ '"' :: rest) = some (s.map Char.toNat, rest) := by
  induction s with
  | nil => rw [List.flatMap_nil, List.nil_append, codePoints?, List.map_nil]
  | cons c s ih =>
    rw [List.flatMap_cons, List.append_assoc, codePoints?_escapeChar, ih, Option.map_some,
      List.map_cons]

/-- No character is half of a surrogate pair. -/
theorem isHigh_or_isLow_toNat (c : Char) : (isHigh c.toNat || isLow c.toNat) = false := by
  have hvalid : c.toNat < 0xD800 ∨ 0xDFFF < c.toNat ∧ c.toNat < 0x110000 := c.valid
  simp only [isHigh, isLow, Bool.or_eq_false_iff, Bool.and_eq_false_iff, decide_eq_false_iff_not]
  omega

theorem textOf?_map_toNat (s : Text) : textOf? (s.map Char.toNat) = some s := by
  induction s with
  | nil => rfl
  | cons c s ih =>
    obtain ⟨hhigh, hlow⟩ := Bool.or_eq_false_iff.mp (isHigh_or_isLow_toNat c)
    cases s with
    | nil => simp [textOf?, hhigh, hlow]
    | cons d s =>
      rw [List.map_cons, List.map_cons, textOf?, hhigh, hlow, ← List.map_cons, ih]
      simp

theorem string?_flatMap (s rest : Text) :
    string? (s.flatMap escapeChar ++ '"' :: rest) = some (some s, rest) := by
  rw [string?, codePoints?_flatMap, Option.map_some, ← textOf?_map_toNat s]

/-! ## Numbers -/

/-- What can stand after a value: nothing, a comma, or the end of a line. -/
inductive Stops : Text → Prop where
  | done : Stops []
  | comma (t : Text) : Stops (',' :: t)
  | line (t : Text) : Stops ('\n' :: t)

/-- Only zero is written with a zero in front. -/
theorem ofNat_eq_cons (h : 0 < n) : ∃ c u, Text.ofNat n = c :: u ∧ c ≠ '0' := by
  induction n using Nat.strong_induction_on with
  | _ n ih =>
    by_cases hn : n < 10
    · have hall : ∀ n < 10, 0 < n → n.digitChar ≠ '0' := by decide
      exact ⟨n.digitChar, [], Nat.toDigits_of_lt_base hn, hall n hn h⟩
    · have hle : 10 ≤ n := Nat.not_lt.mp hn
      obtain ⟨c, u, hcu, hc⟩ :=
        ih (n / 10) (Nat.div_lt_self h (by decide)) (Nat.div_pos hle (by decide))
      refine ⟨c, u ++ [(n % 10).digitChar], ?_, hc⟩
      rw [Text.ofNat, Nat.toDigits_of_base_le (by decide) hle, ← Text.ofNat, hcu, List.cons_append]

theorem digits?_ofNat (n : Nat) (hr : Stops rest) :
    digits? (Text.ofNat n ++ rest) = some (Text.ofNat n, rest) := by
  have hrest : rest.takeWhile Char.isDigit = [] := by cases hr <;> rfl
  have htake : (Text.ofNat n ++ rest).takeWhile Char.isDigit = Text.ofNat n := by
    rw [List.takeWhile_append_of_pos fun _ => Text.isDigit_of_mem_ofNat, hrest, List.append_nil]
  have hne : (Text.ofNat n).isEmpty = false := List.isEmpty_eq_false_iff.mpr Nat.toDigits_ne_nil
  simp only [digits?, htake, hne, List.drop_left]
  rfl

theorem whole?_ofNat (n : Nat) (hr : Stops rest) :
    whole? (Text.ofNat n ++ rest) = some (Text.ofNat n, rest) := by
  rcases Nat.eq_zero_or_pos n with rfl | hn
  · rfl
  · rw [← digits?_ofNat n hr]
    obtain ⟨c, u, hcu, hc⟩ := ofNat_eq_cons hn
    rw [hcu, List.cons_append, whole?]
    rintro v h
    exact hc (List.cons.inj h).1

theorem number?_ofNat (n : Nat) (hr : Stops rest) :
    number? (Text.ofNat n ++ rest) = some (ofNat n, rest) := by
  have hsize : size? (Text.ofNat n ++ rest) = some (Text.ofNat n, rest) := by
    have hfraction : fraction? rest = some ([], rest) := by cases hr <;> rfl
    have hexponent : exponent? rest = some ([], rest) := by cases hr <;> rfl
    rw [size?, whole?_ofNat n hr]
    simp [hfraction, hexponent]
  obtain ⟨c, u, hcu⟩ : ∃ c u, Text.ofNat n = c :: u :=
    List.exists_cons_of_ne_nil Nat.toDigits_ne_nil
  have hminus : c ≠ '-' := by
    rintro rfl
    have hdigit : ('-').isDigit = true :=
      Text.isDigit_of_mem_ofNat (n := n) (hcu ▸ List.mem_cons_self)
    cases hdigit
  rw [hcu, List.cons_append] at hsize
  rw [ofNat, hcu, List.cons_append, number?, hsize, Option.map_some]
  intro _ h
  exact hminus (List.cons.inj h).1

end Json
end MailArchive
