import Mathlib.Tactic.IntervalCases
import MailArchive.Calendar.Field
import MailArchive.Proofs.Calendar.Timestamp
import MailArchive.Proofs.Text.Trim

/-!
# MailArchive.Proofs.Calendar.Field

The pieces of a date read back. Digits are taken as a number as far as they go (`number?_append`),
so a number that was written with a fixed width is read with it (`number?_padded`), and the names of
days and months give their places (`name?_weekdayName`, `name?_monthName`). No piece begins with a
blank, so blanks in front of a piece end where it begins, and a date is its own trim
(`trim_append_padded`).
-/

namespace MailArchive

open Text

/-! ## Digits -/

namespace Text

theorem toNat_ofNat (n : Nat) : toNat (ofNat n) = n := Nat.ofDigitChars_ten_toDigits

theorem isDigit_of_mem_ofNat {c : Char} {n : Nat} (h : c ∈ ofNat n) : c.isDigit = true :=
  Nat.isDigit_of_mem_toDigits (by decide) (by decide) h

theorem isDigit_of_mem_padded {c : Char} {width n : Nat} (h : c ∈ padded width n) :
    c.isDigit = true := by
  rcases List.mem_append.mp h with h | h
  · rw [List.eq_of_mem_replicate h]
    rfl
  · exact isDigit_of_mem_ofNat h

theorem toNat_padded (width n : Nat) : toNat (padded width n) = n := by
  show Nat.ofDigitChars 10 (List.replicate _ '0' ++ Nat.toDigits 10 n) 0 = n
  rw [Nat.ofDigitChars_append, Nat.ofDigitChars_replicate_zero, Nat.mul_zero,
    Nat.ofDigitChars_ten_toDigits]

theorem length_ofNat_le {width n : Nat} (hw : 0 < width) (h : n < 10 ^ width) :
    (ofNat n).length ≤ width :=
  (Nat.length_toDigits_le_iff (by decide) hw).mpr h

theorem length_padded {width n : Nat} (hw : 0 < width) (h : n < 10 ^ width) :
    (padded width n).length = width := by
  have hle := length_ofNat_le hw h
  rw [padded, List.leftpad, List.length_append, List.length_replicate]
  omega

end Text

/-! ## Beginnings and ends -/

theorem isBlank_of_isDigit {c : Char} (h : c.isDigit = true) : isBlank c = false := by
  have hc : 48 ≤ c.toNat ∧ c.toNat ≤ 57 := by
    simpa [Char.isDigit, UInt32.le_iff_toNat_le] using h
  simp [isBlank]
  omega

theorem solid_digits {digits : Text} (hd : ∀ c ∈ digits, c.isDigit = true)
    (hne : digits ≠ []) : Solid digits := by
  obtain ⟨c, cs, rfl⟩ := List.exists_cons_of_ne_nil hne
  exact solid_cons (isBlank_of_isDigit (hd c List.mem_cons_self))

theorem solid_ofNat (n : Nat) : Solid (ofNat n) :=
  solid_digits (fun _ => isDigit_of_mem_ofNat) Nat.toDigits_ne_nil

theorem padded_ne_nil (width n : Nat) : padded width n ≠ [] := fun h =>
  Nat.toDigits_ne_nil (List.append_eq_nil_iff.mp h).2

theorem solid_padded (width n : Nat) : Solid (padded width n) :=
  solid_digits (fun _ => isDigit_of_mem_padded) (padded_ne_nil width n)

/-- A text that begins with no blank and ends with a number is its own trim. -/
theorem trim_append_padded {t : Text} (h : Solid t) (width n : Nat) :
    trim (t ++ padded width n) = t ++ padded width n := by
  have hnumber : trim (padded width n) = padded width n :=
    trim_eq_self_of_forall fun _ hc => isBlank_of_isDigit (isDigit_of_mem_padded hc)
  rw [trim_append_eq ⟨hnumber, padded_ne_nil width n⟩, h.trimStart_eq]

namespace Date

theorem solid_weekdayName (d : Date) : Solid d.weekdayName := by
  have hall : ∀ i < 7, Solid (weekdayNames[i]?.getD []) := by
    intro i hi
    interval_cases i <;> exact solid_cons (by decide)
  exact hall _ d.weekday_lt

theorem solid_monthName (d : Date) : Solid d.monthName := by
  have hmonth := d.month_le
  have hall : ∀ i < 12, Solid (monthNames[i]?.getD []) := by
    intro i hi
    interval_cases i <;> exact solid_cons (by decide)
  exact hall _ (by omega)

end Date

/-! ## Characters -/

/-- The characters that dates are written with. -/
def isDateChar (c : Char) : Bool := c.isAlphanum || [' ', ',', ':', '+', '-'].contains c

theorem notMem_of_isDateChar {t : Text} {c : Char} (h : ∀ d ∈ t, isDateChar d = true)
    (hc : isDateChar c = false) : c ∉ t := fun hmem => by
  rw [h c hmem] at hc
  cases hc

theorem isDateChar_of_mem_ofNat (n : Nat) : ∀ c ∈ ofNat n, isDateChar c = true := by
  intro c hc
  simp [isDateChar, Char.isAlphanum, isDigit_of_mem_ofNat hc]

theorem isDateChar_of_mem_padded (width n : Nat) :
    ∀ c ∈ padded width n, isDateChar c = true := by
  intro c hc
  simp [isDateChar, Char.isAlphanum, isDigit_of_mem_padded hc]

namespace Date

theorem isDateChar_of_mem_weekdayName (d : Date) : ∀ c ∈ d.weekdayName, isDateChar c = true := by
  have hall : ∀ i < 7, ∀ c ∈ weekdayNames[i]?.getD [], isDateChar c = true := by decide
  exact hall _ d.weekday_lt

theorem isDateChar_of_mem_monthName (d : Date) : ∀ c ∈ d.monthName, isDateChar c = true := by
  have hmonth := d.month_le
  have hall : ∀ i < 12, ∀ c ∈ monthNames[i]?.getD [], isDateChar c = true := by decide
  exact hall _ (by omega)

end Date

theorem TimeOfDay.isDateChar_of_mem_write (t : TimeOfDay) : ∀ c ∈ t.write, isDateChar c = true := by
  simp only [TimeOfDay.write, TimeOfDay.writeMinutes, List.forall_mem_append]
  exact ⟨⟨⟨⟨isDateChar_of_mem_padded _ _, by decide⟩, isDateChar_of_mem_padded _ _⟩, by decide⟩,
    isDateChar_of_mem_padded _ _⟩

/-! ## Fields -/

namespace Field

variable {least most : Nat} {digits rest : Text}

theorem takeWhile_take_of_head? {t : Text} (h : ∀ c ∈ t.head?, c.isDigit = false) (n : Nat) :
    (t.take n).takeWhile Char.isDigit = [] := by
  cases t with
  | nil => rw [List.take_nil, List.takeWhile_nil]
  | cons c t =>
    cases n with
    | zero => rfl
    | succ n =>
      rw [List.take_succ_cons, List.takeWhile_cons_of_neg]
      rw [h c rfl]
      exact Bool.false_ne_true

theorem takeWhile_take_append (hd : ∀ c ∈ digits, c.isDigit = true) (hm : digits.length ≤ most)
    (hend : digits.length = most ∨ ∀ c ∈ rest.head?, c.isDigit = false) :
    ((digits ++ rest).take most).takeWhile Char.isDigit = digits := by
  have hnil : (rest.take (most - digits.length)).takeWhile Char.isDigit = [] := by
    rcases hend with h | h
    · rw [h, Nat.sub_self, List.take_zero, List.takeWhile_nil]
    · exact takeWhile_take_of_head? h _
  rw [List.take_append, List.take_of_length_le hm, List.takeWhile_append_of_pos hd, hnil,
    List.append_nil]

/-- Digits are a number as far as they go. -/
theorem number?_append (hd : ∀ c ∈ digits, c.isDigit = true) (hl : least ≤ digits.length)
    (hm : digits.length ≤ most)
    (hend : digits.length = most ∨ ∀ c ∈ rest.head?, c.isDigit = false) :
    number? least most (digits ++ rest) = some (toNat digits, rest) := by
  simp only [number?, takeWhile_take_append hd hm hend]
  rw [if_neg (by omega), List.drop_left]

theorem number?_padded {width n : Nat} (hw : 0 < width) (hl : least ≤ width)
    (h : n < 10 ^ width) (rest : Text) :
    number? least width (padded width n ++ rest) = some (n, rest) := by
  have hlen := length_padded hw h
  rw [number?_append (fun _ => isDigit_of_mem_padded) (by omega) (Nat.le_of_eq hlen) (.inl hlen),
    toNat_padded]

theorem twoDigits {n : Nat} (h : n ≤ 60) (rest : Text) :
    number? 2 2 (padded 2 n ++ rest) = some (n, rest) :=
  number?_padded (by decide) (by decide) (by omega) rest

/-- Blanks would be passed over in front of a number with two digits, but there are none. -/
theorem number?_trimStart {n : Nat} (h : n ≤ 60) (rest : Text) :
    number? 1 2 (trimStart (padded 2 n ++ rest)) = some (n, rest) := by
  rw [((solid_padded 2 n).append rest).trimStart_eq]
  exact number?_padded (by decide) (by decide) (by omega) rest

/-- A text that begins with no digit begins with no number. -/
theorem number?_eq_none {t : Text} (hl : 0 < least) (h : ∀ c ∈ t.head?, c.isDigit = false) :
    number? least most t = none := by
  simp only [number?, takeWhile_take_of_head? h]
  exact if_pos hl

theorem signedNumber?_digits {c : Char} (hc : c.isDigit = true) (t : Text) :
    signedNumber? most (c :: t) = (number? 1 most (c :: t)).map fun (n, t) => ((n : Int), t) := by
  unfold signedNumber?
  split
  · rename_i h
    cases h
    cases hc
  · rename_i h
    cases h
    cases hc
  · rfl

theorem signedNumber?_padded {width n : Nat} (hw : 0 < width) (h : n < 10 ^ width) (rest : Text) :
    signedNumber? width (padded width n ++ rest) = some ((n : Int), rest) := by
  have hread : number? 1 width (padded width n ++ rest) = some (n, rest) :=
    number?_padded hw hw h rest
  obtain ⟨c, t, ht⟩ := List.exists_cons_of_ne_nil (padded_ne_nil width n)
  have hc : c.isDigit = true := isDigit_of_mem_padded (by rw [ht]; exact List.mem_cons_self)
  rw [ht, List.cons_append] at hread ⊢
  rw [signedNumber?_digits hc, hread]
  rfl

theorem afterBlanks?_space {t : Text} (h : Solid t) : afterBlanks? (' ' :: t) = some t := by
  rw [afterBlanks?, if_pos (by decide), h.trimStart_eq]

theorem after?_cons (c : Char) (t : Text) : after? c (c :: t) = some t := if_pos rfl

theorem after?_trimStart {c : Char} (hc : isBlank c = false) (rest : Text) :
    after? c (trimStart (c :: rest)) = some rest := by
  rw [(solid_cons hc).trimStart_eq, after?_cons]

/-- Nine digits at most tell the nanoseconds. -/
theorem fraction?_padded {width n : Nat} (hw : 0 < width) (hw' : width ≤ 9) (h : n < 10 ^ width)
    (hrest : ∀ c ∈ rest.head?, c.isDigit = false) :
    fraction? ('.' :: (padded width n ++ rest)) = some (n * 10 ^ (9 - width), rest) := by
  have hlen := length_padded hw h
  have hdigits : ((padded width n ++ rest).take 9).takeWhile Char.isDigit = padded width n :=
    takeWhile_take_append (fun _ hc => isDigit_of_mem_padded hc) (hlen.trans_le hw') (.inr hrest)
  have hdrop : ((padded width n ++ rest).drop width).dropWhile Char.isDigit = rest := by
    rw [List.drop_left' hlen]
    cases rest with
    | nil => rfl
    | cons c rest => rw [List.dropWhile_cons_of_neg (by simp [hrest c rfl])]
  simp only [fraction?, hdigits, List.isEmpty_iff, padded_ne_nil, if_false, hlen, hdrop,
    toNat_padded]
  rfl

/-- An offset of whole minutes is read back if what stands between hours and minutes is passed
over. -/
theorem offset?_writeOffset {between : Text → Option Text} {separator : Text} {t : Timestamp}
    (h : 60 ∣ t.ahead)
    (hbetween : ∀ n, between (separator ++ padded 2 n) = some (padded 2 n)) :
    offset? between (Timestamp.writeOffset separator t) = some (t.offset, []) := by
  have hahead := Timestamp.ahead_eq h
  have hday := Timestamp.offset_lt_day h
  unfold Timestamp.writeOffset
  generalize hsize : t.offset.natAbs = size at hday ⊢
  have hhours : number? 2 2 (padded 2 (size / 60) ++ (separator ++ padded 2 (size % 60))) =
      some (size / 60, separator ++ padded 2 (size % 60)) :=
    number?_padded (by decide) (by decide) (by omega) _
  have hminutes : number? 2 2 (padded 2 (size % 60)) = some (size % 60, []) := by
    have hread : number? 2 2 (padded 2 (size % 60) ++ []) = some (size % 60, []) :=
      twoDigits (by omega) []
    rwa [List.append_nil] at hread
  have hminute : size % 60 ≤ 59 := by omega
  by_cases hneg : t.ahead < 0
  · simp [offset?, sign?, hneg, hhours, hbetween, hminutes, hminute]
    omega
  · simp [offset?, sign?, hneg, hhours, hbetween, hminutes, hminute]
    omega

/-- The names of the days are told apart. -/
theorem name?_weekdayName (d : Date) (rest : Text) :
    name? Date.weekdayNames (d.weekdayName ++ rest) = some (d.weekday, rest) := by
  have hall : ∀ i < 7,
      name? Date.weekdayNames (Date.weekdayNames[i]?.getD [] ++ rest) = some (i, rest) := by
    intro i hi
    interval_cases i <;> rfl
  exact hall _ d.weekday_lt

/-- The names of the months are told apart. -/
theorem name?_monthName (d : Date) (rest : Text) :
    name? Date.monthNames (d.monthName ++ rest) = some (d.month - 1, rest) := by
  have hmonth := d.month_le
  have hall : ∀ i < 12,
      name? Date.monthNames (Date.monthNames[i]?.getD [] ++ rest) = some (i, rest) := by
    intro i hi
    interval_cases i <;> rfl
  exact hall _ (by omega)

end Field

theorem bind_of_eq_some {α β : Type} {x : Option α} {a : α} {f : α → Option β} {y : Option β}
    (h : x = some a) (hf : f a = y) : (x >>= f) = y := by
  rw [h]
  exact hf

end MailArchive
