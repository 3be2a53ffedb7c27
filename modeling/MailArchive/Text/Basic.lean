/-!
# MailArchive.Text.Basic

A text is the list of its characters. This file holds what the rest of the library says about
texts in general: blanks and trimming, removing a known beginning, cutting at the first occurrence
of a separator, and writing numbers. `strip?_eq_some_iff` says that removing a beginning is exactly
undoing an append, and `cut?_append` that a cut loses nothing but the separator.
-/

namespace MailArchive

/-- A text, as the list of its characters. -/
abbrev Text := List Char

namespace Text

/-- The law is found at once, and is one and the same wherever a text is looked up in a list. -/
instance : LawfulBEq Text := inferInstance

/-- Whether all characters of a text have a property is decided by going through the text, and not
through all the characters there are. -/
instance decidableForallMem (p : Char → Prop) [DecidablePred p] (t : Text) :
    Decidable (∀ c ∈ t, p c) :=
  List.decidableBAll p t

instance decidableForallMemOption (p : Char → Prop) [DecidablePred p] (o : Option Char) :
    Decidable (∀ c ∈ o, p c) :=
  Option.decidableForallMem o

/-- A blank is a character with the Unicode property White_Space. -/
def isBlank (c : Char) : Bool :=
  let n := c.toNat
  (9 ≤ n && n ≤ 13) || n == 0x20 || n == 0x85 || n == 0xA0 || n == 0x1680 ||
    (0x2000 ≤ n && n ≤ 0x200A) || n == 0x2028 || n == 0x2029 || n == 0x202F || n == 0x205F ||
    n == 0x3000

/-- An ASCII character is one of the first 128. -/
def isAscii (c : Char) : Bool := c.toNat < 128

def trimStart (t : Text) : Text := t.dropWhile isBlank

def trimEnd (t : Text) : Text := (t.reverse.dropWhile isBlank).reverse

/-- The text without the blanks around it. -/
def trim (t : Text) : Text := trimEnd (trimStart t)

/-- What follows `start` in a text that begins with it. -/
def strip? : Text → Text → Option Text
  | [], t => some t
  | _ :: _, [] => none
  | p :: ps, c :: cs => if p = c then strip? ps cs else none

theorem strip?_eq_some_iff {start t rest : Text} :
    strip? start t = some rest ↔ t = start ++ rest := by
  induction start generalizing t with
  | nil => simp [strip?]
  | cons p ps ih =>
    cases t with
    | nil => simp [strip?]
    | cons c cs =>
      by_cases h : p = c
      · simp [strip?, h, ih]
      · simp [strip?, h, Ne.symm h]

theorem strip?_append (start rest : Text) : strip? start (start ++ rest) = some rest :=
  strip?_eq_some_iff.mpr rfl

def startsWith (start t : Text) : Bool := (strip? start t).isSome

/-- Looks for the separator with the characters passed so far in hand, last one first. -/
def cutAfter (separator : Text) : Text → Text → Option (Text × Text)
  | passed, t =>
    match strip? separator t with
    | some rest => some (passed.reverse, rest)
    | none =>
      match t with
      | [] => none
      | c :: cs => cutAfter separator (c :: passed) cs

/-- The text before the first occurrence of the separator and the text after it. -/
def cut? (separator t : Text) : Option (Text × Text) := cutAfter separator [] t

theorem cutAfter_append {separator passed t before after : Text}
    (h : cutAfter separator passed t = some (before, after)) :
    passed.reverse ++ t = before ++ separator ++ after := by
  induction t generalizing passed with
  | nil =>
    unfold cutAfter at h
    split at h
    · rename_i rest hr
      rw [strip?_eq_some_iff] at hr
      simp only [Option.some.injEq, Prod.mk.injEq] at h
      obtain ⟨rfl, rfl⟩ := h
      simp [← hr]
    · simp at h
  | cons c cs ih =>
    unfold cutAfter at h
    split at h
    · rename_i rest hr
      rw [strip?_eq_some_iff] at hr
      simp only [Option.some.injEq, Prod.mk.injEq] at h
      obtain ⟨rfl, rfl⟩ := h
      simp [hr]
    · simpa using ih h

/-- A cut loses nothing but the separator. -/
theorem cut?_append {separator t before after : Text}
    (h : cut? separator t = some (before, after)) : t = before ++ separator ++ after := by
  simpa using cutAfter_append h

theorem length_after_lt {separator t before after : Text} (hs : separator ≠ [])
    (h : cut? separator t = some (before, after)) : after.length < t.length := by
  have := List.length_pos_iff.mpr hs
  rw [cut?_append h]
  simp
  omega

/-- The text before the last occurrence of a character and the text after it. -/
def cutLast? (c : Char) (t : Text) : Option (Text × Text) :=
  match t.reverse.dropWhile (· != c) with
  | [] => none
  | _ :: before => some (before.reverse, (t.reverse.takeWhile (· != c)).reverse)

/-- Whether two texts are the same but for the case of their ASCII letters. -/
def sameName (a b : Text) : Bool := a.map Char.toLower == b.map Char.toLower

def byteLength (t : Text) : Nat := t.foldl (fun n c => n + c.utf8Size) 0

def ofNat (n : Nat) : Text := Nat.toDigits 10 n

/-- A number in at least `width` decimal digits, with zeros in front. -/
def padded (width n : Nat) : Text := (ofNat n).leftpad width '0'

/-- The texts one after the other, with the separator between them. -/
def join (separator : Text) (ts : List Text) : Text := separator.intercalate ts

def digit? (c : Char) : Option Nat := if c.isDigit then some (c.toNat - '0'.toNat) else none

/-- The number that a run of decimal digits stands for. -/
def toNat (digits : Text) : Nat := digits.foldl (fun n c => 10 * n + (c.toNat - '0'.toNat)) 0

/-- The byte order mark that a text may begin with. -/
def byteOrderMark : Char := Char.ofNat 0xFEFF

/-- A digit's value in a base of at most sixteen. -/
def digitIn? (base : Nat) (c : Char) : Option Nat :=
  let n := c.toNat
  let value :=
    if c.isDigit then some (n - '0'.toNat)
    else if 'a' ≤ c ∧ c ≤ 'f' then some (n - 'a'.toNat + 10)
    else if 'A' ≤ c ∧ c ≤ 'F' then some (n - 'A'.toNat + 10)
    else none
  value.filter (· < base)

/-- The number that digits in a base stand for. -/
def numberIn? (base : Nat) (digits : Text) : Option Nat :=
  digits.foldlM (fun n c => (digitIn? base c).map (base * n + ·)) 0

end Text
end MailArchive
