import MailArchive.Calendar.Timestamp

/-!
# MailArchive.Calendar.Field

The pieces that written dates are made of: numbers with a least and a greatest count of digits,
names of days and months, blanks, fractions of a second and offsets. Each reader takes its piece
from the front of a text and gives its value and what is left.
-/

namespace MailArchive
namespace Field

/-- A number of at least `least` digits, of which no more than `most` are taken. -/
def number? (least most : Nat) (t : Text) : Option (Nat × Text) :=
  let digits := (t.take most).takeWhile Char.isDigit
  if digits.length < least then none else some (Text.toNat digits, t.drop digits.length)

/-- A number of at least `least` digits, all of which are taken. -/
def longNumber? (least : Nat) (t : Text) : Option (Nat × Text) := number? least t.length t

/-- A number with a sign and any count of digits, or one of at most `most` digits. -/
def signedNumber? (most : Nat) : Text → Option (Int × Text)
  | '-' :: t => (longNumber? 1 t).map fun (n, t) => (-(n : Int), t)
  | '+' :: t => (longNumber? 1 t).map fun (n, t) => ((n : Int), t)
  | t => (number? 1 most t).map fun (n, t) => ((n : Int), t)

def after? (c : Char) : Text → Option Text
  | [] => none
  | d :: t => if d = c then some t else none

def afterBlanks? : Text → Option Text
  | [] => none
  | c :: t => if Text.isBlank c then some (Text.trimStart t) else none

/-- The place of a three-letter name in a list, in any case. -/
def name? (names : List Text) (t : Text) : Option (Nat × Text) :=
  (names.findIdx? (Text.sameName (t.take 3))).map fun i => (i, t.drop 3)

/-- What follows the letter between date and time, which may be a space. -/
def afterDate? : Text → Option Text
  | 'T' :: t => some t
  | 't' :: t => some t
  | ' ' :: t => some t
  | _ => none

/-- The nanoseconds of a fraction of a second, which may be missing. Digits after the ninth are
skipped. -/
def fraction? : Text → Option (Nat × Text)
  | '.' :: t =>
    let digits := (t.take 9).takeWhile Char.isDigit
    if digits.isEmpty then none
    else
      some (Text.toNat digits * Nat.pow 10 (9 - digits.length),
        (t.drop digits.length).dropWhile Char.isDigit)
  | t => some (0, t)

/-- The minus sign of mathematics, which may stand in place of a hyphen. -/
def minusSign : Char := Char.ofNat 0x2212

/-- Whether an offset is behind UTC. -/
def sign? : Text → Option (Bool × Text)
  | '+' :: t => some (false, t)
  | '-' :: t => some (true, t)
  | c :: t => if c = minusSign then some (true, t) else none
  | [] => none

/-- An offset of hours and minutes, with `between` to read what stands between the two. -/
def offset? (between : Text → Option Text) (t : Text) : Option (Int × Text) := do
  let (behind, t) ← sign? t
  let (hours, t) ← number? 2 2 t
  let t ← between t
  let (minutes, t) ← number? 2 2 t
  if minutes ≤ 59 then
    let size : Int := (60 * hours + minutes : Nat)
    some (if behind then -size else size, t)
  else none

end Field
end MailArchive
