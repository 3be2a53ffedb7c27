import MailArchive.Calendar.Field
import MailArchive.Toml.Value

/-!
# MailArchive.Toml.Scalar

Reading the TOML values that hold no other values. Each reader takes its piece from the front of a
text and gives its value and what is left. A reader takes as much as it can and does not look at
what follows; whoever comes next will not take a piece that is broken off.
-/

namespace MailArchive
namespace Toml

/-! ### Blanks and comments -/

def isSpace (c : Char) : Bool := c == ' ' || c == '\t'

def skipSpace (t : Text) : Text := t.dropWhile isSpace

/-- Whether a character may stand in a comment. -/
def isPlain (c : Char) : Bool := c == '\t' || (' ' ≤ c && c.toNat != 0x7F)

/-- What follows a line break. -/
def newline? : Text → Option Text
  | '\n' :: t => some t
  | '\r' :: '\n' :: t => some t
  | _ => none

/-- What follows a comment, if there is one. -/
def skipComment : Text → Text
  | '#' :: t => t.dropWhile isPlain
  | t => t

/-- What follows the end of a line, which may have a comment. -/
def lineEnd? (t : Text) : Option Text :=
  match skipComment (skipSpace t) with
  | [] => some []
  | t => newline? t

/-- What follows blanks, line breaks, and comments that end with their line. -/
def skipLines (inComment : Bool) : Text → Text
  | [] => []
  | '\n' :: t => skipLines false t
  | '\r' :: '\n' :: t => skipLines false t
  | c :: t =>
    if inComment then if isPlain c then skipLines true t else c :: t
    else if isSpace c then skipLines false t
    else if c = '#' then skipLines true t
    else c :: t

/-! ### Strings -/

/-- The character that a letter after a backslash stands for. -/
def escaped? (c : Char) : Option Char :=
  match c with
  | 'b' => some (Char.ofNat 8)
  | 't' => some '\t'
  | 'n' => some '\n'
  | 'f' => some (Char.ofNat 12)
  | 'r' => some '\r'
  | '"' => some '"'
  | '\\' => some '\\'
  | _ => none

/-- The character with a number in hexadecimal digits. -/
def numbered? (digits : Text) : Option Char := do
  let n ← Text.numberIn? 16 digits
  if n.isValidChar then some (Char.ofNat n) else none

def consChar (c : Char) (read : Text × Text) : Text × Text := (c :: read.1, read.2)

/-- A string of which the opening double quote has been read. -/
def basic? : Text → Option (Text × Text)
  | [] => none
  | '"' :: t => some ([], t)
  | '\\' :: 'u' :: a :: b :: c :: d :: t => do
    let x ← numbered? [a, b, c, d]
    (basic? t).map (consChar x)
  | '\\' :: 'U' :: a :: b :: c :: d :: e :: f :: g :: h :: t => do
    let x ← numbered? [a, b, c, d, e, f, g, h]
    (basic? t).map (consChar x)
  | '\\' :: c :: t => do
    let x ← escaped? c
    (basic? t).map (consChar x)
  | c :: t => if isPlain c && c != '\\' then (basic? t).map (consChar c) else none

/-- A string of which the opening single quote has been read. -/
def literal? : Text → Option (Text × Text)
  | [] => none
  | '\'' :: t => some ([], t)
  | c :: t => if isPlain c then (literal? t).map (consChar c) else none

/-- The end of a string over several lines, of which three quotes have been read. Up to two more
quotes belong to the string. -/
def close? (quote : Char) (t : Text) : Option (Text × Text) :=
  let more := t.takeWhile (· == quote)
  if more.length ≤ 2 then some (more, t.drop more.length) else none

/-- Whether only blanks are left on the line. -/
def endsLine (t : Text) : Bool := (newline? (skipSpace t)).isSome

/-- A string over several lines of which the opening double quotes have been read. `skipping` says
that blanks and line breaks are passed over, as they are after a backslash at the end of a line. -/
def basicLines? (skipping : Bool) : Text → Option (Text × Text)
  | [] => none
  | '"' :: '"' :: '"' :: t => close? '"' t
  | '\n' :: t =>
    if skipping then basicLines? true t else (basicLines? false t).map (consChar '\n')
  | '\r' :: '\n' :: t =>
    if skipping then basicLines? true t else (basicLines? false t).map (consChar '\n')
  | '\\' :: 'u' :: a :: b :: c :: d :: t => do
    let x ← numbered? [a, b, c, d]
    (basicLines? false t).map (consChar x)
  | '\\' :: 'U' :: a :: b :: c :: d :: e :: f :: g :: h :: t => do
    let x ← numbered? [a, b, c, d, e, f, g, h]
    (basicLines? false t).map (consChar x)
  | '\\' :: c :: t =>
    if endsLine (c :: t) then basicLines? true (c :: t)
    else do
      let x ← escaped? c
      (basicLines? false t).map (consChar x)
  | c :: t =>
    if skipping && isSpace c then basicLines? true t
    else if isPlain c && c != '\\' then (basicLines? false t).map (consChar c)
    else none

/-- A string over several lines of which the opening single quotes have been read. -/
def literalLines? : Text → Option (Text × Text)
  | [] => none
  | '\'' :: '\'' :: '\'' :: t => close? '\'' t
  | '\n' :: t => (literalLines? t).map (consChar '\n')
  | '\r' :: '\n' :: t => (literalLines? t).map (consChar '\n')
  | c :: t => if isPlain c then (literalLines? t).map (consChar c) else none

/-- A string that begins with this quote. A line break right after three quotes does not count. -/
def string? : Text → Option (Text × Text)
  | '"' :: '"' :: '"' :: t => basicLines? false ((newline? t).getD t)
  | '"' :: t => basic? t
  | '\'' :: '\'' :: '\'' :: t => literalLines? ((newline? t).getD t)
  | '\'' :: t => literal? t
  | _ => none

/-! ### Numbers -/

/-- The digits at the front of a text, between which there may be single underscores. -/
def digits (isDigit : Char → Bool) : Text → Text × Text
  | [] => ([], [])
  | c :: t =>
    if isDigit c then
      match t with
      | '_' :: d :: rest =>
        if isDigit d then consChar c (digits isDigit (d :: rest)) else ([c], t)
      | t => consChar c (digits isDigit t)
    else ([], c :: t)

def digits? (isDigit : Char → Bool) (t : Text) : Option (Text × Text) :=
  let (ds, t) := digits isDigit t
  if ds.isEmpty then none else some (ds, t)

/-- A number without sign, which begins with a zero only if that is all of it. -/
def decimal? : Text → Option (Text × Text)
  | '0' :: t => some (['0'], t)
  | t => digits? Char.isDigit t

def sign : Text → Option Bool × Text
  | '+' :: t => (some false, t)
  | '-' :: t => (some true, t)
  | t => (none, t)

/-- A number in another base, behind the two characters that say which. -/
def based? (base : Nat) (t : Text) : Option (Toml × Text) := do
  let (ds, t) ← digits? (fun c => (Text.digitIn? base c).isSome) t
  let n ← Text.numberIn? base ds
  if n < Nat.pow 2 63 then some (integer n, t) else none

def integer? (negative : Bool) (ds : Text) : Option Toml :=
  let n := Text.toNat ds
  if negative then if n ≤ Nat.pow 2 63 then some (integer (-n)) else none
  else if n < Nat.pow 2 63 then some (integer n)
  else none

/-- The digits after the point, if there is one. -/
def fraction? : Text → Option (Text × Text)
  | '.' :: t => digits? Char.isDigit t
  | _ => none

def exponent? : Text → Option (Int × Text)
  | [] => none
  | c :: t =>
    if c = 'e' ∨ c = 'E' then
      let (negative, t) := sign t
      (digits? Char.isDigit t).map fun (ds, t) =>
        (if negative = some true then -(Text.toNat ds : Int) else Text.toNat ds, t)
    else none

/-- The least number that is rounded to infinity. -/
def infinity : Nat := Nat.pow 2 1024 - Nat.pow 2 970

/-- Whether `n` times ten to the power of `exponent` is rounded to infinity. The number of digits
decides unless it is close. -/
def isInfinite (n : Nat) (exponent : Int) : Bool :=
  let size := exponent + (Text.ofNat n).length
  if n = 0 ∨ size < 300 then false
  else if 310 < size then true
  else if 0 ≤ exponent then infinity ≤ n * Nat.pow 10 exponent.toNat
  else infinity * Nat.pow 10 (-exponent).toNat ≤ n

/-- The float or the integer that begins with the given digits. Of floats, those that are rounded to
infinity are refused unless they are negative. -/
def afterDigits? (negative : Bool) (ds t : Text) : Option (Toml × Text) :=
  match fraction? t with
  | some (fs, t) =>
    let (exponent, t) := (exponent? t).getD (0, t)
    floating (ds ++ fs) (exponent - fs.length) t
  | none =>
    match exponent? t with
    | some (exponent, t) => floating ds exponent t
    | none => (integer? negative ds).map fun n => (n, t)
where
  /-- A float with its digits, its exponent, and what follows it. -/
  floating (ds : Text) (exponent : Int) (t : Text) : Option (Toml × Text) :=
    if !negative && isInfinite (Text.toNat ds) exponent then none else some (float, t)

def number? (t : Text) : Option (Toml × Text) :=
  match sign t with
  | (none, '0' :: 'x' :: t) => based? 16 t
  | (none, '0' :: 'o' :: t) => based? 8 t
  | (none, '0' :: 'b' :: t) => based? 2 t
  | (negative, 'i' :: 'n' :: 'f' :: t) => if negative.isSome then some (float, t) else none
  | (negative, 'n' :: 'a' :: 'n' :: t) => if negative.isSome then some (float, t) else none
  | (negative, t) => do
    let (ds, t) ← decimal? t
    afterDigits? (negative == some true) ds t

/-! ### Dates -/

/-- A number of two digits that is not too large. -/
def upTo? (most : Nat) (t : Text) : Option Text := do
  let (n, t) ← Field.number? 2 2 t
  if n ≤ most then some t else none

/-- What follows a fraction of a second, if there is one. -/
def skipFraction (t : Text) : Text :=
  match t with
  | '.' :: rest => if (rest.takeWhile Char.isDigit).isEmpty then t else rest.dropWhile Char.isDigit
  | t => t

def time? (t : Text) : Option Text := do
  let t ← upTo? 23 t
  let t ← Field.after? ':' t
  let t ← upTo? 59 t
  let t ← Field.after? ':' t
  let t ← upTo? 60 t
  some (skipFraction t)

def offset? : Text → Option Text
  | 'Z' :: t => some t
  | 'z' :: t => some t
  | t => do
    let t ← (sign t).1.map fun _ => (sign t).2
    let t ← upTo? 23 t
    let t ← Field.after? ':' t
    upTo? 59 t

def day? (t : Text) : Option Text := do
  let (year, t) ← Field.number? 4 4 t
  let t ← Field.after? '-' t
  let (month, t) ← Field.number? 2 2 t
  let t ← Field.after? '-' t
  let (day, t) ← Field.number? 2 2 t
  (Date.of? year month day).map fun _ => t

/-- A date, a time, or a date with a time and perhaps an offset. -/
def date? (t : Text) : Option (Toml × Text) :=
  match day? t with
  | some t =>
    match (Field.afterDate? t).bind time? with
    | some t => some (date, (offset? t).getD t)
    | none => some (date, t)
  | none => (time? t).map fun t => (date, t)

/-- The values that are words. -/
def word? (t : Text) : Option (Toml × Text) :=
  (Text.strip? "true".toList t).map ((boolean true, ·)) <|>
    (Text.strip? "false".toList t).map ((boolean false, ·)) <|>
    (Text.strip? "inf".toList t).map ((float, ·)) <|>
    (Text.strip? "nan".toList t).map ((float, ·))

def scalar? (t : Text) : Option (Toml × Text) :=
  (string? t).map (fun (s, t) => (string s, t)) <|> word? t <|> date? t <|> number? t

end Toml
end MailArchive
