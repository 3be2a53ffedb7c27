import MailArchive.Json.Value

/-!
# MailArchive.Json.Read

Reading JSON text. Each reader takes its piece from the front of a text and gives its value and
what is left. Values can hold values, so the reader of values has a number that bounds the depth of
its recursion; a text has less than two pieces for each of its characters, so the bound that `read?`
gives is never reached.
-/

namespace MailArchive
namespace Json

/-- Whether a character may stand between the pieces of JSON text. -/
def isSpace (c : Char) : Bool := c == ' ' || c == '\t' || c == '\n' || c == '\r'

def skipSpace (t : Text) : Text := t.dropWhile isSpace

/-! ### Strings -/

/-- The character that a letter after a backslash stands for. -/
def escaped? (c : Char) : Option Nat :=
  match c with
  | '"' => some 0x22
  | '\\' => some 0x5C
  | '/' => some 0x2F
  | 'b' => some 8
  | 'f' => some 12
  | 'n' => some 10
  | 'r' => some 13
  | 't' => some 9
  | _ => none

/-- The code points of a string of which the first quote has been read. Halves of surrogate pairs
are code points here. -/
def codePoints? : Text → Option (List Nat × Text)
  | [] => none
  | '"' :: t => some ([], t)
  | '\\' :: 'u' :: a :: b :: c :: d :: t => do
    let n ← Text.numberIn? 16 [a, b, c, d]
    let (ns, t) ← codePoints? t
    some (n :: ns, t)
  | '\\' :: c :: t => do
    let n ← escaped? c
    let (ns, t) ← codePoints? t
    some (n :: ns, t)
  | c :: t =>
    if c.toNat < 0x20 ∨ c = '\\' then none
    else (codePoints? t).map fun (ns, t) => (c.toNat :: ns, t)

/-- Whether a code point is the first half of a surrogate pair. -/
def isHigh (n : Nat) : Bool := 0xD800 ≤ n && n < 0xDC00

/-- Whether a code point is the second half of a surrogate pair. -/
def isLow (n : Nat) : Bool := 0xDC00 ≤ n && n < 0xE000

/-- The text of code points in which the halves of surrogate pairs are in their places. -/
def textOf? : List Nat → Option Text
  | [] => some []
  | [n] => if isHigh n || isLow n then none else some [Char.ofNat n]
  | n :: m :: ns =>
    if isHigh n then
      if isLow m then
        (textOf? ns).map (Char.ofNat (0x10000 + 0x400 * (n - 0xD800) + (m - 0xDC00)) :: ·)
      else none
    else if isLow n then none
    else (textOf? (m :: ns)).map (Char.ofNat n :: ·)

/-- A string of which the first quote has been read; no text if it has none. -/
def string? (t : Text) : Option (Option Text × Text) :=
  (codePoints? t).map fun (ns, t) => (textOf? ns, t)

/-! ### Numbers and words -/

/-- One or more digits, as they are written. -/
def digits? (t : Text) : Option (Text × Text) :=
  let digits := t.takeWhile Char.isDigit
  if digits.isEmpty then none else some (digits, t.drop digits.length)

/-- The digits before the point, which begin with a zero only if it is the only one. -/
def whole? (t : Text) : Option (Text × Text) :=
  match t with
  | '0' :: t => some (['0'], t)
  | t => digits? t

/-- A point with its digits, or nothing. -/
def fraction? : Text → Option (Text × Text)
  | '.' :: t => (digits? t).map fun (digits, t) => ('.' :: digits, t)
  | t => some ([], t)

def exponent? : Text → Option (Text × Text)
  | c :: t =>
    if c = 'e' ∨ c = 'E' then
      match t with
      | '+' :: t => (digits? t).map fun (digits, t) => (c :: '+' :: digits, t)
      | '-' :: t => (digits? t).map fun (digits, t) => (c :: '-' :: digits, t)
      | t => (digits? t).map fun (digits, t) => (c :: digits, t)
    else some ([], c :: t)
  | [] => some ([], [])

/-- A number without its sign. -/
def size? (t : Text) : Option (Text × Text) := do
  let (whole, t) ← whole? t
  let (fraction, t) ← fraction? t
  let (exponent, t) ← exponent? t
  some (whole ++ fraction ++ exponent, t)

def number? : Text → Option (Json × Text)
  | '-' :: t => (size? t).map fun (digits, t) => (number ('-' :: digits), t)
  | t => (size? t).map fun (digits, t) => (number digits, t)

/-- The values that are words. -/
def word? (t : Text) : Option (Json × Text) :=
  (Text.strip? "null".toList t).map ((null, ·)) <|>
    (Text.strip? "true".toList t).map ((bool true, ·)) <|>
    (Text.strip? "false".toList t).map ((bool false, ·))

/-! ### Values -/

/-- The object with these members. -/
def ofMembers (members : List (Option Text × Json)) : Json :=
  match members.mapM fun (name, j) => name.map ((·, j)) with
  | some members => object members
  | none => unpaired

mutual

def readValue? : Nat → Text → Option (Json × Text)
  | 0, _ => none
  | bound + 1, t =>
    match skipSpace t with
    | [] => none
    | c :: rest =>
      match c with
      | '"' => (string? rest).map fun (s, t) => (s.elim unpaired string, t)
      | '[' =>
        match skipSpace rest with
        | ']' :: t => some (array [], t)
        | t => (readItems? bound t).map fun (items, t) => (array items, t)
      | '\x7b' =>
        match skipSpace rest with
        | '\x7d' :: t => some (object [], t)
        | t => (readMembers? bound t).map fun (members, t) => (ofMembers members, t)
      | _ => word? (c :: rest) <|> number? (c :: rest)

def readItems? : Nat → Text → Option (List Json × Text)
  | 0, _ => none
  | bound + 1, t => do
    let (j, t) ← readValue? bound t
    match skipSpace t with
    | ']' :: t => some ([j], t)
    | ',' :: t => (readItems? bound t).map fun (js, t) => (j :: js, t)
    | _ => none

def readMembers? : Nat → Text → Option (List (Option Text × Json) × Text)
  | 0, _ => none
  | bound + 1, t => do
    let t ← Text.strip? ['"'] (skipSpace t)
    let (name, t) ← string? t
    let t ← Text.strip? [':'] (skipSpace t)
    let (j, t) ← readValue? bound t
    match skipSpace t with
    | '\x7d' :: t => some ([(name, j)], t)
    | ',' :: t => (readMembers? bound t).map fun (rest, t) => ((name, j) :: rest, t)
    | _ => none

end

def read? (t : Text) : Option Json :=
  match readValue? (2 * t.length + 1) t with
  | some (j, rest) => if (skipSpace rest).isEmpty then some j else none
  | none => none

end Json
end MailArchive
