import MailArchive.Toml.Scalar

/-!
# MailArchive.Toml.Read

Reading TOML documents. Values can hold values, so the readers of values have a number that bounds
the depth of their recursion, as large as the text; besides, arrays and tables in braces are nested
in less than `nesting` others, and a key has less than `nesting` parts.
-/

namespace MailArchive
namespace Toml

/-- What the depth of values and the number of parts of a key stay below. -/
def nesting : Nat := 80

/-! ### Keys -/

def isBare (c : Char) : Bool := c.isAlphanum || c == '_' || c == '-'

def keyPart? (t : Text) : Option (Text × Text) :=
  match t with
  | '"' :: t => basic? t
  | '\'' :: t => literal? t
  | t =>
    let bare := t.takeWhile isBare
    if bare.isEmpty then none else some (bare, t.drop bare.length)

/-- A key with at most the given number of parts, with blanks around each. -/
def key? : Nat → Text → Option (List Text × Text)
  | 0, _ => none
  | most + 1, t => do
    let (part, t) ← keyPart? (skipSpace t)
    match skipSpace t with
    | '.' :: t => (key? most t).map fun (parts, t) => (part :: parts, t)
    | t => some ([part], t)

/-! ### Values -/

mutual

/-- A value that may be nested in so many others. -/
def value? : Nat → Nat → Text → Option (Toml × Text)
  | 0, _, _ => none
  | bound + 1, depth, t =>
    match t with
    | '[' :: t =>
      if depth + 1 < nesting then
        (items? bound (depth + 1) (skipLines false t)).map fun (items, t) => (array items, t)
      else none
    | '\x7b' :: t =>
      if depth + 1 < nesting then do
        let (pairs, t) ←
          match skipSpace t with
          | '\x7d' :: t => some ([], t)
          | t => pairs? bound (depth + 1) t
        (inlineTable? pairs).map fun table => (table, t)
      else none
    | t => scalar? t

/-- The items of an array up to the closing bracket. A comma may follow the last one. -/
def items? : Nat → Nat → Text → Option (List Toml × Text)
  | 0, _, _ => none
  | bound + 1, depth, t =>
    match t with
    | ']' :: t => some ([], t)
    | t => do
      let (item, t) ← value? bound depth t
      match skipLines false t with
      | ',' :: t =>
        (items? bound depth (skipLines false t)).map fun (items, t) => (item :: items, t)
      | ']' :: t => some ([item], t)
      | _ => none

/-- The pairs of a table in braces up to the closing one. -/
def pairs? : Nat → Nat → Text → Option (List (List Text × Toml) × Text)
  | 0, _, _ => none
  | bound + 1, depth, t => do
    let (key, t) ← key? (nesting - 1) t
    let t ← Field.after? '=' t
    let (value, t) ← value? bound depth (skipSpace t)
    match skipSpace t with
    | ',' :: t => (pairs? bound depth t).map fun (pairs, t) => ((key, value) :: pairs, t)
    | '\x7d' :: t => some ([(key, value)], t)
    | _ => none

end

/-! ### Documents -/

def statement? (t : Text) : Option (Statement × Text) :=
  match t with
  | '[' :: '[' :: t => do
    let (path, t) ← key? (nesting - 1) t
    let t ← Text.strip? "]]".toList t
    some (.item path, t)
  | '[' :: t => do
    let (path, t) ← key? (nesting - 1) t
    let t ← Field.after? ']' t
    some (.header path, t)
  | t => do
    let (path, t) ← key? (nesting - 1) t
    let t ← Field.after? '=' t
    let (value, t) ← value? (2 * t.length + 1) 0 (skipSpace t)
    some (.assign path value, t)

/-- The statements of at most so many lines. -/
def statements? : Nat → Text → Option (List Statement)
  | 0, _ => none
  | bound + 1, t =>
    match skipLines false t with
    | [] => some []
    | c :: t => do
      let (statement, t) ← statement? (c :: t)
      let t ← lineEnd? t
      (statements? bound t).map (statement :: ·)

def read? (t : Text) : Option Members :=
  let t :=
    match t with
    | [] => []
    | c :: rest => if c = Text.byteOrderMark then rest else c :: rest
  (statements? (t.length + 1) t).bind build?

end Toml
end MailArchive
