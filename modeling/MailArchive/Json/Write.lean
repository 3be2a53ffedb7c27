import MailArchive.Json.Value

/-!
# MailArchive.Json.Write

JSON text with one item or member to a line, two blanks deeper than what it belongs to. Characters
outside ASCII stay as they are.
-/

namespace MailArchive
namespace Json

def hexDigit (n : Nat) : Char := "0123456789abcdef".toList[n]?.getD '0'

/-- A character as it stands in a string. -/
def escapeChar (c : Char) : Text :=
  match c with
  | '"' => ['\\', '"']
  | '\\' => ['\\', '\\']
  | '\n' => ['\\', 'n']
  | '\r' => ['\\', 'r']
  | '\t' => ['\\', 't']
  | c =>
    if c.toNat = 8 then ['\\', 'b']
    else if c.toNat = 12 then ['\\', 'f']
    else if c.toNat < 32 then
      "\\u00".toList ++ [hexDigit (c.toNat / 16), hexDigit (c.toNat % 16)]
    else [c]

def quote (t : Text) : Text := '"' :: t.flatMap escapeChar ++ ['"']

def indent (depth : Nat) : Text := List.replicate (2 * depth) ' '

/-- Lines at a depth with commas between them, in brackets. -/
def block (opening closing : Char) (depth : Nat) (lines : List Text) : Text :=
  if lines.isEmpty then [opening, closing]
  else
    opening :: '\n' :: Text.join ",\n".toList (lines.map (indent (depth + 1) ++ ·)) ++
      '\n' :: indent depth ++ [closing]

mutual

def pretty (depth : Nat) : Json → Text
  | null => "null".toList
  | bool b => if b then "true".toList else "false".toList
  | number digits => digits
  | string t => quote t
  | array items => block '[' ']' depth (prettyItems (depth + 1) items)
  | object members => block '\x7b' '\x7d' depth (prettyMembers (depth + 1) members)
  | unpaired => "null".toList

def prettyItems (depth : Nat) : List Json → List Text
  | [] => []
  | j :: js => pretty depth j :: prettyItems depth js

def prettyMembers (depth : Nat) : List (Text × Json) → List Text
  | [] => []
  | (name, j) :: rest => (quote name ++ ": ".toList ++ pretty depth j) :: prettyMembers depth rest

end

def write (j : Json) : Text := pretty 0 j

end Json
end MailArchive
