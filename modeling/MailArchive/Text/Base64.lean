import MailArchive.Text.Utf8

/-!
# MailArchive.Text.Base64

Bytes written with 64 symbols, four symbols for three bytes, and `=` in place of the symbols that
a last group of one or two bytes does not need. Reading is strict: the padding must be there and
the bits of the last symbol that belong to no byte must be zero. Offsets in a fault count bytes.
-/

namespace MailArchive
namespace Base64

/-- Why bytes are not the base64 form of anything. -/
inductive Fault where
  | invalidSymbol (offset : Nat) (byte : UInt8)
  | invalidLength (length : Nat)
  | invalidPadding
  | invalidLastSymbol (offset : Nat) (byte : UInt8)
  deriving DecidableEq, Repr

def symbol (n : Nat) : Char :=
  if n < 26 then Char.ofNat (n + 65)
  else if n < 52 then Char.ofNat (n + 71)
  else if n < 62 then Char.ofNat (n - 4)
  else if n = 62 then '+'
  else '/'

def padding : UInt8 := 61

/-- The number that a symbol stands for. -/
def value? (b : UInt8) : Option Nat :=
  if 65 ≤ b && b ≤ 90 then some (b.toNat - 65)
  else if 97 ≤ b && b ≤ 122 then some (b.toNat - 71)
  else if 48 ≤ b && b ≤ 57 then some (b.toNat + 4)
  else if b == 43 then some 62
  else if b == 47 then some 63
  else none

def isSymbol (b : UInt8) : Bool := (value? b).isSome

def encode : Bytes → Text
  | a :: b :: c :: rest =>
    symbol (a.toNat / 4) :: symbol (a.toNat % 4 * 16 + b.toNat / 16) ::
      symbol (b.toNat % 16 * 4 + c.toNat / 64) :: symbol (c.toNat % 64) :: encode rest
  | [a, b] =>
    [symbol (a.toNat / 4), symbol (a.toNat % 4 * 16 + b.toNat / 16), symbol (b.toNat % 16 * 4), '=']
  | [a] => [symbol (a.toNat / 4), symbol (a.toNat % 4 * 16), '=', '=']
  | [] => []

/-- The bytes whose bits a row of six-bit values holds; bits that fill no byte are left out. -/
def unpack : List Nat → Bytes
  | a :: b :: c :: d :: rest =>
    UInt8.ofNat (a * 4 + b / 16) :: UInt8.ofNat (b % 16 * 16 + c / 4) ::
      UInt8.ofNat (c % 4 * 64 + d) :: unpack rest
  | [a, b, c] => [UInt8.ofNat (a * 4 + b / 16), UInt8.ofNat (b % 16 * 16 + c / 4)]
  | [a, b] => [UInt8.ofNat (a * 4 + b / 16)]
  | _ => []

/-- Where the last group begins: the last four bytes, or fewer if the length is no multiple of
four. -/
def lastGroup (bytes : Bytes) : Nat := (bytes.length - 1) / 4 * 4

/-- A last byte that is alone in its group and cannot stand anywhere. -/
def strayFault? (bytes : Bytes) : Option Fault :=
  match bytes.getLast? with
  | some b =>
    if bytes.length % 4 = 1 ∧ isSymbol b = false ∧ b ≠ padding then
      some (.invalidSymbol (bytes.length - 1) b)
    else none
  | none => none

/-- The first byte that is no symbol. -/
def symbolFault? : Nat → Bytes → Option Fault
  | _, [] => none
  | offset, b :: rest =>
    if isSymbol b then symbolFault? (offset + 1) rest else some (.invalidSymbol offset b)

/-- Goes through the last group, which begins at `start`: symbols, then padding, which does not
come before the third place. `padded` is the place of the first padding seen. -/
def groupFault? (start : Nat) : Nat → Option Nat → Bytes → Option Fault
  | _, _, [] => none
  | i, padded, b :: rest =>
    if b = padding then
      if i < 2 then some (.invalidSymbol (start + i) b)
      else groupFault? start (i + 1) (some (padded.getD i)) rest
    else
      match padded with
      | some p => some (.invalidSymbol (start + p) padding)
      | none =>
        if isSymbol b then groupFault? start (i + 1) none rest
        else some (.invalidSymbol (start + i) b)

/-- A last group without enough symbols for a byte, without its padding, or with bits to spare. -/
def endFault? (start : Nat) (group : Bytes) : Option Fault :=
  let symbols := group.filter isSymbol
  let values := group.filterMap value?
  if group ≠ [] ∧ symbols.length < 2 then some (.invalidLength (start + symbols.length))
  else if group.length % 4 ≠ 0 then some .invalidPadding
  else
    match values.getLast?, symbols.getLast? with
    | some v, some b =>
      if (symbols.length = 2 ∧ v % 16 ≠ 0) ∨ (symbols.length = 3 ∧ v % 4 ≠ 0) then
        some (.invalidLastSymbol (start + symbols.length - 1) b)
      else none
    | _, _ => none

/-- The first thing wrong with some bytes as a base64 form. -/
def fault? (bytes : Bytes) : Option Fault :=
  let start := lastGroup bytes
  let group := bytes.drop start
  strayFault? bytes <|> symbolFault? 0 (bytes.take start) <|> groupFault? start 0 none group <|>
    endFault? start group

def decode (bytes : Bytes) : Except Fault Bytes :=
  match fault? bytes with
  | some fault => .error fault
  | none => .ok (unpack (bytes.filterMap value?))

def Fault.message : Fault → Text
  | .invalidSymbol offset byte =>
    "Invalid symbol ".toList ++ Text.ofNat byte.toNat ++ ", offset ".toList ++
      Text.ofNat offset ++ ".".toList
  | .invalidLength length => "Invalid input length: ".toList ++ Text.ofNat length
  | .invalidPadding => "Invalid padding".toList
  | .invalidLastSymbol offset byte =>
    "Invalid last symbol ".toList ++ Text.ofNat byte.toNat ++ ", offset ".toList ++
      Text.ofNat offset ++ ".".toList

end Base64
end MailArchive
