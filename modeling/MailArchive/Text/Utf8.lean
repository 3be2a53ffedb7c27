import MailArchive.Text.Basic

/-!
# MailArchive.Text.Utf8

Texts as bytes. Writing gives each character the one to four bytes of its UTF-8 form. Reading goes
through the bytes from the front and stops at the first sequence that is the form of no character:
either a byte contradicts the sequence (`Utf8.Fault.invalid`) or the bytes end inside it
(`Utf8.Fault.incomplete`).
-/

namespace MailArchive

abbrev Bytes := List UInt8

namespace Utf8

inductive Fault where
  | invalid (index length : Nat)
  | incomplete (index : Nat)
  deriving DecidableEq, Repr

def encode (t : Text) : Bytes := t.flatMap String.utf8EncodeChar

/-- A continuation byte carries six bits. -/
def isContinuation (b : UInt8) : Bool := 0x80 ≤ b && b ≤ 0xBF

/-- Whether the second byte of a sequence may follow its first: no longer form than needed, no
surrogate, nothing above U+10FFFF. -/
def mayFollow (first second : UInt8) : Bool :=
  isContinuation second &&
    !(first == 0xE0 && second < 0xA0) && !(first == 0xED && 0xA0 ≤ second) &&
    !(first == 0xF0 && second < 0x90) && !(first == 0xF4 && 0x90 ≤ second)

/-- The number of bytes of the sequences that begin with this byte; none begins with it if zero. -/
def sequenceLength (first : UInt8) : Nat :=
  if first < 0x80 then 1
  else if first < 0xC2 then 0
  else if first < 0xE0 then 2
  else if first < 0xF0 then 3
  else if first < 0xF5 then 4
  else 0

/-- The character whose code point has these bits, high part first. -/
def charOf (lead : UInt8) (leadBits : Nat) (tail : List UInt8) : Char :=
  Char.ofNat (tail.foldl (fun n b => 64 * n + b.toNat % 64) (lead.toNat % leadBits))

/-- The first character and the bytes after it; `none` at the end of the bytes. The index is that
of the first byte and serves the faults only. -/
def next (index : Nat) : Bytes → Except Fault (Option (Char × Bytes))
  | [] => .ok none
  | a :: rest =>
    match sequenceLength a with
    | 1 => .ok (some (charOf a 128 [], rest))
    | 2 =>
      match rest with
      | [] => .error (.incomplete index)
      | b :: rest =>
        if mayFollow a b then .ok (some (charOf a 32 [b], rest)) else .error (.invalid index 1)
    | 3 =>
      match rest with
      | [] => .error (.incomplete index)
      | b :: rest =>
        if !mayFollow a b then .error (.invalid index 1)
        else
          match rest with
          | [] => .error (.incomplete index)
          | c :: rest =>
            if isContinuation c then .ok (some (charOf a 16 [b, c], rest))
            else .error (.invalid index 2)
    | 4 =>
      match rest with
      | [] => .error (.incomplete index)
      | b :: rest =>
        if !mayFollow a b then .error (.invalid index 1)
        else
          match rest with
          | [] => .error (.incomplete index)
          | c :: rest =>
            if !isContinuation c then .error (.invalid index 2)
            else
              match rest with
              | [] => .error (.incomplete index)
              | d :: rest =>
                if isContinuation d then .ok (some (charOf a 8 [b, c, d], rest))
                else .error (.invalid index 3)
    | _ => .error (.invalid index 1)

theorem length_next {index : Nat} {bytes rest : Bytes} {c : Char}
    (h : next index bytes = .ok (some (c, rest))) : rest.length < bytes.length := by
  unfold next at h
  (repeat' split at h) <;> simp_all <;> omega

/-- Reads on, with the characters read so far in hand, last one first. -/
def decodeAfter (read : Text) (index : Nat) (bytes : Bytes) : Except Fault Text :=
  match _h : next index bytes with
  | .error fault => .error fault
  | .ok none => .ok read.reverse
  | .ok (some (c, rest)) => decodeAfter (c :: read) (index + c.utf8Size) rest
termination_by bytes.length
decreasing_by exact length_next _h

def decode (bytes : Bytes) : Except Fault Text := decodeAfter [] 0 bytes

def Fault.message : Fault → Text
  | .invalid index length =>
    "invalid utf-8 sequence of ".toList ++ Text.ofNat length ++ " bytes from index ".toList ++
      Text.ofNat index
  | .incomplete index => "incomplete utf-8 byte sequence from index ".toList ++ Text.ofNat index

end Utf8
end MailArchive
