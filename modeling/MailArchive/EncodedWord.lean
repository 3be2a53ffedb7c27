import MailArchive.Text.Base64

/-!
# MailArchive.EncodedWord

Encoded words keep an archive in ASCII. Writing replaces each longest run of characters outside
ASCII by `=?utf-8?b?`, the base64 form of its UTF-8 bytes, and `?=`. Reading replaces each such
word by the text it stands for. A word does not go past the end of its line: an opening without a
closing on the same line stays as it is. `decodeAfter_eq` says that what was read before does not
matter for what follows.
-/

namespace MailArchive
namespace EncodedWord

inductive Fault where
  | base64 (payload : Text) (fault : Base64.Fault)
  | utf8 (payload : Text) (fault : Utf8.Fault)
  deriving DecidableEq, Repr

def opening : Text := "=?utf-8?b?".toList

def closing : Text := "?=".toList

/-- Puts a character in front of a list of runs, into the first one if that is of its kind. -/
def consRun (c : Char) (rs : List Text) : List Text :=
  match rs with
  | (d :: r) :: rest =>
    if Text.isAscii c = Text.isAscii d then (c :: d :: r) :: rest else [c] :: (d :: r) :: rest
  | _ => [c] :: rs

/-- The longest runs of characters that are all in ASCII or all outside it. -/
def runs (t : Text) : List Text := t.foldr consRun []

def encodePayload (t : Text) : Text := Base64.encode (Utf8.encode t)

/-- A run as it is written: as it is in ASCII, else as an encoded word. -/
def encodeRun (run : Text) : Text :=
  if run.all Text.isAscii then run else opening ++ encodePayload run ++ closing

/-- The text with its runs outside ASCII as encoded words. -/
def encode (t : Text) : Text := (runs t).flatMap encodeRun

def decodePayload (payload : Text) : Except Fault Text :=
  match Base64.decode (Utf8.encode payload) with
  | .error fault => .error (.base64 payload fault)
  | .ok bytes =>
    match Utf8.decode bytes with
    | .error fault => .error (.utf8 payload fault)
    | .ok t => .ok t

/-- The characters up to the end of the line. -/
def lineRest (t : Text) : Text := t.takeWhile fun c => c != '\r' && c != '\n'

/-- The payload of a word of which the opening has been read, if the word is closed on its line,
and the text after the word. -/
def payload? (t : Text) : Option (Text × Text) :=
  (Text.cut? closing (lineRest t)).map fun (payload, _) =>
    (payload, t.drop (payload.length + closing.length))

theorem length_payload?_le {t payload rest : Text} (h : payload? t = some (payload, rest)) :
    rest.length ≤ t.length := by
  unfold payload? at h
  obtain ⟨⟨p, q⟩, _, h⟩ := Option.map_eq_some_iff.mp h
  simp only [Prod.mk.injEq] at h
  simp [← h.2]

/-- Reads on, with the characters read so far in hand, last one first. -/
def decodeAfter (read t : Text) : Except Fault Text :=
  match _h : Text.cut? opening t with
  | none => .ok (read.reverse ++ t)
  | some (before, after) =>
    match _hp : payload? after with
    | none => decodeAfter (opening.reverse ++ (before.reverse ++ read)) after
    | some (payload, rest) =>
      match decodePayload payload with
      | .error fault => .error fault
      | .ok word => decodeAfter (word.reverse ++ (before.reverse ++ read)) rest
termination_by t.length
decreasing_by
  · exact Text.length_after_lt (by decide) _h
  · have := Text.length_after_lt (by decide) _h
    have := length_payload?_le _hp
    omega

/-- The text with its encoded words replaced by what they stand for. -/
def decode (t : Text) : Except Fault Text := decodeAfter [] t

theorem decodeAfter_step (read t : Text) :
    decodeAfter read t =
      match Text.cut? opening t with
      | none => .ok (read.reverse ++ t)
      | some (before, after) =>
        match payload? after with
        | none => decodeAfter (opening.reverse ++ (before.reverse ++ read)) after
        | some (payload, rest) =>
          match decodePayload payload with
          | .error fault => .error fault
          | .ok word => decodeAfter (word.reverse ++ (before.reverse ++ read)) rest := by
  rw [decodeAfter]
  split
  · rename_i h
    simp [h]
  · rename_i h
    simp only [h]
    split <;> rename_i hp <;> simp only [hp]

theorem decodeAfter_eq (read t : Text) :
    decodeAfter read t = (decode t).map (read.reverse ++ ·) := by
  induction hn : t.length using Nat.strongRecOn generalizing read t with
  | ind n ih =>
    subst hn
    rw [decode, decodeAfter_step read, decodeAfter_step []]
    split
    · simp [Except.map]
    · rename_i before after h
      have hlt := Text.length_after_lt (by decide) h
      split
      · rw [ih _ hlt _ _ rfl, ih _ hlt (opening.reverse ++ (before.reverse ++ [])) _ rfl]
        cases decode after <;> simp [Except.map]
      · rename_i payload rest hp
        have hle := length_payload?_le hp
        have hlt : rest.length < t.length := by omega
        split
        · simp [Except.map]
        · rename_i word _
          rw [ih _ hlt _ _ rfl, ih _ hlt (word.reverse ++ (before.reverse ++ [])) _ rfl]
          cases decode rest <;> simp [Except.map]

def Fault.message : Fault → Text
  | .base64 payload fault =>
    "invalid base64 payload '".toList ++ payload ++ "': ".toList ++ fault.message
  | .utf8 payload fault =>
    "payload '".toList ++ payload ++ "' is not valid UTF-8: ".toList ++ fault.message

end EncodedWord
end MailArchive
