import MailArchive.Text.Basic

/-!
# MailArchive.Address

Mail addresses with the name of the person. `Address.parse` reads `Name <local@domain>`, a bare
address, and both with the at sign spelled out, as public archives show them. `Address.parseList`
reads addresses with commas between them, where a comma in quotes or angle brackets does not count.
`toHeader` and `obfuscated` write what `parse` reads.
-/

namespace MailArchive

/-- A mailbox, with the name that is shown for whoever it belongs to. The name may be empty. -/
structure Address where
  name : Text
  /-- The address proper, `local@domain`. -/
  mailbox : Text
  deriving DecidableEq, Repr

namespace Address

def empty : Address := ⟨[], []⟩

/-! ### Reading one address -/

/-- What stands for the at sign in a mailbox that is spelled out. -/
def atWord : Text := " at ".toList

/-- The mailbox that is spelled out as `local at domain`; any other text stays as it is. -/
def plain (t : Text) : Text :=
  if t.contains '@' then t
  else
    match Text.cut? atWord t with
    | none => t
    | some (localPart, domain) =>
      let localPart := Text.trim localPart
      let domain := Text.trim domain
      if localPart.isEmpty || domain.isEmpty || domain.contains ' ' then t
      else localPart ++ '@' :: domain

/-- The text without its escapes: a backslash stands for the character after it. -/
def unescape : Text → Text
  | [] => []
  | ['\\'] => []
  | '\\' :: c :: t => c :: unescape t
  | c :: t => c :: unescape t

/-- What stands between the double quotes around a text, if there are any. -/
def quoted? : Text → Option Text
  | '"' :: t => if t.getLast? = some '"' then some t.dropLast else none
  | _ => none

/-- The name without the quotes around it. -/
def unquote (t : Text) : Text :=
  let t := Text.trim t
  match quoted? t with
  | some inner => unescape (Text.trim inner)
  | none => t

/-- The text before the last opening angle bracket, and the text from there to the last closing
one. -/
def angled? (t : Text) : Option (Text × Text) :=
  match Text.cutLast? '<' t with
  | none => none
  | some (before, after) => (Text.cutLast? '>' after).map fun (inner, _) => (before, inner)

/-- The address that a text stands for. A text without angle brackets is a mailbox as a whole. -/
def parse (t : Text) : Address :=
  let t := Text.trim t
  match angled? t with
  | some (name, mailbox) => ⟨unquote name, plain (Text.trim mailbox)⟩
  | none => ⟨[], plain t⟩

/-! ### Reading a list -/

/-- Where in a list of addresses a character stands. -/
structure Place where
  quoted : Bool := false
  /-- Whether the character before was a backslash in quotes. -/
  escaped : Bool := false
  angled : Bool := false
  deriving DecidableEq, Repr

/-- The place after a character; nothing if the character is a comma that ends an address. -/
def Place.after? (p : Place) (c : Char) : Option Place :=
  if p.escaped then some { p with escaped := false }
  else if c = '"' then some { p with quoted := !p.quoted }
  else if p.quoted then some { p with escaped := c == '\\' }
  else if c = '<' then some { p with angled := true }
  else if c = '>' then some { p with angled := false }
  else if c = ',' ∧ ¬p.angled then none
  else some p

/-- The texts between the commas of a list, from a place on. There is always at least one. -/
def pieces (p : Place) : Text → List Text
  | [] => [[]]
  | c :: t =>
    match p.after? c with
    | none => [] :: pieces {} t
    | some next =>
      match pieces next t with
      | [] => [[c]]
      | piece :: rest => (c :: piece) :: rest

/-- The addresses of a list. A piece without a mailbox does not count. -/
def parseList (t : Text) : List Address :=
  ((pieces {} t).map parse).filter (!·.mailbox.isEmpty)

/-! ### Parts -/

/-- The part of the mailbox before the at sign; the whole mailbox if there is none. -/
def localPart (a : Address) : Text := a.mailbox.takeWhile (· != '@')

/-- The part of the mailbox after the at sign, if there is one. -/
def domain? (a : Address) : Option Text := (Text.cut? ['@'] a.mailbox).map (·.2)

/-! ### Writing -/

/-- The characters that need quotes in a name. -/
def delimiters : List Char := [',', '"', '<', '>', ';', ':', '\\']

def escapeChar (c : Char) : Text := if c = '"' ∨ c = '\\' then ['\\', c] else [c]

def escape (t : Text) : Text := t.flatMap escapeChar

/-- The name, in quotes if a character in it would be mistaken for punctuation. -/
def quote (name : Text) : Text :=
  if name.any delimiters.contains then '"' :: escape name ++ ['"'] else name

def bracket (name mailbox : Text) : Text := name ++ " <".toList ++ mailbox ++ ">".toList

/-- The address as people read it. -/
def display (a : Address) : Text := if a.name.isEmpty then a.mailbox else bracket a.name a.mailbox

def toHeader (a : Address) : Text :=
  if a.name.isEmpty then a.mailbox else bracket (quote a.name) a.mailbox

def spelledOut (a : Address) : Text :=
  match a.domain? with
  | some domain => a.localPart ++ atWord ++ domain
  | none => a.mailbox

/-- The address as public archives show it. -/
def obfuscated (a : Address) : Text :=
  if a.name.isEmpty then "<".toList ++ a.spelledOut ++ ">".toList
  else bracket (quote a.name) a.spelledOut

end Address
end MailArchive
