import MailArchive.Text.Basic

/-!
# MailArchive.Json.Value

JSON values. The members of an object are a list, so that an object in which a name is repeated can
be told from one in which it is not. `Json.fields?` takes a record apart.
-/

namespace MailArchive

/-- A JSON value. The members of an object keep their order, and a name may occur twice. -/
inductive Json where
  | null
  | bool (b : Bool)
  /-- A number, as it is written. -/
  | number (digits : Text)
  | string (t : Text)
  | array (items : List Json)
  | object (members : List (Text × Json))
  /-- A string that names half of a surrogate pair, or an object with such a name in it. JSON text
  can spell them, but they stand for no text. -/
  | unpaired
  deriving Repr

namespace Json

def ofNat (n : Nat) : Json := number (Text.ofNat n)

def text? : Json → Option Text
  | string t => some t
  | _ => none

def items? : Json → Option (List Json)
  | array items => some items
  | _ => none

/-- The value of one field, if the members give it no more than one. -/
def field? (members : List (Text × Json)) (name : Text) : Option (Option Json) :=
  match members.filter (·.1 = name) with
  | [] => some none
  | [member] => some (some member.2)
  | _ => none

/-- The fields of a record, each of which may be missing. A record is an object with the fields as
members, or an array of the first of them in order. Other members of an object are passed over. -/
def fields? (names : List Text) : Json → Option (List (Option Json))
  | object members => names.mapM (field? members)
  | array items =>
    if items.length ≤ names.length then
      some (items.map some ++ List.replicate (names.length - items.length) none)
    else none
  | _ => none

end Json
end MailArchive
