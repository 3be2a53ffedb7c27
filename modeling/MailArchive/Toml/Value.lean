import MailArchive.Text.Basic

/-!
# MailArchive.Toml.Value

TOML values, and how a document builds them up. A document names the same table in several places,
and not every combination is allowed: each table remembers how it came to be (`Toml.Origin`), and
`Toml.edit` refuses to go into a table that is closed.
-/

namespace MailArchive
namespace Toml

/-- How a table came to be. -/
inductive Origin where
  /-- It has a header of its own. -/
  | header
  /-- It stands in the header of another table. -/
  | path
  /-- It stands before a dot in the key of a value. -/
  | dotted
  /-- It is written in braces. -/
  | inline
  deriving DecidableEq, Repr

end Toml

/-- A TOML value. Of floats and dates only the kind is kept. -/
inductive Toml where
  | string (t : Text)
  | integer (n : Int)
  | float
  | boolean (b : Bool)
  | date
  | array (items : List Toml)
  | table (origin : Toml.Origin) (members : List (Text × Toml))
  /-- The tables that have the same header in double brackets. -/
  | tables (items : List (List (Text × Toml)))
  deriving Repr

namespace Toml

/-- The members of a table, in the order in which they came. -/
abbrev Members := List (Text × Toml)

def member? (key : Text) (ms : Members) : Option Toml := (ms.find? (·.1 = key)).map (·.2)

def replace (key : Text) (value : Toml) (ms : Members) : Members :=
  ms.map fun m => if m.1 = key then (key, value) else m

/-- Changes the table at the end of a path with `f`, which is given its origin and its members.
Tables that are missing on the way are made. `dotted` says that the path is the key of a value: such
a path does not lead through tables with headers. -/
def edit (dotted : Bool) (f : Origin → Members → Option (Origin × Members)) :
    List Text → Origin → Members → Option (Origin × Members)
  | [], origin, ms => f origin ms
  | key :: path, origin, ms =>
    match member? key ms with
    | none =>
      (edit dotted f path (if dotted then .dotted else .path) []).map fun (o, inner) =>
        (origin, ms ++ [(key, table o inner)])
    | some (table o inner) =>
      if o = .inline ∨ (dotted ∧ o = .header) then none
      else
        (edit dotted f path o inner).map fun (o, inner) =>
          (origin, replace key (table o inner) ms)
    | some (tables items) =>
      match items.getLast? with
      | none => none
      | some last =>
        (edit dotted f path .header last).map fun (_, inner) =>
          (origin, replace key (tables (items.dropLast ++ [inner])) ms)
    | some _ => none

def add? (key : Text) (value : Toml) (ms : Members) : Option Members :=
  match member? key ms with
  | none => some (ms ++ [(key, value)])
  | some _ => none

/-- Adds a value under a key in parts. Only a key with several parts goes into a table that was made
by such keys. -/
def assign (path : List Text) (value : Toml) : Origin → Members → Option (Origin × Members) :=
  edit true
    (fun origin ms =>
      if decide (origin = .dotted) = path.dropLast.isEmpty then none
      else path.getLast?.bind fun key => (add? key value ms).map fun ms => (origin, ms))
    path.dropLast

/-- Opens the table of a header. It must be new, or known from the headers of other tables only. -/
def openTable (path : List Text) : Origin → Members → Option (Origin × Members) :=
  edit false
    (fun origin ms => path.getLast?.bind fun key =>
      match member? key ms with
      | none => some (origin, ms ++ [(key, table .header [])])
      | some (table .path inner) => some (origin, replace key (table .header inner) ms)
      | some _ => none)
    path.dropLast

/-- Adds an empty table under a header in double brackets. -/
def openItem (path : List Text) : Origin → Members → Option (Origin × Members) :=
  edit false
    (fun origin ms => path.getLast?.bind fun key =>
      match member? key ms with
      | none => some (origin, ms ++ [(key, tables [[]])])
      | some (tables items) => some (origin, replace key (tables (items ++ [[]])) ms)
      | some _ => none)
    path.dropLast

/-- The table in braces with these pairs, if their keys agree. -/
def inlineTable? (pairs : List (List Text × Toml)) : Option Toml :=
  (pairs.foldlM (fun (made : Origin × Members) pair => assign pair.1 pair.2 made.1 made.2)
    (.inline, [])).map fun made => table .inline made.2

/-- What one line of a document says. -/
inductive Statement where
  | header (path : List Text)
  | item (path : List Text)
  | assign (path : List Text) (value : Toml)
  deriving Repr

/-- A document that has been read up to some line. -/
structure Document where
  members : Members := []
  /-- The table that the next value belongs to. -/
  current : List Text := []
  deriving Repr

/-- The document after one more statement. -/
def Document.push (d : Document) : Statement → Option Document
  | .header path => (openTable path .header d.members).map fun (_, ms) => ⟨ms, path⟩
  | .item path => (openItem path .header d.members).map fun (_, ms) => ⟨ms, path⟩
  | .assign path value =>
    (edit false (Toml.assign path value) d.current .header d.members).map fun (_, ms) =>
      { d with members := ms }

def build? (statements : List Statement) : Option Members :=
  (statements.foldlM Document.push {}).map Document.members

/-- The fields of a record, each of which may be missing. A record is a table with the fields as
members, or an array of them in order; what else a table or an array holds is passed over. A date
counts as a table of which no member is known. -/
def fields? (names : List Text) : Toml → Option (List (Option Toml))
  | table _ ms => some (names.map (member? · ms))
  | array items => some (inOrder items)
  | tables items => some (inOrder (items.map (table .header)))
  | date => some (names.map fun _ => none)
  | _ => none
where
  /-- The items as the values of the fields. -/
  inOrder (items : List Toml) : List (Option Toml) :=
    (items.take names.length).map some ++ List.replicate (names.length - items.length) none

end Toml
end MailArchive
