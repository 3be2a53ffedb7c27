import MailArchive.Text.Utf8

/-!
# MailArchive.Disk

Files and folders. A `Disk` is a value: writing to it gives another disk, so what a program does to
files can be stated by comparing the disk before with the disk after. A path is followed name by
name from the root or from the working folder; `..` goes back. Names and paths have a greatest
length. A file or a folder may refuse to be used (`Access`); what is made refuses nothing. There are
no links.
-/

namespace MailArchive

/-- What keeps a file from being used. -/
inductive DiskFault where
  | notFound
  | notFolder
  | isFolder
  | nameTooLong
  /-- A file or a folder refuses what is to be done with it. -/
  | denied
  /-- The path has a null character in it. -/
  | nullInPath
  | notText
  deriving DecidableEq, Repr

def DiskFault.message : DiskFault → Text
  | .notFound => "No such file or directory (os error 2)".toList
  | .notFolder => "Not a directory (os error 20)".toList
  | .isFolder => "Is a directory (os error 21)".toList
  | .nameTooLong => "File name too long (os error 36)".toList
  | .denied => "Permission denied (os error 13)".toList
  | .nullInPath => "file name contained an unexpected NUL byte".toList
  | .notText => "stream did not contain valid UTF-8".toList

/-- The names that lead from the root to a file or a folder. -/
abbrev Location := List Text

/-- What may be done with a file or a folder. -/
structure Access where
  readable : Bool := true
  /-- Whether a file may be written to, or something new be put in a folder. -/
  writable : Bool := true
  /-- Whether paths may lead through a folder. -/
  searchable : Bool := true
  deriving DecidableEq, Repr

inductive Entry where
  | file (content : Bytes) (access : Access := {})
  | folder (access : Access := {})
  deriving DecidableEq, Repr

/-- The files and folders there are. -/
structure Disk where
  /-- What is where. The root may be left out of the list. -/
  entries : List (Location × Entry)
  /-- Where paths begin that do not begin at the root. -/
  working : Location
  deriving DecidableEq, Repr

namespace Disk

/-- What the list has at a location. -/
def listed? (d : Disk) (l : Location) : Option Entry := (d.entries.find? (·.1 = l)).map (·.2)

/-- What is at a location. The root is always a folder. -/
def at? (d : Disk) (l : Location) : Option Entry :=
  if l = [] then
    match d.listed? l with
    | some (.folder access) => some (.folder access)
    | _ => some .folder
  else d.listed? l

def set (d : Disk) (l : Location) (e : Entry) : Disk :=
  if (d.listed? l).isSome then
    { d with entries := d.entries.map fun entry => if entry.1 = l then (l, e) else entry }
  else { d with entries := d.entries ++ [(l, e)] }

/-! ### Paths -/

structure Path where
  fromRoot : Bool
  names : List Text
  /-- Whether the path ends with a slash, as only a path to a folder does. -/
  toFolder : Bool
  deriving DecidableEq, Repr

/-- The pieces of a text between slashes. -/
def pieces (t : Text) : List Text := t.foldr push [[]]
where
  /-- Puts a character in front of the pieces. -/
  push (c : Char) (ps : List Text) : List Text :=
    match ps with
    | [] => [[c]]
    | p :: rest => if c = '/' then [] :: p :: rest else (c :: p) :: rest

def longestName : Nat := 255

def longestPath : Nat := 4095

/-- The path that a text stands for. The empty text leads nowhere. -/
def readPath (t : Text) : Except DiskFault Path :=
  if t.contains (Char.ofNat 0) then .error .nullInPath
  else if t.isEmpty then .error .notFound
  else if longestPath < Text.byteLength t then .error .nameTooLong
  else .ok ⟨t.head? == some '/', (pieces t).filter (!·.isEmpty), t.getLast? == some '/'⟩

/-- Where a path begins. -/
def origin (d : Disk) (p : Path) : Location := if p.fromRoot then [] else d.working

/-- The name by which a folder leads to itself. -/
def dot : Text := ".".toList

/-- The location that a name leads to from a folder. -/
def step (here : Location) (name : Text) : Location :=
  if name = dot then here
  else if name = "..".toList then here.dropLast
  else here ++ [name]

/-- Follows names from a location. All that the way leads through has to be a folder that lets paths
through; the end of the way need not exist. -/
def follow (d : Disk) (here : Location) : List Text → Except DiskFault Location
  | [] => .ok here
  | name :: names =>
    match d.at? here with
    | none => .error .notFound
    | some (.file _ _) => .error .notFolder
    | some (.folder access) =>
      if !access.searchable then .error .denied
      else if longestName < Text.byteLength name then .error .nameTooLong
      else follow d (step here name) names

/-- Where a path leads, what is there, and whether it must be a folder. -/
def locate (d : Disk) (t : Text) : Except DiskFault (Location × Option Entry × Bool) :=
  match readPath t with
  | .error fault => .error fault
  | .ok p => (d.follow (d.origin p) p.names).map fun l => (l, d.at? l, p.toFolder)

/-! ### Reading and writing -/

/-- Whether a path leads to anything. -/
def isThere (d : Disk) (t : Text) : Bool :=
  match d.locate t with
  | .ok (_, some (.file _ _), toFolder) => !toFolder
  | .ok (_, some (.folder _), _) => true
  | _ => false

def readBytes (d : Disk) (t : Text) : Except DiskFault Bytes :=
  match d.locate t with
  | .error fault => .error fault
  | .ok (_, none, _) => .error .notFound
  | .ok (_, some (.folder access), _) =>
    if access.readable then .error .isFolder else .error .denied
  | .ok (_, some (.file content access), toFolder) =>
    if toFolder then .error .notFolder
    else if access.readable then .ok content
    else .error .denied

def read (d : Disk) (t : Text) : Except DiskFault Text :=
  match d.readBytes t with
  | .error fault => .error fault
  | .ok bytes => (Utf8.decode bytes).mapError fun _ => .notText

/-- Whether something new may be put where nothing is. -/
def isOpenAt (d : Disk) (l : Location) : Bool :=
  match d.at? l.dropLast with
  | some (.folder access) => access.writable
  | _ => false

/-- Adds bytes at the end of a file, which is made if it is not there. A path that ends with a slash
leads to no file, but what the last name would be in has to be a folder even so. -/
def append (d : Disk) (t : Text) (bytes : Bytes) : Except DiskFault Disk :=
  match readPath t with
  | .error fault => .error fault
  | .ok p =>
    if p.toFolder then
      match d.follow (d.origin p) (if p.names = [] then [] else p.names.dropLast ++ [dot]) with
      | .error fault => .error fault
      | .ok _ => .error .isFolder
    else
      match d.follow (d.origin p) p.names with
      | .error fault => .error fault
      | .ok l =>
        match d.at? l with
        | some (.folder _) => .error .isFolder
        | some (.file content access) =>
          if access.writable then .ok (d.set l (.file (content ++ bytes) access))
          else .error .denied
        | none => if d.isOpenAt l then .ok (d.set l (.file bytes)) else .error .denied

/-! ### Making folders -/

/-- Names without the dots at their end. -/
def dropDots (names : List Text) : List Text := (names.reverse.dropWhile (· = dot)).reverse

/-- The names that lead to what the last name is in. Dots at the end do not count as names. -/
def outer (names : List Text) : List Text := dropDots (dropDots names).dropLast

theorem length_dropDots_le (names : List Text) : (dropDots names).length ≤ names.length := by
  have := (List.dropWhile_sublist (· = dot) (l := names.reverse)).length_le
  simpa [dropDots] using this

theorem length_outer_lt {names : List Text} (h : names ≠ []) :
    (outer names).length < names.length := by
  have h₁ := length_dropDots_le (dropDots names).dropLast
  have h₂ := length_dropDots_le names
  have h₃ := List.length_pos_iff.2 h
  rw [List.length_dropLast] at h₁
  unfold outer
  omega

/-- Makes the folder at a location, unless it is there or may not be made. Tells whether there is a
folder then. -/
def makeAt (d : Disk) (l : Location) : Disk × Bool :=
  match d.at? l with
  | some (.folder _) => (d, true)
  | some (.file _ _) => (d, false)
  | none => if d.isOpenAt l then (d.set l .folder, true) else (d, false)

/-- Makes the folder that names lead to, and before it those that it is in. Tells whether there is a
folder then; if there is none, what was made on the way stays. -/
def makeFrom (d : Disk) (here : Location) (names : List Text) : Disk × Bool :=
  if _h : names = [] then (d, true)
  else
    match d.follow here names with
    | .ok l => d.makeAt l
    | .error .notFound =>
      match makeFrom d here (outer names) with
      | (d, false) => (d, false)
      | (d, true) =>
        match d.follow here names with
        | .ok l => d.makeAt l
        | .error _ => (d, false)
    | .error _ => (d, false)
termination_by names.length
decreasing_by exact length_outer_lt _h

/-- Makes a folder and all folders that it is in. Tells whether there is a folder then. The empty
path stands for the working folder. -/
def makeFolder (d : Disk) (t : Text) : Disk × Bool :=
  if t.isEmpty then (d, true)
  else
    match readPath t with
    | .error _ => (d, false)
    | .ok p => d.makeFrom (d.origin p) p.names

def join (folder name : Text) : Text :=
  if name.head? = some '/' ∨ folder.isEmpty then name
  else if folder.getLast? = some '/' then folder ++ name
  else folder ++ '/' :: name

def changes (before after : Disk) : List (Location × Bytes) :=
  after.entries.filterMap fun (l, e) =>
    match e with
    | .folder _ => none
    | .file content _ => if before.at? l = some e then none else some (l, content)

def newFolders (before after : Disk) : List Location :=
  after.entries.filterMap fun (l, e) =>
    match e with
    | .file _ _ => none
    | .folder _ => if before.at? l = some e then none else some l

end Disk
end MailArchive
