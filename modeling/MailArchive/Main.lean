import MailArchive.Program

/-!
# MailArchive.Main

The program. It looks at the files that a run may need and at what may be done with them, lets
`Program.run` decide, and then prints and writes what came of it.
-/

namespace MailArchive
namespace Main

def pathOf (l : Location) : String := String.ofList ('/' :: Text.join ['/'] l)

/-- Whether an action is permitted. Other failures than that it is not are passed on. -/
def isPermitted (action : IO Unit) : IO Bool := do
  try
    action
    return true
  catch
    | .permissionDenied _ _ _ => return false
    | e => throw e

/-- What is at a location, with what may be done with it. -/
def examine (place : IO.FS.DirEntry) : IO Entry := do
  if (← place.path.metadata).type == .dir then
    return .folder { readable := ← isPermitted (discard place.path.readDir) }
  let writable ← isPermitted (discard (IO.FS.Handle.mk place.path .append))
  try
    return .file (← IO.FS.readBinFile place.path).toList { writable }
  catch
    | .permissionDenied _ _ _ => return .file [] { readable := false, writable }
    | e => throw e

/-- What a look at a location comes to. -/
inductive Look where
  | found (entry : Entry)
  | absent
  /-- The folder lets no path through. -/
  | closed

/-- Looks at a name in a folder. A name that is too long, or in something that is no folder, leads
to nothing. -/
def look (folder : Location) (name : Text) : IO Look := do
  try
    return .found (← examine { root := pathOf folder, fileName := String.ofList name })
  catch
    | .noFileOrDirectory _ _ _ | .inappropriateType _ _ _ | .invalidArgument _ _ _ =>
      return .absent
    | .permissionDenied _ _ _ => return .closed
    | e => throw e

/-- The disk with another access to a folder. -/
def restrict (d : Disk) (l : Location) (change : Access → Access) : Disk :=
  match d.at? l with
  | some (.folder access) => d.set l (.folder (change access))
  | _ => d

/-- The disk with what is at the places that a path leads through. -/
def explore (d : Disk) (t : Text) : IO Disk := do
  let .ok p := Disk.readPath t | return d
  let mut d := d
  let mut here := d.origin p
  for name in p.names do
    let next := Disk.step here name
    if (d.at? next).isNone then
      match ← look here name with
      | .found e => d := d.set next e
      | .absent => return d
      | .closed => return restrict d here fun access => { access with searchable := false }
    here := next
  return d

/-- The disk as far as a run with these arguments may need it. -/
def snapshot (e : Environment) (args : List Text) : IO Disk := do
  let working := (toString (← IO.currentDir)).toList
  let mut d ← explore ⟨[], []⟩ working
  d := { d with working := (Disk.pieces working).filter (!·.isEmpty) }
  for path in Program.inputs e args do
    d ← explore d path
  if let some path := Program.logFile e d args then
    d ← explore d path
  return d

def environment : IO Environment := do
  let get (name : String) : IO (Option Text) := do
    return (← IO.getEnv name).map String.toList
  return {
    configFile := ← get "MBOXTHREAD_CONFIG"
    home := ← get "HOME"
    configHome := ← get "XDG_CONFIG_HOME"
    cacheHome := ← get "XDG_CACHE_HOME" }

/-- Adds to a file what it has more than before. -/
def save (before : Disk) (l : Location) (content : Bytes) : IO Unit := do
  let old :=
    match before.at? l with
    | some (.file bytes _) => bytes.length
    | _ => 0
  let file ← IO.FS.Handle.mk (pathOf l) .append
  file.write ⟨(content.drop old).toArray⟩

/-- Makes what is new and adds what there is more. If a folder refuses this, it is told which. -/
def carryOut (before after : Disk) : IO (Option Location) := do
  for l in Disk.newFolders before after do
    unless ← isPermitted (IO.FS.createDirAll (pathOf l)) do return some l.dropLast
  for (l, content) in Disk.changes before after do
    unless ← isPermitted (save before l content) do return some l.dropLast
  return none

/-- Runs the program and carries out what came of it. Whether something may be put in a folder shows
only then; if it may not, the run begins again with that knowledge, as often as there are folders
left. -/
def settle (e : Environment) (args : List Text) : Nat → Disk → IO Outcome
  | 0, _ => throw (IO.userError "folders keep changing")
  | tries + 1, d => do
    let o := Program.run e d args
    match ← carryOut d o.disk with
    | none => return o
    | some folder =>
      settle e args tries (restrict d folder fun access => { access with writable := false })

def logLine (n : Notice) : Text :=
  n.level.name ++ " ".toList ++ n.message ++
    (n.fields.map fun (name, value) => " ".toList ++ name ++ "=".toList ++ value).flatten

end Main
end MailArchive

open MailArchive in
def main (args : List String) : IO UInt32 := do
  let args := args.map String.toList
  let e ← Main.environment
  let d ← Main.snapshot e args
  let o ← Main.settle e args (d.entries.length + 2) d
  for n in o.log do
    IO.eprintln (String.ofList (Main.logLine n))
  IO.print (String.ofList o.out)
  IO.eprint (String.ofList o.err)
  return o.code.toUInt32
