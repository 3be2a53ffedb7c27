import MailArchive.Json.Record
import MailArchive.Store
import MailArchive.Toml.Read

/-!
# MailArchive.Config

The configuration: a TOML file in which everything may be missing. `Config.load` reads the file that
it is told to read, and fails if it cannot; `Config.search` looks where a configuration file usually
is, and makes do with the defaults.
-/

namespace MailArchive

/-- The settings that concern no part of the work in particular. -/
structure GeneralConfig where
  logLevel : Text := "warn".toList
  /-- The folder for the log, if it is not the usual one. -/
  cacheDir : Option Text := none
  deriving DecidableEq, Repr

/-- All settings, each with the value it has if nothing is said about it. -/
structure Config where
  general : GeneralConfig := {}
  threading : ArchiveOptions := {}
  format : FormatOptions := {}
  deriving DecidableEq, Repr

/-- The variables that say where files are. -/
structure Environment where
  /-- The configuration file. -/
  configFile : Option Text := none
  home : Option Text := none
  /-- The folder for configuration files, if it is not the usual one. -/
  configHome : Option Text := none
  /-- The folder for files that can be made anew, if it is not the usual one. -/
  cacheHome : Option Text := none
  deriving DecidableEq, Repr

/-! ### From TOML -/

def Toml.text? : Toml → Option Text
  | string t => some t
  | _ => none

def Toml.bool? : Toml → Option Bool
  | boolean b => some b
  | _ => none

/-- Whether a value is an array or a table without anything in it. -/
def Toml.isVoid : Toml → Bool
  | array items => items.isEmpty
  | table _ ms => ms.isEmpty
  | tables items => items.isEmpty
  | _ => false

/-- The resolution with a name; the name may be the only member of a table, with something empty as
its value. -/
def Resolution.ofToml? : Toml → Option Resolution
  | .string t => ofName? t
  | .table _ [(t, value)] => if value.isVoid then ofName? t else none
  | _ => none

/-- The value of a field, which is the usual one if the field is missing. -/
def Toml.field {α : Type} (usual : α) (read : Toml → Option α) : Option Toml → Option α
  | none => some usual
  | some v => read v

def GeneralConfig.ofToml? (v : Toml) : Option GeneralConfig := do
  match ← v.fields? ["log_level".toList, "cache_dir".toList] with
  | [level, dir] =>
    some ⟨← Toml.field "warn".toList Toml.text? level,
      ← Toml.field none (fun v => v.text?.map some) dir⟩
  | _ => none

def ArchiveOptions.ofToml? (v : Toml) : Option ArchiveOptions := do
  match ← v.fields? ["resolution".toList] with
  | [resolution] => some ⟨← Toml.field .singlePass Resolution.ofToml? resolution⟩
  | _ => none

def FormatOptions.ofToml? (v : Toml) : Option FormatOptions := do
  match ← v.fields? ["obfuscate_addresses".toList] with
  | [obfuscate] => some ⟨← Toml.field true Toml.bool? obfuscate⟩
  | _ => none

namespace Config

def ofMembers? (ms : Toml.Members) : Option Config := do
  some ⟨← Toml.field {} GeneralConfig.ofToml? (Toml.member? "general".toList ms),
    ← Toml.field {} ArchiveOptions.ofToml? (Toml.member? "threading".toList ms),
    ← Toml.field {} FormatOptions.ofToml? (Toml.member? "format".toList ms)⟩

/-- The configuration that a text stands for. -/
def parse? (t : Text) : Option Config := (Toml.read? t).bind ofMembers?

/-! ### From files -/

def load (d : Disk) (path : Text) : Except Failure Config :=
  match d.read path with
  | .error fault => .error (.file path fault)
  | .ok t =>
    match parse? t with
    | none => .error .invalidConfig
    | some config => .ok config

/-- A folder that a variable names, if the name is a whole path, or else a folder in the home. -/
def userFolder (named : Option Text) (home : Option Text) (usual : Text) : Option Text :=
  match named.filter (·.head? = some '/') with
  | some folder => some folder
  | none => (home.filter (!·.isEmpty)).map (Disk.join · usual)

/-- Where the configuration file is. -/
def path? (e : Environment) : Option Text :=
  match e.configFile with
  | some path => some path
  | none =>
    (userFolder e.configHome e.home ".config".toList).map
      (Disk.join · "mboxthread/config.toml".toList)

/-- The configuration in the usual place, or the defaults. -/
def search (e : Environment) (d : Disk) : Config :=
  match path? e with
  | none => {}
  | some path =>
    if d.isThere path then
      match load d path with
      | .ok config => config
      | .error _ => {}
    else {}

def searchNotices (e : Environment) (d : Disk) : List Notice :=
  match path? e with
  | none => []
  | some path =>
    if d.isThere path then
      match load d path with
      | .ok _ => [.configLoaded path]
      | .error failure => [.configUnusable path failure.message]
    else []

def cacheDir (e : Environment) (c : Config) : Text :=
  match c.general.cacheDir with
  | some dir => dir
  | none =>
    Disk.join ((userFolder e.cacheHome e.home ".cache".toList).getD ".".toList)
      "mboxthread".toList

end Config
end MailArchive
