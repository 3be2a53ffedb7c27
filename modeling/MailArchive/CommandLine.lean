import MailArchive.Text.Basic

/-!
# MailArchive.CommandLine

The arguments of the program. Options may stand before and after the name of the command, and
between its arguments; after `--` everything is an argument. The reading goes from left to right and
ends with the first thing that is wrong, or that asks for the version or for help.
-/

namespace MailArchive

inductive Command where
  | threads (archive : Text) (json strict : Bool)
  | stats (archive : Text) (json : Bool)
  | append (archive message : Text)
  deriving DecidableEq, Repr

/-- A command and the options that hold for all of them. -/
structure Invocation where
  command : Command
  configFile : Option Text
  /-- How often more messages in the log were asked for. -/
  verbosity : Nat
  deriving DecidableEq, Repr

inductive Request where
  | run (invocation : Invocation)
  | version
  | help
  deriving DecidableEq, Repr

namespace CommandLine

inductive Verb where
  | threads
  | stats
  | append
  deriving DecidableEq, Repr

namespace Verb

def name : Verb → Text
  | threads => "threads".toList
  | stats => "stats".toList
  | append => "append".toList

def all : List Verb := [threads, stats, append]

def ofName? (t : Text) : Option Verb := all.find? (·.name = t)

def arity : Verb → Nat
  | threads => 1
  | stats => 1
  | append => 2

def takesJson : Verb → Bool
  | threads => true
  | stats => true
  | append => false

def takesStrict : Verb → Bool
  | threads => true
  | stats => false
  | append => false

end Verb

/-- What has been read of the arguments. -/
structure Flags where
  config : Option Text := none
  verbosity : Nat := 0
  json : Bool := false
  strict : Bool := false
  /-- The arguments of the command, last one first. -/
  arguments : List Text := []
  deriving DecidableEq, Repr

/-- What one argument does to the reading. -/
inductive Step where
  | go (flags : Flags)
  | done (request : Request)
  /-- The next argument is the configuration file. -/
  | wantConfig
  | wrong
  deriving DecidableEq, Repr

/-- Takes the configuration file, which may be given only once. -/
def Flags.takeConfig (f : Flags) (path : Text) : Step :=
  if f.config.isSome || path.isEmpty then .wrong else .go { f with config := some path }

def isOption : Text → Bool
  | '-' :: _ :: _ => true
  | _ => false

/-- Reads letters behind one dash. The version can only be asked for before the command. -/
def letters (verb : Option Verb) (f : Flags) : Text → Step
  | [] => .go f
  | 'v' :: t => letters verb { f with verbosity := f.verbosity + 1 } t
  | 'h' :: _ => .done .help
  | 'V' :: _ => if verb.isNone then .done .version else .wrong
  | _ => .wrong

def option (verb : Option Verb) (f : Flags) (arg : Text) : Step :=
  if arg = "--help".toList then .done .help
  else if arg = "--verbose".toList then .go { f with verbosity := f.verbosity + 1 }
  else if arg = "--config".toList then .wantConfig
  else if arg = "--version".toList then if verb.isNone then .done .version else .wrong
  else if arg = "--json".toList then
    if verb.any Verb.takesJson && !f.json then .go { f with json := true } else .wrong
  else if arg = "--strict".toList then
    if verb.any Verb.takesStrict && !f.strict then .go { f with strict := true } else .wrong
  else
    match Text.strip? "--config=".toList arg with
    | some path => f.takeConfig path
    | none =>
      match arg with
      | '-' :: '-' :: _ => .wrong
      | '-' :: t => letters verb f t
      | _ => .wrong

def Flags.takeArgument (f : Flags) (verb : Verb) (arg : Text) : Step :=
  if f.arguments.length < verb.arity && !arg.isEmpty then
    .go { f with arguments := arg :: f.arguments }
  else .wrong

/-- The command with its flags and all of its arguments. -/
def command? (verb : Verb) (f : Flags) : Option Command :=
  match verb, f.arguments with
  | .threads, [archive] => some (.threads archive f.json f.strict)
  | .stats, [archive] => some (.stats archive f.json)
  | .append, [message, archive] => some (.append archive message)
  | _, _ => none

/-- The invocation of a command, with the options before its name and those after it. The latter
come first. -/
def invocation? (verb : Verb) (before after : Flags) : Option Invocation :=
  (command? verb after).map fun command =>
    { command, configFile := after.config.or before.config,
      verbosity := if after.verbosity = 0 then before.verbosity else after.verbosity }

/-- Reads what follows the name of a command. `onlyArguments` says that no options are left. -/
def afterVerb (verb : Verb) (before : Flags) (onlyArguments : Bool) (f : Flags) :
    List Text → Option Request
  | [] => (invocation? verb before f).map .run
  | arg :: rest =>
    if !onlyArguments && arg = "--".toList then afterVerb verb before true f rest
    else
      match
        if !onlyArguments && isOption arg then option (some verb) f arg
        else f.takeArgument verb arg with
      | .go f => afterVerb verb before onlyArguments f rest
      | .done request => some request
      | .wrong => none
      | .wantConfig =>
        match rest with
        | [] => none
        | path :: rest =>
          match if isOption path then .wrong else f.takeConfig path with
          | .go f => afterVerb verb before onlyArguments f rest
          | _ => none

/-- Whether what follows the command `help` is right. -/
def isHelp : List Text → Bool
  | [] => true
  | [name] => name = "help".toList ∨ (Verb.ofName? name).isSome
  | _ => false

/-- Reads what stands before the name of the command. -/
def beforeVerb (f : Flags) : List Text → Option Request
  | [] => none
  | arg :: rest =>
    if isOption arg then
      match option none f arg with
      | .go f => beforeVerb f rest
      | .done request => some request
      | .wrong => none
      | .wantConfig =>
        match rest with
        | [] => none
        | path :: rest =>
          match if isOption path then .wrong else f.takeConfig path with
          | .go f => beforeVerb f rest
          | _ => none
    else
      match Verb.ofName? arg with
      | some verb => afterVerb verb f false {} rest
      | none => if arg = "help".toList && isHelp rest then some .help else none

/-- What the arguments ask for; nothing if they make no sense. -/
def parse (args : List Text) : Option Request := beforeVerb {} args

end CommandLine
end MailArchive
