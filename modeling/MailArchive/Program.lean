import MailArchive.CommandLine
import MailArchive.Config
import MailArchive.Report

/-!
# MailArchive.Program

The program as a function: from the environment, the files there are and the arguments to what it
prints, its exit code, and the files there are afterwards (`Program.run`).
-/

namespace MailArchive

/-- What a run of the program comes to. -/
structure Outcome where
  code : Nat
  out : Text
  err : Text
  /-- What belongs in the log. -/
  log : List Notice
  disk : Disk
  deriving Repr

namespace Program

def version : Text := "mboxthread 0.1.0\n".toList

def usage : Text :=
  ("Rebuild threaded conversations from MBOX archives\n\n" ++
    "Usage: mboxthread [OPTIONS] <COMMAND>\n\n" ++
    "Commands:\n" ++
    "  threads [--json] [--strict] <PATH>  Print the conversation trees of an archive\n" ++
    "  stats [--json] <PATH>               Show message and conversation counts\n" ++
    "  append <ARCHIVE> <MESSAGE>          Append a single message to an archive\n\n" ++
    "Options:\n" ++
    "      --config <FILE>  Configuration file (overrides $MBOXTHREAD_CONFIG)\n" ++
    "  -v, --verbose...     Verbose logging (-v info, -vv debug, -vvv trace)\n" ++
    "  -h, --help           Print help\n" ++
    "  -V, --version        Print version\n").toList

/-! ### The log -/

/-- The levels of notices that a level of the log shows. -/
def shown (level : Text) : List Level :=
  if level = "warn".toList then [.warn]
  else if level = "info".toList then [.warn, .info]
  else if level = "debug".toList ∨ level = "trace".toList then [.warn, .info, .debug]
  else []

def logLevel (verbosity : Nat) (c : Config) : Text :=
  match verbosity with
  | 0 => c.general.logLevel
  | 1 => "info".toList
  | 2 => "debug".toList
  | _ => "trace".toList

def logPath (e : Environment) (c : Config) : Text :=
  Disk.join (Config.cacheDir e c) "mboxthread.log".toList

/-- The disk with a log file in its folder. If the folder cannot be made there is no log file; if
the file cannot be made there is no disk, and the program gives up. -/
def startLog (e : Environment) (c : Config) (d : Disk) : Option Disk :=
  match d.makeFolder (Config.cacheDir e c) with
  | (d, false) => some d
  | (d, true) => (d.append (logPath e c) []).toOption

/-! ### The commands -/

structure Result where
  out : Text := []
  err : Text := []
  log : List Notice := []
  disk : Disk
  failure : Option Failure := none
  deriving Repr

/-- The text of an archive and its conversations. -/
def load (c : Config) (d : Disk) (path : Text) : Except Failure (Text × Threading.Outcome) :=
  match Store.readArchive d path with
  | .error failure => .error failure
  | .ok t =>
    match Archive.parse .standard c.threading t with
    | .error fault => .error (.archive fault)
    | .ok o => .ok (t, o)

/-- What there is to report about an archive that is loaded. -/
def loadNotices (c : Config) (d : Disk) (path : Text) : List Notice :=
  Store.readNotices d path ++
    match Store.readArchive d path with
    | .error _ => []
    | .ok t => Archive.parseNotices .standard c.threading true t

def threads (c : Config) (d : Disk) (path : Text) (json strict : Bool) : Result :=
  let log := loadNotices c d path
  match load c d path with
  | .error failure => { log, disk := d, failure := some failure }
  | .ok (_, o) =>
    { out :=
        if json then Report.line (Report.threadsJson o).write else Report.outlines o.conversations
      err := if json then [] else (o.unresolved.map Report.droppedLine).flatten
      log
      disk := d
      failure :=
        if strict && !o.unresolved.isEmpty then some (.unplacedReplies o.unresolved.length)
        else none }

def stats (c : Config) (d : Disk) (path : Text) (json : Bool) : Result :=
  let log := loadNotices c d path
  match load c d path with
  | .error failure => { log, disk := d, failure := some failure }
  | .ok (t, o) =>
    let s := Statistics.ofOutcome path t o
    { out := if json then Report.line s.toJson.write else s.write, log, disk := d }

def loadMessage (d : Disk) (path : Text) : Except Failure Message :=
  match Store.readArchive d path with
  | .error failure => .error failure
  | .ok t => (Message.parse t).mapError .malformed

def loadMessageNotices (d : Disk) (path : Text) : List Notice :=
  Store.readNotices d path ++
    match Store.readArchive d path with
    | .error _ => []
    | .ok t => Message.parseNotices t

/-- Puts the message in a file at the end of an archive. -/
def append (c : Config) (d : Disk) (archive message : Text) : Result :=
  let log := loadMessageNotices d message
  match loadMessage d message with
  | .error failure => { log, disk := d, failure := some failure }
  | .ok m =>
    match Store.appendMessage d archive m c.format with
    | .error failure => { log, disk := d, failure := some failure }
    | .ok after =>
      { out := Report.line ("Appended ".toList ++ m.id ++ " to ".toList ++ archive)
        log := log ++ Store.appendNotices d archive m c.format
        disk := after }

def execute (c : Config) (d : Disk) : Command → Result
  | .threads archive json strict => threads c d archive json strict
  | .stats archive json => stats c d archive json
  | .append archive message => append c d archive message

/-! ### The whole -/

def exitCode : Failure → Nat
  | .unprintableDate => 101
  | _ => 1

/-- The outcome of a command, with what the log shows. -/
def Result.outcome (r : Result) (level : Text) : Outcome where
  code := (r.failure.map exitCode).getD 0
  out := r.out
  err := r.err ++ (r.failure.map Failure.report).getD []
  log := r.log.filter fun n => (shown level).contains n.level
  disk := r.disk

def config (e : Environment) (d : Disk) (i : Invocation) : Except Failure Config :=
  match i.configFile with
  | some path => Config.load d path
  | none => .ok (Config.search e d)

def invoke (e : Environment) (d : Disk) (i : Invocation) : Outcome :=
  match config e d i with
  | .error failure =>
    { code := exitCode failure, out := [], err := failure.report, log := [], disk := d }
  | .ok c =>
    match startLog e c d with
    | none =>
      { code := 101, out := [], err := Report.line "the log file cannot be opened".toList
        log := [], disk := d }
    | some d => (execute c d i.command).outcome (logLevel i.verbosity c)

def run (e : Environment) (d : Disk) (args : List Text) : Outcome :=
  match CommandLine.parse args with
  | none => { code := 2, out := [], err := usage, log := [], disk := d }
  | some .version => { code := 0, out := version, err := [], log := [], disk := d }
  | some .help => { code := 0, out := usage, err := [], log := [], disk := d }
  | some (.run i) => invoke e d i

/-! ### What a run looks at -/

/-- The files that a command names. -/
def files : Command → List Text
  | .threads archive _ _ => [archive]
  | .stats archive _ => [archive]
  | .append archive message => [archive, message]

/-- The files that a run reads or writes, the log file apart. -/
def inputs (e : Environment) (args : List Text) : List Text :=
  match CommandLine.parse args with
  | some (.run i) => (i.configFile.or (Config.path? e)).toList ++ files i.command
  | _ => []

/-- The log file of a run that gets as far as that. -/
def logFile (e : Environment) (d : Disk) (args : List Text) : Option Text :=
  match CommandLine.parse args with
  | some (.run i) => (config e d i).toOption.map (logPath e)
  | _ => none

end Program
end MailArchive
