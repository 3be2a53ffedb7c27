import MailArchive.Text.Basic

/-!
# MailArchive.Notice

What the library reports besides its results: a notice says what was skipped, dropped or done. A
log shows it as a level, a sentence and named values.
-/

namespace MailArchive

inductive Level where
  | debug
  | info
  | warn
  deriving DecidableEq, Repr

/-- Something that happened and that a log can show. -/
inductive Notice where
  | bareSeparator (offset : Nat)
  | headerLineSkipped (line : Text)
  | dateUnreadable (date : Text)
  | duplicateIgnored (id : Text)
  | replyRejected (id target : Text)
  | parentMissing (id target : Text)
  | parentUnplaced (id target : Text)
  | fixedPointReached (passes : Nat)
  | archiveParsed (messages conversations : Nat)
  | archiveRead (path : Text) (bytes : Nat)
  | messageAppended (path id : Text) (bytes : Nat)
  | configLoaded (path : Text)
  | configUnusable (path why : Text)
  deriving DecidableEq, Repr

def Level.name : Level → Text
  | .debug => "debug".toList
  | .info => "info".toList
  | .warn => "warn".toList

namespace Notice

def level : Notice → Level
  | .bareSeparator _ => .debug
  | .headerLineSkipped _ => .warn
  | .dateUnreadable _ => .warn
  | .duplicateIgnored _ => .debug
  | .replyRejected _ _ => .warn
  | .parentMissing _ _ => .info
  | .parentUnplaced _ _ => .info
  | .fixedPointReached _ => .debug
  | .archiveParsed _ _ => .debug
  | .archiveRead _ _ => .debug
  | .messageAppended _ _ _ => .info
  | .configLoaded _ => .info
  | .configUnusable _ _ => .warn

def message : Notice → Text
  | .bareSeparator _ =>
    "Unescaped 'From ' line without preceding blank line, not a boundary".toList
  | .headerLineSkipped _ => "Skipping header line without a colon".toList
  | .dateUnreadable _ => "Could not parse date".toList
  | .duplicateIgnored _ => "Ignoring message with duplicate id".toList
  | .replyRejected _ _ => "Reply rejected by conversation".toList
  | .parentMissing _ _ => "Can't find parent, discarding reply".toList
  | .parentUnplaced _ _ => "Can't find conversation for parent, discarding reply".toList
  | .fixedPointReached _ => "Reply resolution reached a fixed point".toList
  | .archiveParsed _ _ => "Parsed archive".toList
  | .archiveRead _ _ => "Read archive".toList
  | .messageAppended _ _ _ => "Appended message to archive".toList
  | .configLoaded _ => "Loaded config".toList
  | .configUnusable _ _ => "Failed to load config, using defaults".toList

def reply (id target : Text) : List (Text × Text) :=
  [("message_id".toList, id), ("in_reply_to".toList, target)]

/-- The values of a notice by name. -/
def fields : Notice → List (Text × Text)
  | .bareSeparator offset => [("offset".toList, Text.ofNat offset)]
  | .headerLineSkipped line => [("line".toList, line)]
  | .dateUnreadable date => [("date".toList, date)]
  | .duplicateIgnored id => [("message_id".toList, id)]
  | .replyRejected id target => reply id target
  | .parentMissing id target => reply id target
  | .parentUnplaced id target => reply id target
  | .fixedPointReached passes => [("passes".toList, Text.ofNat passes)]
  | .archiveParsed messages conversations =>
    [("messages".toList, Text.ofNat messages), ("conversations".toList, Text.ofNat conversations)]
  | .archiveRead path bytes => [("path".toList, path), ("bytes".toList, Text.ofNat bytes)]
  | .messageAppended path id bytes =>
    [("path".toList, path), ("message_id".toList, id), ("bytes".toList, Text.ofNat bytes)]
  | .configLoaded path => [("path".toList, path)]
  | .configUnusable path why => [("path".toList, path), ("error".toList, why)]

end Notice
end MailArchive
