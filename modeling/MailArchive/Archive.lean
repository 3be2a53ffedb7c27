import MailArchive.EncodedWord
import MailArchive.Message.Parser
import MailArchive.Segment
import MailArchive.Threading

/-!
# MailArchive.Archive

Reading a whole archive: it is cut into segments, the marks of the archive are taken from each, and
what is left is read as a message. The first segment that cannot be read ends it all
(`Archive.Fault`), so an archive is read either as a whole or not at all.
-/

namespace MailArchive

structure ArchiveOptions where
  resolution : Resolution := .singlePass
  deriving DecidableEq, Repr

namespace Archive

/-- Which segment of an archive cannot be read, and why. -/
inductive Fault where
  | word (segment : Nat) (fault : EncodedWord.Fault)
  | malformed (segment : Nat) (why : Malformation)
  deriving DecidableEq, Repr

namespace Fault

/-- The number of the segment, from zero. -/
def segment : Fault → Nat
  | word n _ => n
  | malformed n _ => n

/-- What is wrong, with the number of the segment. -/
def message : Fault → Text
  | word n fault =>
    "Decoding error in segment ".toList ++ Text.ofNat n ++ ": ".toList ++ fault.message
  | malformed n why =>
    "Malformed message in segment ".toList ++ Text.ofNat n ++ ": ".toList ++ why.reason

end Fault

/-- The text of a segment without the marks of the archive. -/
def decode (segment : Text) : Except EncodedWord.Fault Text :=
  EncodedWord.decode (FromLine.unescape segment)

def readSegment (parser : MessageParser) (number : Nat) (segment : Text) :
    Except Fault Message :=
  match decode segment with
  | .error fault => .error (.word number fault)
  | .ok t => (parser.parse t).mapError (.malformed number)

/-- Reads segments, of which the first one has the given number. -/
def readSegments (parser : MessageParser) (number : Nat) : List Segment →
    Except Fault (List Message)
  | [] => .ok []
  | s :: rest =>
    match readSegment parser number s.text with
    | .error fault => .error fault
    | .ok m => (readSegments parser (number + 1) rest).map (m :: ·)

def messages (parser : MessageParser) (archive : Text) : Except Fault (List Message) :=
  readSegments parser 0 (segments archive)

def segmentNotices (parser : MessageParser) (s : Segment) : List Notice :=
  s.bareSeparators.map .bareSeparator ++
    match decode s.text with
    | .error _ => []
    | .ok t => parser.notices t

/-- What there is to report about segments up to the first one that cannot be read. -/
def noticesOf (parser : MessageParser) : List Segment → List Notice
  | [] => []
  | s :: rest =>
    segmentNotices parser s ++
      match readSegment parser 0 s.text with
      | .error _ => []
      | .ok _ => noticesOf parser rest

def messageNotices (parser : MessageParser) (archive : Text) : List Notice :=
  noticesOf parser (segments archive)

def parse (parser : MessageParser) (options : ArchiveOptions) (archive : Text) :
    Except Fault Threading.Outcome :=
  (messages parser archive).map (Threading.build options.resolution)

def parseNotices (parser : MessageParser) (options : ArchiveOptions) (withUnresolved : Bool)
    (archive : Text) : List Notice :=
  messageNotices parser archive ++
    match messages parser archive with
    | .error _ => []
    | .ok ms =>
      let o := Threading.build options.resolution ms
      o.notices withUnresolved ++ [.archiveParsed ms.length o.conversations.length]

end Archive
end MailArchive
