import MailArchive.Archive
import MailArchive.Disk

/-!
# MailArchive.Failure

All that can go wrong, with the texts that say so. `Failure.causes` goes from a failure to what is
behind it, the nearest cause first.
-/

namespace MailArchive

inductive Failure where
  | file (path : Text) (fault : DiskFault)
  | archiveNotFound (path : Text)
  | archive (fault : Archive.Fault)
  | malformed (why : Malformation)
  | invalidConfig
  /-- The year of a message's date does not have four digits, so the date cannot be written. -/
  | unprintableDate
  | unplacedReplies (count : Nat)
  deriving DecidableEq, Repr

namespace Failure

def message : Failure → Text
  | file path fault => "I/O error on '".toList ++ path ++ "': ".toList ++ fault.message
  | archiveNotFound path => "MBOX file not found: ".toList ++ path
  | archive fault => fault.message
  | malformed why => why.reason
  | invalidConfig => "Invalid configuration".toList
  | unprintableDate => "the year of the date does not have four digits".toList
  | unplacedReplies count =>
    Text.ofNat count ++ " replies could not be placed in a conversation".toList

/-- What is behind a failure of an encoded word. -/
def wordCause : EncodedWord.Fault → Text
  | .base64 _ fault => fault.message
  | .utf8 _ fault => fault.message

def causes : Failure → List Text
  | file _ fault => [fault.message]
  | archive (.word _ fault) => [fault.message, wordCause fault]
  | archive (.malformed _ why) => [why.reason]
  | _ => []

/-- A cause on its line; if there are several, they are numbered. -/
def causeLine (several : Bool) (number : Nat) (cause : Text) : Text :=
  if several then (Text.ofNat number).leftpad 5 ' ' ++ ": ".toList ++ cause ++ "\n".toList
  else "    ".toList ++ cause ++ "\n".toList

/-- The failure and its causes as a program reports them. -/
def report (f : Failure) : Text :=
  "Error: ".toList ++ f.message ++ "\n".toList ++
    if f.causes.isEmpty then []
    else
      "\nCaused by:\n".toList ++
        (f.causes.zipIdx.map fun (cause, n) => causeLine (1 < f.causes.length) n cause).flatten

end Failure
end MailArchive
