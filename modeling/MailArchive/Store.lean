import MailArchive.Failure
import MailArchive.Fragment

/-!
# MailArchive.Store

Archives in files. Reading takes a file as a whole; appending puts the fragment of a message at the
end of a file and changes nothing else. An archive that is not there can be appended to, but not
read.
-/

namespace MailArchive
namespace Store

def readArchive (d : Disk) (path : Text) : Except Failure Text :=
  (d.read path).mapError fun fault =>
    if fault = .notFound then .archiveNotFound path else .file path fault

def readNotices (d : Disk) (path : Text) : List Notice :=
  match readArchive d path with
  | .ok t => [.archiveRead path (Text.byteLength t)]
  | .error _ => []

/-- Puts a message at the end of an archive. Nothing is touched if the message cannot be written. -/
def appendMessage (d : Disk) (path : Text) (m : Message) (options : FormatOptions) :
    Except Failure Disk :=
  match Fragment.format? options m with
  | none => .error .unprintableDate
  | some fragment => (d.append path (Utf8.encode fragment)).mapError (.file path)

def appendNotices (d : Disk) (path : Text) (m : Message) (options : FormatOptions) : List Notice :=
  match appendMessage d path m options, Fragment.format? options m with
  | .ok _, some fragment => [.messageAppended path m.id (Text.byteLength fragment)]
  | _, _ => []

end Store
end MailArchive
