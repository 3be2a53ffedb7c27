import MailArchive.Main
import MailArchive.Json.Read
import MailArchive.Conversation.Table
import MailArchive.Threading.Index
import MailArchive.Segment.Splitter
import MailArchive.Proofs.Conversation.Linked
import MailArchive.Proofs.Conversation.Depth
import MailArchive.Proofs.Conversation.Extension
import MailArchive.Proofs.Conversation.Shape
import MailArchive.Proofs.Conversation.Table
import MailArchive.Proofs.Conversation.Outline
import MailArchive.Proofs.Conversation.Walk
import MailArchive.Proofs.Conversation.Json
import MailArchive.Proofs.Conversation.Views
import MailArchive.Proofs.Conversation.Subtree
import MailArchive.Proofs.Conversation.Offer
import MailArchive.Proofs.Threading.Growth
import MailArchive.Proofs.Threading.Firsts
import MailArchive.Proofs.Threading.Pass
import MailArchive.Proofs.Threading.Conservation
import MailArchive.Proofs.Threading.Reachability
import MailArchive.Proofs.Threading.SinglePass
import MailArchive.Proofs.Threading.Resolutions
import MailArchive.Proofs.Threading.Independence
import MailArchive.Proofs.Threading.Rebuild
import MailArchive.Proofs.Threading.Index
import MailArchive.Proofs.Text.Cut
import MailArchive.Proofs.Text.Lines
import MailArchive.Proofs.Text.LineEnds
import MailArchive.Proofs.Text.Trim
import MailArchive.Proofs.Text.Utf8
import MailArchive.Proofs.Text.Base64
import MailArchive.Proofs.EncodedWord.Encode
import MailArchive.Proofs.EncodedWord.Payload
import MailArchive.Proofs.EncodedWord.RoundTrip
import MailArchive.Proofs.EncodedWord.Lines
import MailArchive.Proofs.FromLine.Escape
import MailArchive.Proofs.FromLine.Bijection
import MailArchive.Proofs.FromLine.Words
import MailArchive.Proofs.Segment.Framing
import MailArchive.Proofs.Calendar.Field
import MailArchive.Proofs.Calendar.Timestamp
import MailArchive.Proofs.Calendar.Rfc2822
import MailArchive.Proofs.Calendar.Rfc3339
import MailArchive.Proofs.Address.RoundTrip
import MailArchive.Proofs.Address.Parsed
import MailArchive.Proofs.Calendar.Ctime
import MailArchive.Proofs.Address.List
import MailArchive.Proofs.Message.HeaderBlock
import MailArchive.Proofs.Message.LineEnds
import MailArchive.Proofs.Message.RoundTrip
import MailArchive.Proofs.Message.Unmarked
import MailArchive.Proofs.Message.Parsed
import MailArchive.Proofs.Message.Reading
import MailArchive.Proofs.Message.Selection
import MailArchive.Proofs.Message.Folding
import MailArchive.Proofs.Message.BrokenLine
import MailArchive.Proofs.Fragment.Fields
import MailArchive.Proofs.Fragment.Framing
import MailArchive.Proofs.Fragment.Reading
import MailArchive.Proofs.Archive.Append
import MailArchive.Proofs.Archive.LineEnds
import MailArchive.Proofs.Archive.RoundTrip
import MailArchive.Proofs.Archive.Readable
import MailArchive.Proofs.Archive.Conversations
import MailArchive.Proofs.Segment.Partition
import MailArchive.Proofs.Segment.OpenEnd
import MailArchive.Proofs.Segment.LineEnds
import MailArchive.Proofs.Segment.Splitter
import MailArchive.Proofs.Disk.Append
import MailArchive.Proofs.Store.Append
import MailArchive.Proofs.Json.Scalar
import MailArchive.Proofs.Json.RoundTrip
import MailArchive.Proofs.Json.Record
import MailArchive.Proofs.Json.Message
import MailArchive.Proofs.Report.Outline
import MailArchive.Proofs.Program.Reports
import MailArchive.Proofs.Program.Append
import MailArchive.Proofs.Calendar.Reading
