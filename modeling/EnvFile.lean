import EnvFile.Document.Merge
import EnvFile.Document.Render
import EnvFile.Scanner
import EnvFile.Loader
import EnvFile.Proofs.Collision
import EnvFile.Proofs.Arrangement
import EnvFile.Proofs.Precedence
import EnvFile.Proofs.Loading
import EnvFile.Proofs.WrittenValue
import EnvFile.Proofs.CanonicalKey
import EnvFile.Proofs.WrittenStatement
import EnvFile.Proofs.Framing
import EnvFile.Proofs.Script
import EnvFile.Proofs.Rereading
import EnvFile.Proofs.RoundTrip
import EnvFile.Proofs.BannerPlacing
import EnvFile.Proofs.CleanReading
import EnvFile.Proofs.Resaving
import EnvFile.Proofs.Members
import EnvFile.Proofs.Families
import EnvFile.Proofs.Replacing
import EnvFile.Proofs.Taking
import EnvFile.Proofs.Editing
import EnvFile.Proofs.Lasting
import EnvFile.Proofs.MergingDocuments
import EnvFile.Proofs.Soundness
import EnvFile.Proofs.Lookups
import EnvFile.Proofs.Grouping
import EnvFile.Proofs.Idempotence
import EnvFile.Proofs.KeptValues
import EnvFile.Proofs.InertLines
import EnvFile.Proofs.Annotations
import EnvFile.Proofs.Injection
import EnvFile.Proofs.FaithfulValues
import EnvFile.Proofs.SegmentKinds
import EnvFile.Proofs.SilentSegments
import EnvFile.Proofs.Paragraphs
import EnvFile.Proofs.Enclosing
import EnvFile.Proofs.Verbatim
import EnvFile.Proofs.ClosingQuotes
import EnvFile.Proofs.InlineComments
import EnvFile.Proofs.Separators
import EnvFile.Proofs.SourceStatements
import EnvFile.Proofs.ReportedLine
import EnvFile.Proofs.Abridging
import EnvFile.Proofs.CommentSegments
import EnvFile.Proofs.Exporting
import EnvFile.Proofs.Titles
import EnvFile.Proofs.EncodedText
import EnvFile.Proofs.Decoding
import EnvFile.Proofs.WrittenTwice
import EnvFile.Proofs.LeadingComments
import EnvFile.Proofs.ClosingBytes
import EnvFile.Proofs.OpenedQuotes
import EnvFile.Proofs.FirstSegment
import EnvFile.Proofs.Scanning
