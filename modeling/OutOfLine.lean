import OutOfLine.Batch
import OutOfLine.Command.Run
import OutOfLine.Declaration
import OutOfLine.Discovery.Ignore
import OutOfLine.Discovery.Search
import OutOfLine.Lexeme
import OutOfLine.Main
import OutOfLine.Manifest
import OutOfLine.Member
import OutOfLine.Path
import OutOfLine.Proofs.Agreement
import OutOfLine.Proofs.Assembly
import OutOfLine.Proofs.Balance
import OutOfLine.Proofs.Batch.Groups
import OutOfLine.Proofs.Batch.Order
import OutOfLine.Proofs.Batch.Partition
import OutOfLine.Proofs.Batch.Prediction
import OutOfLine.Proofs.Batch.Process
import OutOfLine.Proofs.Capture
import OutOfLine.Proofs.Character
import OutOfLine.Proofs.Commutation
import OutOfLine.Proofs.Declaration
import OutOfLine.Proofs.Declaration.Exact
import OutOfLine.Proofs.Declaration.Head
import OutOfLine.Proofs.Declaration.Once
import OutOfLine.Proofs.Detection
import OutOfLine.Proofs.Discovery.Heritage
import OutOfLine.Proofs.Interface
import OutOfLine.Proofs.Lexeme
import OutOfLine.Proofs.Lexeme.Grammar
import OutOfLine.Proofs.Lexeme.Longest
import OutOfLine.Proofs.Linkage
import OutOfLine.Proofs.Locality
import OutOfLine.Proofs.Manifest
import OutOfLine.Proofs.Member.Completeness
import OutOfLine.Proofs.Member.Constructor
import OutOfLine.Proofs.Member.Directive
import OutOfLine.Proofs.Member.Extraction
import OutOfLine.Proofs.Member.Head
import OutOfLine.Proofs.Member.Inset
import OutOfLine.Proofs.Member.Naming
import OutOfLine.Proofs.Member.Placement
import OutOfLine.Proofs.Member.Statement
import OutOfLine.Proofs.Member.Walk
import OutOfLine.Proofs.Member.Window
import OutOfLine.Proofs.Namespace.Heading
import OutOfLine.Proofs.Namespace.Open
import OutOfLine.Proofs.Namespace.Recognition
import OutOfLine.Proofs.Path
import OutOfLine.Proofs.Replacement
import OutOfLine.Proofs.Scan.Character
import OutOfLine.Proofs.Scan.Joining
import OutOfLine.Proofs.Scan.Matching
import OutOfLine.Proofs.Scan.Nesting
import OutOfLine.Proofs.Scan.Reading
import OutOfLine.Proofs.Scan.Window
import OutOfLine.Proofs.Section
import OutOfLine.Proofs.Section.Label
import OutOfLine.Proofs.Signature.Agreement
import OutOfLine.Proofs.Signature.Boundary
import OutOfLine.Proofs.Signature.Bracket
import OutOfLine.Proofs.Signature.Collapse
import OutOfLine.Proofs.Signature.Marker
import OutOfLine.Proofs.Signature.Parameters
import OutOfLine.Proofs.Signature.Qualifier
import OutOfLine.Proofs.Signature.Word
import OutOfLine.Proofs.Sorting
import OutOfLine.Proofs.Splice
import OutOfLine.Proofs.Splice.Trace
import OutOfLine.Proofs.Storage.Interleaving
import OutOfLine.Proofs.Storage.Script
import OutOfLine.Proofs.Text.Search
import OutOfLine.Proofs.Text.Utf8
import OutOfLine.Proofs.Text.Word
import OutOfLine.Proofs.Transform
import OutOfLine.Scan
import OutOfLine.Signature
import OutOfLine.Storage.Basic
import OutOfLine.Storage.Disk
import OutOfLine.Text.Byte
import OutOfLine.Text.Search
import OutOfLine.Toml.Document
import OutOfLine.Toml.Text
import OutOfLine.Transform
