import UvaAnalysis.Main
import UvaAnalysis.Proofs.Token.Grammar
import UvaAnalysis.Proofs.Position
import UvaAnalysis.Proofs.Token.Run
import UvaAnalysis.Proofs.Token.Lossless
import UvaAnalysis.Proofs.Path
import UvaAnalysis.Proofs.Token.Calls
import UvaAnalysis.Proofs.Provenance
import UvaAnalysis.Proofs.Tree.ClassName
import UvaAnalysis.Proofs.Attribution
import UvaAnalysis.Proofs.SingleQuotes
import UvaAnalysis.Proofs.Place
import UvaAnalysis.Proofs.Walk
import UvaAnalysis.Proofs.SavedCopy
import UvaAnalysis.Proofs.Tree.Derivation
import UvaAnalysis.Proofs.Tree.Traversal
import UvaAnalysis.Proofs.Tree.Inorder
import UvaAnalysis.Proofs.Tree.Local.Expression
import UvaAnalysis.Proofs.Tree.FaultLocality
import UvaAnalysis.Proofs.Tree.StartedNames
import UvaAnalysis.Proofs.Tree.Print
import UvaAnalysis.Proofs.Tree.RoundTrip.Expression
import UvaAnalysis.Proofs.Tree.RoundTrip.Statement
import UvaAnalysis.Proofs.References
import UvaAnalysis.Proofs.Server.Sink
import UvaAnalysis.Proofs.Server.Requests
import UvaAnalysis.Proofs.Server.Framing
import UvaAnalysis.Proofs.Server.FailingSink
import UvaAnalysis.Proofs.Tree.Relabel.Expression
import UvaAnalysis.Proofs.Tree.Relabel.Statement
import UvaAnalysis.Proofs.Text.Json.Grammar
import UvaAnalysis.Proofs.Text.Json.Scalar
import UvaAnalysis.Proofs.Text.Json.Decoder
import UvaAnalysis.Proofs.ReportStream
import UvaAnalysis.Proofs.Text.Encoding
import UvaAnalysis.Proofs.Text.Lines
import UvaAnalysis.Proofs.Token.Positions
import UvaAnalysis.Proofs.Token.LineBreaks
import UvaAnalysis.Proofs.CommandLine
import UvaAnalysis.Proofs.Token.Faults
import UvaAnalysis.Proofs.Token.Texts
import UvaAnalysis.Proofs.Tree.Precedence
import UvaAnalysis.Proofs.Tree.Shape
import UvaAnalysis.Proofs.Tree.Semicolon
import UvaAnalysis.Proofs.Tree.Nesting
import UvaAnalysis.Proofs.Token.Sequence
import UvaAnalysis.Proofs.Token.Directives
import UvaAnalysis.Proofs.Token.IncludeStack
import UvaAnalysis.Proofs.Tree.Cursor.Progress
import UvaAnalysis.Proofs.Tree.FirstToken
