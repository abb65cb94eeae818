import SsaGraph.Binary64
import SsaGraph.Binary64.Decimal
import SsaGraph.Binary64.Style
import SsaGraph.Blake3
import SsaGraph.Codec
import SsaGraph.Command
import SsaGraph.Command.Files
import SsaGraph.Command.Help
import SsaGraph.Command.Run
import SsaGraph.Diagnostic
import SsaGraph.Func
import SsaGraph.Func.Builder
import SsaGraph.Func.Step
import SsaGraph.Graph
import SsaGraph.Graph.Dataflow
import SsaGraph.Graph.Digraph
import SsaGraph.Graph.Document
import SsaGraph.Graph.Fingerprint
import SsaGraph.Graph.Listing
import SsaGraph.Graph.Numbering
import SsaGraph.Json
import SsaGraph.Json.Codec
import SsaGraph.Json.Numeral
import SsaGraph.Lowering
import SsaGraph.Lowering.Buffer
import SsaGraph.Lowering.Comparison
import SsaGraph.Lowering.Fault
import SsaGraph.Lowering.Instruction
import SsaGraph.Lowering.State
import SsaGraph.Main
import SsaGraph.Manifest
import SsaGraph.Op
import SsaGraph.Opcode
import SsaGraph.Predicate
import SsaGraph.Program
import SsaGraph.Program.Line
import SsaGraph.Program.Operand
import SsaGraph.Program.Read
import SsaGraph.Program.Reader
import SsaGraph.Proofs.Func.Arena
import SsaGraph.Proofs.Graph.NodeOrder
import SsaGraph.Proofs.Graph.Storage
import SsaGraph.Proofs.Lowering.Buffer
import SsaGraph.Proofs.Lowering.NodeOrder
import SsaGraph.Proofs.Lowering.Outcome
import SsaGraph.Proofs.Lowering.Preparation
import SsaGraph.Proofs.Lowering.ResultBuffer
import SsaGraph.Proofs.Lowering.Run
import SsaGraph.Proofs.Lowering.Success
import SsaGraph.Proofs.Meaning.Agreement
import SsaGraph.Proofs.Meaning.Evaluation
import SsaGraph.Proofs.Meaning.Execution
import SsaGraph.Proofs.Meaning.Simulation
import SsaGraph.Proofs.Program.Arena
import SsaGraph.Proofs.Program.Reading
import SsaGraph.Span
import SsaGraph.SyntaxError
import SsaGraph.Table
import SsaGraph.Text.Blank
import SsaGraph.Text.Digits
import SsaGraph.Token
import SsaGraph.Token.Scan
import SsaGraph.Ty
import SsaGraph.Proofs.Graph.Numbering
import SsaGraph.Proofs.Text.Digits
import SsaGraph.Proofs.Json.Tokens
import SsaGraph.Proofs.Json.Values
import SsaGraph.Proofs.Codec
import SsaGraph.Proofs.Json.Codec
import SsaGraph.Proofs.Graph.Document
import SsaGraph.Proofs.Graph.Encoding
import SsaGraph.Proofs.Func.Text
import SsaGraph.Proofs.Program.Tokens
import SsaGraph.Proofs.Program.Operands
import SsaGraph.Proofs.Program.Lines
import SsaGraph.Proofs.Program.Bodies
import SsaGraph.Proofs.Program.RoundTrip
import SsaGraph.Proofs.Lowering.Arity
import SsaGraph.Proofs.Token.Joining
import SsaGraph.Proofs.Program.Locality
import SsaGraph.Proofs.Program.Lookahead
import SsaGraph.Proofs.Program.Runs
import SsaGraph.Proofs.Program.Alongside
import SsaGraph.Proofs.Program.Reaching
import SsaGraph.Proofs.Program.Spelling
import SsaGraph.Proofs.Program.Parameters
import SsaGraph.Proofs.Program.Headers
import SsaGraph.Proofs.Program.Endings
import SsaGraph.Proofs.Program.Attributes
import SsaGraph.Proofs.Program.Decorations
import SsaGraph.Proofs.Program.Joining
import SsaGraph.Proofs.Program.Origin
import SsaGraph.Proofs.Lowering.Recording
import SsaGraph.Proofs.Lowering.ElementAddress
import SsaGraph.Proofs.Lowering.StoredAddress
import SsaGraph.Proofs.Func.Owned
import SsaGraph.Proofs.Lowering.ForeignHandle
import SsaGraph.Proofs.Program.Places
import SsaGraph.Proofs.Lowering.RefusalPlace
import SsaGraph.Proofs.Lowering.Sources
import SsaGraph.Proofs.Lowering.Pooling
import SsaGraph.Proofs.Graph.Digraph
import SsaGraph.Proofs.Graph.Dataflow
import SsaGraph.Proofs.Text.Lines
import SsaGraph.Proofs.Manifest.Entries
import SsaGraph.Proofs.Manifest.Comments
import SsaGraph.Proofs.Manifest.Layout
import SsaGraph.Proofs.Token.Printing
import SsaGraph.Proofs.Token.Coverage
import SsaGraph.Proofs.Graph.Log
import SsaGraph.Proofs.Lowering.SlotHistory
import SsaGraph.Proofs.Lowering.TwoPasses
import SsaGraph.Proofs.Program.ParameterNames
