import Reckon.Chunk.Outline
import Reckon.CommandLine.Program
import Reckon.Expr.Grammar
import Reckon.Machine.Interpreter
import Reckon.Main
import Reckon.Proofs.Chunk.Assembly
import Reckon.Proofs.Chunk.History
import Reckon.Proofs.Chunk.Listing
import Reckon.Proofs.Compile.Actions
import Reckon.Proofs.Compile.Calls
import Reckon.Proofs.Compile.Language
import Reckon.Proofs.Compile.Layout
import Reckon.Proofs.Compile.Limits
import Reckon.Proofs.Compile.Lines
import Reckon.Proofs.Compile.Misfit
import Reckon.Proofs.Compile.Report
import Reckon.Proofs.Compile.Scanning
import Reckon.Proofs.Json.Grammar
import Reckon.Proofs.Json.Reading
import Reckon.Proofs.Json.Report
import Reckon.Proofs.Json.Writing
import Reckon.Proofs.Log.Delivery
import Reckon.Proofs.Log.Plan
import Reckon.Proofs.Log.Ring
import Reckon.Proofs.Log.Session
import Reckon.Proofs.Log.Sinks
import Reckon.Proofs.Machine.Capacity
import Reckon.Proofs.Machine.Decoding
import Reckon.Proofs.Machine.Evaluation
import Reckon.Proofs.Machine.Inert
import Reckon.Proofs.Machine.Path
import Reckon.Proofs.Machine.Reuse
import Reckon.Proofs.Machine.Safety
import Reckon.Proofs.Run.Context
import Reckon.Proofs.Run.Observers
import Reckon.Proofs.Run.Outcome
import Reckon.Proofs.Run.Phases
import Reckon.Proofs.Run.Profile
import Reckon.Proofs.Run.Program
import Reckon.Proofs.Run.Ways
import Reckon.Proofs.Run.Window
import Reckon.Proofs.Settings.CommandLine
import Reckon.Proofs.Settings.Document
import Reckon.Proofs.Settings.Shared
import Reckon.Proofs.Settings.Text
import Reckon.Proofs.Text.Number
import Reckon.Proofs.Text.Rows
import Reckon.Proofs.Token.InPlace
import Reckon.Proofs.Token.Layout
import Reckon.Proofs.Token.Line
import Reckon.Proofs.Token.Partition
import Reckon.Proofs.Token.Spelling
import Reckon.Settings.Shared
import Reckon.Text.Buffer
