import Calldata.Checked
import Calldata.Size
import Calldata.Term.Basic
import Calldata.Term.Fold
import Calldata.Term.Json
import Calldata.Polynomial.Basic
import Calldata.Polynomial.OfTerm
import Calldata.Json.Basic
import Calldata.Json.Reader
import Calldata.Json.Printer
import Calldata.Text.Quoted
import Calldata.Ty.Basic
import Calldata.Datum
import Calldata.Ty.OfDatum
import Calldata.Graph
import Calldata.Arena.Basic
import Calldata.Arena.Class
import Calldata.Resolver
import Calldata.Layout.Basic
import Calldata.Layout.Table
import Calldata.Layout.Json
import Calldata.Plan.Basic
import Calldata.Plan.Listing
import Calldata.Plan.Merge
import Calldata.Plan.Synthesis
import Calldata.Machine.Bytes
import Calldata.Machine.Run
import Calldata.Machine.Host
import Calldata.Decoder.Basic
import Calldata.Decoder.Json
import Calldata.Decoder.Protobuf
import Calldata.Decoder.Render
import Calldata.Text.Blank
import Calldata.Text.Decimal
import Calldata.Interface.TypeString
import Calldata.Interface.Basic
import Calldata.Interface.OfDatum
import Calldata.Yaml.Token
import Calldata.Yaml.Reader
import Calldata.Schema.File
import Calldata.Files
import Calldata.Decoder.Build
import Calldata.Catalog
import Calldata.Command.Basic
import Calldata.Command.Load
import Calldata.Command.Report
import Calldata.Command.Analyze
import Calldata.Command.Codegen
import Calldata.Command.Run
import Calldata.Command.Arguments
import Calldata.Main
import Calldata.Proofs.Act
import Calldata.Proofs.AtomText
import Calldata.Proofs.Building
import Calldata.Proofs.Coverage
import Calldata.Proofs.Distance
import Calldata.Proofs.Folding
import Calldata.Proofs.Rounding
import Calldata.Proofs.ReadBack
import Calldata.Proofs.Simulation
import Calldata.Proofs.Canonical
import Calldata.Proofs.Closed
import Calldata.Proofs.MergedRun
import Calldata.Proofs.FreshNames
import Calldata.Proofs.Growth
import Calldata.Proofs.NormalForm
import Calldata.Proofs.Writes
import Calldata.Proofs.RoundTrip
import Calldata.Proofs.StrictErrors
import Calldata.Proofs.Bodies
import Calldata.Proofs.DependencyOrder
import Calldata.Proofs.Expansion
import Calldata.Proofs.Resolution
import Calldata.Proofs.Supported
import Calldata.Proofs.Rewriting
import Calldata.Proofs.Messages
import Calldata.Proofs.ProtobufRoundTrip
import Calldata.Proofs.DeclarationOrder
import Calldata.Proofs.Strips
import Calldata.Proofs.Parameters
import Calldata.Proofs.Tiling
import Calldata.Proofs.Hollow
import Calldata.Proofs.MemorySizes
import Calldata.Proofs.StaticPlans
import Calldata.Proofs.CopyableHeads
import Calldata.Proofs.SequentialCopy
import Calldata.Proofs.Hosting
import Calldata.Proofs.TypeGrammar
import Calldata.Proofs.WordReading
import Calldata.Proofs.TypeNames
import Calldata.Proofs.WordAccess
import Calldata.Proofs.Overloads
import Calldata.Proofs.FieldNames
