import LpcInspect.Bisect
import LpcInspect.Bytes.Advance
import LpcInspect.Bytes.Basic
import LpcInspect.Bytes.Reader
import LpcInspect.Bytes.Scalar
import LpcInspect.Bytes.Writer
import LpcInspect.CommandLine.Address
import LpcInspect.CommandLine.Arguments
import LpcInspect.CommandLine.FileSystem
import LpcInspect.CommandLine.Outcome
import LpcInspect.CommandLine.Run
import LpcInspect.Json.Basic
import LpcInspect.Json.Parser
import LpcInspect.Json.Printer
import LpcInspect.Json.Record
import LpcInspect.Json.Token
import LpcInspect.LineTable.Basic
import LpcInspect.LineTable.Blob
import LpcInspect.LineTable.Decode
import LpcInspect.Listing.Cursor
import LpcInspect.Listing.Disassembler
import LpcInspect.Listing.Operand
import LpcInspect.Listing.OperandReader
import LpcInspect.Listing.Record
import LpcInspect.Listing.SwitchTable
import LpcInspect.Main
import LpcInspect.Opcode.Assembly
import LpcInspect.Opcode.Basic
import LpcInspect.Opcode.Encoding
import LpcInspect.Opcode.Table
import LpcInspect.Program.Basic
import LpcInspect.Program.Document
import LpcInspect.Program.Fault
import LpcInspect.Program.Function
import LpcInspect.Program.Resolve
import LpcInspect.Proofs.Assembly.CodeTree
import LpcInspect.Proofs.Assembly.Patching
import LpcInspect.Proofs.Assembly.RoundTrip
import LpcInspect.Proofs.Assembly.SwitchTable
import LpcInspect.Proofs.Bisect
import LpcInspect.Proofs.Bytes.FieldRows
import LpcInspect.Proofs.Bytes.Holds
import LpcInspect.Proofs.Bytes.Reads
import LpcInspect.Proofs.Bytes.Words
import LpcInspect.Proofs.Json.Lexing
import LpcInspect.Proofs.Json.Record
import LpcInspect.Proofs.Json.RoundTrip
import LpcInspect.Proofs.LineTable.Acceptance
import LpcInspect.Proofs.LineTable.CodeLines
import LpcInspect.Proofs.LineTable.FileLines
import LpcInspect.Proofs.LineTable.Header
import LpcInspect.Proofs.LineTable.RoundTrip
import LpcInspect.Proofs.LineTable.Runs
import LpcInspect.Proofs.Listing.Coverage
import LpcInspect.Proofs.Listing.DepthLimit
import LpcInspect.Proofs.Listing.Display
import LpcInspect.Proofs.Listing.FunctionMarkers
import LpcInspect.Proofs.Listing.FunctionStarts
import LpcInspect.Proofs.Listing.Headings
import LpcInspect.Proofs.Listing.Items
import LpcInspect.Proofs.Listing.Length
import LpcInspect.Proofs.Listing.Locations
import LpcInspect.Proofs.Listing.Log
import LpcInspect.Proofs.Listing.Nesting
import LpcInspect.Proofs.Listing.OperandBytes
import LpcInspect.Proofs.Listing.OperandFields
import LpcInspect.Proofs.Listing.Reference
import LpcInspect.Proofs.Listing.Relocation
import LpcInspect.Proofs.Listing.Shift
import LpcInspect.Proofs.Listing.Splitting
import LpcInspect.Proofs.Listing.SwitchTables
import LpcInspect.Proofs.Listing.WindowMoves
import LpcInspect.Proofs.Program.Ancestry
import LpcInspect.Proofs.Program.Consistency
import LpcInspect.Proofs.Program.Document
import LpcInspect.Proofs.Program.Resolution
import LpcInspect.Proofs.Program.SlotOwners
import LpcInspect.Proofs.Program.Variables
import LpcInspect.Proofs.Report
import LpcInspect.Proofs.Text.Hex
import LpcInspect.Proofs.Text.Lossy
import LpcInspect.Proofs.Text.Utf8
import LpcInspect.Report
import LpcInspect.Settings.Basic
import LpcInspect.Settings.File
import LpcInspect.Text.Blank
import LpcInspect.Text.Excerpt
import LpcInspect.Text.FixedPoint
import LpcInspect.Text.Hex
import LpcInspect.Text.Numeral
import LpcInspect.Text.Page
import LpcInspect.Text.Span
import LpcInspect.Text.Utf8
import LpcInspect.Toml.Basic
import LpcInspect.Toml.Parser
import LpcInspect.Toml.Scalar
