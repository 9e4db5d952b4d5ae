import LpcInspect.CommandLine.Arguments
import LpcInspect.CommandLine.FileSystem
import LpcInspect.Program.Document
import LpcInspect.Report
import LpcInspect.Settings.File

/-!
# What a command gives

A command reads its files and gives the bytes that are to be written, or the reason why there are
none. The settings file is read before the program.
-/

namespace LpcInspect

/-- Why a command gives nothing: a message, and what it comes from. -/
structure Failure where
  message : String
  causes : List String := []
  deriving DecidableEq, Repr

/-- The bytes that a command gives, what they are called, and the file for them if they are not
printed. -/
structure Output where
  content : Bytes
  title : String
  destination : Option String := none
  deriving DecidableEq, Repr

/-- The contents of the files that a command reads, or why one cannot be read. -/
abbrev FileReader := String → Except FileError Bytes

namespace Failure

/-- A settings file that cannot be used. -/
def ofSettings : SettingsFileError → Failure
  | .malformed => ⟨SettingsFileError.malformed.message, []⟩
  | .decoder error => ⟨(SettingsFileError.decoder error).message, [error.message]⟩

/-- A program document that cannot be used. -/
def ofLoad (path : String) : LoadError → Failure
  | .malformed => ⟨"Failed to load program " ++ path, [LoadError.malformed.message]⟩
  | .invalid fault =>
    ⟨"Failed to load program " ++ path,
      (LoadError.invalid fault).message :: fault.chain.map Fault.message⟩

/-- A program without a line table. -/
def ofLineInfo (path : String) : LineInfoError → Failure
  | .truncated error =>
    ⟨"No line table in " ++ path, [(LineInfoError.truncated error).message, error.message]⟩
  | error => ⟨"No line table in " ++ path, [error.message]⟩

/-- A program with a fault. -/
def ofFault (filename : String) (fault : Fault) : Failure :=
  ⟨filename ++ " failed verification", fault.chain.map Fault.message⟩

/-- A file that cannot be created. -/
def ofCreate (path : String) (error : FileError) : Failure :=
  ⟨"Failed to create " ++ path, [error.message]⟩

/-- Bytes that cannot be written. -/
def ofWrite (title : String) (error : FileError) : Failure :=
  ⟨"Failed to write " ++ title, [error.message]⟩

end Failure

/-- The text of a file. -/
def readText (files : FileReader) (path : String) : Except FileError String := do
  match Utf8.decode? (← files path) with
  | some text => return text
  | none => throw .notText

/-- The settings to use. -/
def loadSettings (files : FileReader) : Option String → Except Failure Settings
  | none => .ok {}
  | some path =>
    match readText files path with
    | .error error => .error ⟨"Failed to read config file: " ++ error.message, [error.message]⟩
    | .ok text =>
      match Settings.parse text with
      | .error error => .error (.ofSettings error)
      | .ok settings => .ok settings

/-- The text of a program document. -/
def readDocument (files : FileReader) (path : String) : Except Failure String :=
  match readText files path with
  | .error error => .error ⟨"Failed to read " ++ path, [error.message]⟩
  | .ok text => .ok text

/-- A consistent program from its document. -/
def loadProgram (files : FileReader) (path : String) : Except Failure Program := do
  let text ← readDocument files path
  match Program.load text with
  | .error error => throw (.ofLoad path error)
  | .ok program => return program

namespace Command

/-- The listing of a window, from the first address and up to the end of the code if not given. -/
def listing (settings : Settings) (program : Program) (start stop : Option Nat) :
    Except Failure Bytes :=
  let start := start.getD 0
  let stop := stop.getD program.size
  if stop < start then
    .error ⟨"start " ++ prefixedAddress start ++ " is past end " ++ prefixedAddress stop, []⟩
  else
    let d := Disassembler.withLineTable program settings.names.table settings.decoder
    .ok (Page.raw ((d.decode start stop).map Record.spans))

/-- What is said about a consistent program. -/
def summary (p : Program) : String :=
  p.filename ++ ": ok (" ++ toString p.size ++ " bytes of code, " ++ toString p.functions.length ++
    " functions, " ++ toString p.inherits.length ++ " inherits)\n"

/-- What a command gives. -/
def output (files : FileReader) (settings : Settings) : Command → Except Failure Output
  | .dump file withListing withLines destination => do
    let program ← loadProgram files file
    let options : ReportOptions := {
      disassemble := settings.report.disassemble || withListing
      lineNumbers := settings.report.lineNumbers || withLines }
    let page := Report.lines program settings.names.table settings.decoder options
    return { content := Page.raw page, title := "dump", destination }
  | .disasm file start stop destination => do
    let program ← loadProgram files file
    let content ← listing settings program start stop
    return { content, title := "listing", destination }
  | .lines file => do
    let program ← loadProgram files file
    match LineTable.decode program settings.decoder.lineAddressWidth with
    | .error error => throw (.ofLineInfo file error)
    | .ok table => return { content := Page.raw table.lines, title := "line table" }
  | .verify file => do
    let text ← readDocument files file
    match Program.parse? text with
    | none => throw ⟨file ++ " is not a program document", []⟩
    | some program =>
      match program.fault? with
      | some fault => throw (.ofFault program.filename fault)
      | none => return { content := Utf8.encode (summary program), title := "summary" }

end Command

namespace Request

/-- The name and version of the program. -/
def versionText : String := "lpcdump 0.2.0\n"

/-- The help text. -/
def helpText : String :=
  "Dump and disassemble compiled LPC programs\n\n" ++
  "Usage: lpcdump [OPTIONS] <COMMAND>\n\n" ++
  "Commands:\n" ++
  "  dump    Print symbol tables, optionally with disassembly and line numbers\n" ++
  "  disasm  Disassemble an address range\n" ++
  "  lines   Print the decoded line-number tables\n" ++
  "  verify  Check a program document for structural errors\n\n" ++
  "Options:\n" ++
  "  -c, --config <CONFIG>  Configuration file (TOML)\n" ++
  "  -h, --help             Print help\n" ++
  "  -V, --version          Print version\n"

/-- What a request gives. -/
def output (files : FileReader) : Request → Except Failure Output
  | .help => .ok { content := Utf8.encode helpText, title := "help" }
  | .version => .ok { content := Utf8.encode versionText, title := "version" }
  | .run config command => do
    let settings ← loadSettings files config
    command.output files settings

/-- The files that a request reads. -/
def files : Request → List String
  | .help | .version => []
  | .run config command => config.toList ++ [command.file]

end Request
end LpcInspect
