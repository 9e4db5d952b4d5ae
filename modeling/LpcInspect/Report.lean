import LpcInspect.LineTable.Decode
import LpcInspect.Listing.Cursor
import LpcInspect.Text.Page

/-!
# Reports

A report shows the tables of a program: its ancestors, its code in hexadecimal, its functions,
variables and strings. The listing of the whole program and its line table may follow.
-/

namespace LpcInspect

/-- The disassembler of a program that shows source lines, if the program has a line table. -/
def Disassembler.withLineTable (program : Program) (opcodes : OpcodeTable)
    (settings : DecoderSettings) : Disassembler :=
  match LineTable.decode program settings.lineAddressWidth with
  | .ok table => { program, opcodes, settings, locate? := table.locate? }
  | .error _ => { program, opcodes, settings }

namespace Report

/-- Seven columns for flags: `a` tells of the slot itself, and every other letter of the slot that
it stands for. -/
def flagColumns (slotFlags realFlags : UInt16) : String :=
  let column (flags flag : UInt16) (letter : Char) := if flags &&& flag != 0 then letter else '-'
  String.ofList [
    column realFlags FunctionFlag.inherited 'i',
    column realFlags FunctionFlag.undefined 'u',
    column realFlags FunctionFlag.strictTypes 's',
    column realFlags FunctionFlag.prototype 'p',
    column slotFlags FunctionFlag.aliased 'a',
    column realFlags FunctionFlag.trueVarargs 'V',
    column realFlags FunctionFlag.varargs 'v']

/-- The number of code bytes in a line. -/
def rowSize : Nat := 16

/-- The lines of the ancestors. -/
def inheritLines (p : Program) : List (List Span) :=
  [[.text "INHERITS:"], [.text "\tname                    fio    vio"],
    [.text "\t----------------        ---    ---"]] ++
    p.inherits.map fun link =>
      [.text ("\t" ++ padRight 20 link.program.filename ++ "  " ++
        padLeft 5 (toString link.functionOffset.toNat) ++ "  " ++
        padLeft 5 (toString link.variableOffset.toNat))]

/-- The line of the code bytes from an address on. -/
def codeLine (code : Array UInt8) (start : Nat) : List Span :=
  [.text ("\t" ++ addressNumeral start ++ ":" ++
    String.join ((code.extract start (start + rowSize)).toList.map fun b =>
      " " ++ hexNumeral 2 b.toNat))]

/-- The lines of the code. -/
def codeLines (p : Program) : List (List Span) :=
  [.text "PROGRAM:"] ::
    (List.range ((p.size + rowSize - 1) / rowSize)).map fun row => codeLine p.code (row * rowSize)

/-- The line of a function slot. The line of an inherited function gives the ancestor and the index
there; any other gives the local index, then the number of arguments and of local variables. -/
def functionLine (p : Program) (index : Nat) (slot : FunctionEntry) : List Span :=
  let runtime := slot.runtimeIndex index
  let entry := p.functions[runtime]?.getD slot
  let name := (p.functionName? index).getD slot.name
  let flags := flagColumns slot.flags entry.flags
  let start := padLeft 4 (toString index) ++ ": " ++ padRight 20 name ++ "  "
  if entry.isInherited then
    let (ancestor, inner) : Int × Int :=
      match (p.findInherit? runtime).bind fun k => (p.inherits[k]?).map fun link => (k, link) with
      | some (k, link) => (k, runtime - link.functionOffset.toNat)
      | none => (-1, runtime)
    [.text (start ++ padLeft 5 (toString ancestor) ++ "  " ++ padLeft 7 flags ++ " " ++
      padLeft 5 (toString inner))]
  else
    let localIndex : Int := runtime - p.lastInherited.toNat
    let definition := ((p.resolve? index).map Prod.snd).getD entry
    [.text (start ++ padLeft 5 (toString localIndex) ++ "  " ++ padLeft 7 flags ++ "      " ++
      padLeft 7 (toString definition.argCount.toNat) ++ "   " ++
      padLeft 5 (toString definition.localCount.toNat))]

/-- The lines of the functions. -/
def functionLines (p : Program) : List (List Span) :=
  [[.text "FUNCTIONS:"],
    [.text "      name                  offset  flags  fio  # locals  # args"],
    [.text "      --------------------- ------ ------- ---  --------  ------"]] ++
    p.functions.zipIdx.map fun (slot, index) => functionLine p index slot

/-- The lines of the variables. -/
def variableLines (p : Program) : List (List Span) :=
  [.text "VARIABLES:"] :: p.globals.zipIdx.map fun (name, index) =>
    [.text (padLeft 4 (toString index) ++ ": " ++ padRight 12 name)]

/-- The lines of the strings. -/
def stringLines (p : Program) : List (List Span) :=
  [.text "STRINGS:"] :: p.strings.zipIdx.map fun (value, index) =>
    [.text (padLeft 4 (toString index) ++ ": "), .excerpt (.listing value)]

/-- The listing of the whole program. -/
def listingLines (d : Disassembler) : List (List Span) :=
  [[], [.text ";;;  *** Disassembly ***"]] ++ d.decodeAll.map Record.spans

/-- The line table, or why there is none. -/
def lineNumberLines (p : Program) (width : Nat) : List (List Span) :=
  [[], [.text ";;;  *** Line Number Info ***"]] ++
    match LineTable.decode p width with
    | .ok table => table.lines
    | .error .missing => [[.text LineInfoError.missing.message]]
    | .error e => [[.text (LineInfoError.missing.message ++ ": " ++ e.message)]]

/-- The lines of a report. -/
def lines (p : Program) (opcodes : OpcodeTable) (settings : DecoderSettings)
    (options : ReportOptions) : List (List Span) :=
  [.text ("NAME: /" ++ p.filename)] :: (inheritLines p ++ codeLines p ++ functionLines p ++
    variableLines p ++ stringLines p ++
    (if options.disassemble then listingLines (.withLineTable p opcodes settings) else []) ++
    (if options.lineNumbers then lineNumberLines p settings.lineAddressWidth else []))

end Report
end LpcInspect
