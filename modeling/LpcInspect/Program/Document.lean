import LpcInspect.Json.Parser
import LpcInspect.Json.Printer
import LpcInspect.Json.Record
import LpcInspect.Program.Fault
import LpcInspect.Text.Blank
import LpcInspect.Text.Hex
import LpcInspect.Text.Utf8

/-!
# Program documents

A program is stored as a JSON document. Code and line table are hexadecimal text, a string is a text
if it is UTF-8 and otherwise a list of its bytes, and each link holds the whole document of an
ancestor.
-/

namespace LpcInspect

/-- The number of arrays and objects that a document may nest. -/
def documentNesting : Nat := 127

/-- Bytes in hexadecimal, with white space around them. -/
def Json.hexBytes? (value : Json) : Option (Array UInt8) :=
  value.text?.bind fun text => (Hex.decode? (trimBlanks text)).map List.toArray

/-- A stored string: a text or the list of its bytes. -/
def Json.byteString? (nesting : Nat) : Json → Option Bytes
  | .string text => text.map Utf8.encode
  | value => value.list? nesting Json.uint8?

/-- Bytes as a stored string. -/
def Json.ofByteString (bytes : Bytes) : Json :=
  match Utf8.decode? bytes with
  | some text => .text text
  | none => .array (bytes.map fun b => .natural b.toNat)

namespace FunctionEntry

/-- Read a function slot; all fields may be missing. -/
def ofJson? (nesting : Nat) (value : Json) : Option FunctionEntry := do
  let [name, flags, argCount, localCount, address, aliasOf] ← value.fields? nesting
      ["name", "flags", "num_args", "num_locals", "address", "alias_of"] | none
  return {
    name := ← Json.optional "" Json.text? name
    flags := ← Json.optional 0 Json.uint16? flags
    argCount := ← Json.optional 0 Json.uint8? argCount
    localCount := ← Json.optional 0 Json.uint8? localCount
    address := ← Json.optional 0 Json.uint16? address
    aliasOf := ← Json.optional none (Json.nullable Json.uint16?) aliasOf }

/-- A function slot as a value with all fields. -/
def toJson (f : FunctionEntry) : Json := .record [
  ("name", .text f.name),
  ("flags", .natural f.flags.toNat),
  ("num_args", .natural f.argCount.toNat),
  ("num_locals", .natural f.localCount.toNat),
  ("address", .natural f.address.toNat),
  ("alias_of", match f.aliasOf with
    | some target => .natural target.toNat
    | none => .null)]

end FunctionEntry

namespace ClassDef

/-- Read a class. -/
def ofJson? (nesting : Nat) (value : Json) : Option ClassDef := do
  let [name] ← value.fields? nesting ["name"] | none
  return { name := ← Json.required Json.uint16? name }

/-- A class as a value. -/
def toJson (c : ClassDef) : Json := .record [("name", .natural c.name.toNat)]

end ClassDef

namespace Inherit

/-- Read a link, given how to read the ancestor. -/
def ofJson? {α : Type} (nesting : Nat) (ancestor? : Json → Option α) (value : Json) :
    Option (Inherit α) := do
  let [program, functionOffset, variableOffset] ← value.fields? nesting
      ["program", "function_index_offset", "variable_index_offset"] | none
  return {
    program := ← Json.required ancestor? program
    functionOffset := ← Json.required Json.uint16? functionOffset
    variableOffset := ← Json.required Json.uint16? variableOffset }

end Inherit

namespace Program

/-- The names of the fields of a program, in order. -/
def fieldNames : List String :=
  ["filename", "byte_code", "inherits", "functions", "last_inherited", "variables", "strings",
    "classes", "line_info"]

/-- Read a program, given how to read an ancestor; all fields may be missing. -/
def ofJsonWith? (nesting : Nat) (ancestor? : Json → Option Program) (value : Json) :
    Option Program := do
  let [filename, code, inherits, functions, lastInherited, globals, strings, classes, lineInfo] ←
      value.fields? nesting fieldNames | none
  let link? := Inherit.ofJson? (nesting - 2) ancestor?
  return {
    filename := ← Json.optional "" Json.text? filename
    code := ← Json.optional #[] Json.hexBytes? code
    inherits := ← Json.optional [] (Json.list? (nesting - 1) link?) inherits
    functions := ←
      Json.optional [] (Json.list? (nesting - 1) (FunctionEntry.ofJson? (nesting - 2))) functions
    lastInherited := ← Json.optional 0 Json.uint16? lastInherited
    globals := ← Json.optional [] (Json.list? (nesting - 1) Json.text?) globals
    strings :=
      ← Json.optional [] (Json.list? (nesting - 1) (Json.byteString? (nesting - 2))) strings
    classes := ←
      Json.optional [] (Json.list? (nesting - 1) (ClassDef.ofJson? (nesting - 2))) classes
    lineInfo := ← Json.optional none (Json.nullable Json.hexBytes?) lineInfo }

/-- Read a program that may enter `nesting` arrays and objects. An ancestor lies three deeper: in
the list of links, in its link, and in its own object. -/
def ofJson? : Nat → Json → Option Program
  | nesting + 3, value => ofJsonWith? (nesting + 3) (ofJson? nesting) value
  | nesting, value => ofJsonWith? nesting (fun _ => none) value

/-- Read a program document. -/
def parse? (text : String) : Option Program := (Json.parse? text).bind (ofJson? documentNesting)

mutual

/-- A program as a value with all fields. -/
def toJson : Program → Json
  | ⟨filename, code, inherits, functions, lastInherited, globals, strings, classes, lineInfo⟩ =>
    .record [
      ("filename", .text filename),
      ("byte_code", .text (Hex.encode code.toList)),
      ("inherits", .array (linksToJson inherits)),
      ("functions", .array (functions.map FunctionEntry.toJson)),
      ("last_inherited", .natural lastInherited.toNat),
      ("variables", .array (globals.map Json.text)),
      ("strings", .array (strings.map Json.ofByteString)),
      ("classes", .array (classes.map ClassDef.toJson)),
      ("line_info", match lineInfo with
        | some bytes => .text (Hex.encode bytes.toList)
        | none => .null)]

/-- The links of a program as values. -/
def linksToJson : List (Inherit Program) → List Json
  | [] => []
  | ⟨program, functionOffset, variableOffset⟩ :: rest =>
    .record [
      ("program", toJson program),
      ("function_index_offset", .natural functionOffset.toNat),
      ("variable_index_offset", .natural variableOffset.toNat)] :: linksToJson rest

end

/-- The document of a program. -/
def document (p : Program) : String := p.toJson.pretty

end Program

/-- Why a document gives no program. -/
inductive LoadError where
  /-- It is not the document of a program. -/
  | malformed
  /-- The program is not consistent. -/
  | invalid (fault : Fault)
  deriving DecidableEq, Repr

/-- The text of a load error. -/
def LoadError.message : LoadError → String
  | .malformed => "Invalid program document"
  | .invalid fault => "Invalid program: " ++ fault.message

/-- Accept a program that is consistent. -/
def Program.verified (p : Program) : Except LoadError Program :=
  match p.fault? with
  | none => .ok p
  | some fault => .error (.invalid fault)

/-- Read a document and check the program in it. -/
def Program.load (text : String) : Except LoadError Program :=
  match Program.parse? text with
  | none => .error .malformed
  | some p => p.verified

end LpcInspect
