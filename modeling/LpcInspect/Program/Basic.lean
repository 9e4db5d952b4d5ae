import LpcInspect.Bytes.Basic
import LpcInspect.Program.Function

/-!
# Compiled programs

A program is its code with the tables that the code refers to. It holds its ancestors, so a program
is a tree of programs. Its function table has the slots of all ancestors first and its own
functions after them.
-/

namespace LpcInspect

/-- A class, named by a string of the program. -/
structure ClassDef where
  name : UInt16
  deriving DecidableEq, Repr

/-- A link to an ancestor, with the first function slot and the first variable it owns. -/
structure Inherit (α : Type) where
  program : α
  functionOffset : UInt16
  variableOffset : UInt16
  deriving DecidableEq, Repr

/-- A compiled program. -/
structure Program where
  filename : String := ""
  /-- The instructions. -/
  code : Array UInt8 := #[]
  /-- The ancestors, in the order of their function offsets. -/
  inherits : List (Inherit Program) := []
  /-- The function table: slots of the ancestors, then the program's own functions. -/
  functions : List FunctionEntry := []
  /-- The number of slots that belong to ancestors. -/
  lastInherited : UInt16 := 0
  /-- The names of the program's own variables. -/
  globals : List String := []
  strings : List Bytes := []
  classes : List ClassDef := []
  /-- The compact table of line numbers. -/
  lineInfo : Option (Array UInt8) := none

namespace Program

/-- The number of bytes of code. -/
def size (p : Program) : Nat := p.code.size

/-- The number of functions that the program defines itself. -/
def definedCount (p : Program) : Nat := p.functions.length - p.lastInherited.toNat

/-- The number of function indices. -/
def functionCount (p : Program) : Nat := p.lastInherited.toNat + p.definedCount

/-- A function of the program itself, by its local index. -/
def localFunction? (p : Program) (index : Nat) : Option FunctionEntry :=
  p.functions[p.lastInherited.toNat + index]?

/-- A string of the program. -/
def string? (p : Program) (index : Nat) : Option Bytes := p.strings[index]?

/-- The name of a class. -/
def className? (p : Program) (index : Nat) : Option Bytes :=
  p.classes[index]?.bind fun c => p.string? c.name.toNat

end Program
end LpcInspect
