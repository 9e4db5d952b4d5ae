/-!
# Operand layouts

The bytes after an opcode are laid out in one of twenty-eight ways.
-/

namespace LpcInspect

/-- The layout of the operand that follows an opcode. -/
inductive Encoding where
  /-- No operand. -/
  | bare
  /-- A count, then as many tags. -/
  | push
  /-- A two-byte distance forward from the end of the operand. -/
  | forwardBranch
  /-- A two-byte distance back from the end of the operand. -/
  | backwardBranch
  /-- A two-byte address. -/
  | address
  /-- A two-byte element count. -/
  | count
  /-- A one-byte number. -/
  | byte
  /-- The one-byte magnitude of a negative number. -/
  | negByte
  /-- A local variable slot. -/
  | localSlot
  /-- A global variable index. -/
  | globalSlot
  /-- Flags, then one slot, or two for a mapping. -/
  | foreach
  /-- A slot, then a two-byte distance back from the start of the operand. -/
  | whileDec
  /-- A slot, a four-byte bound, then a two-byte distance back. -/
  | loopCondNumber
  /-- Two slots, then a two-byte distance back. -/
  | loopCondLocal
  /-- A two-byte function index and three bytes that are not shown. -/
  | callByAddress
  /-- An ancestor, a two-byte function index and three bytes that are not shown. -/
  | callInherited
  /-- A two-byte index of a simulated built-in, then an argument count. -/
  | simulEfun
  /-- The kind of a function value, then what that kind needs. -/
  | functionConstructor
  /-- A two-byte index of a built-in. -/
  | efun
  /-- A two-byte index of a built-in, then an argument count. -/
  | efunV
  /-- A depth below the top of the stack. -/
  | expandVarargs
  /-- A class index. -/
  | classRef
  /-- A signed two-byte number. -/
  | shortInt
  /-- A signed eight-byte number. -/
  | number
  /-- An eight-byte floating-point number. -/
  | real
  /-- A two-byte string index. -/
  | string
  /-- A one-byte string index. -/
  | shortString
  /-- The header of a switch, followed by its body and its jump table. -/
  | switch
  deriving DecidableEq, Repr

namespace Encoding

/-- Every layout. -/
def all : List Encoding :=
  [.bare, .push, .forwardBranch, .backwardBranch, .address, .count, .byte, .negByte, .localSlot,
    .globalSlot, .foreach, .whileDec, .loopCondNumber, .loopCondLocal, .callByAddress,
    .callInherited, .simulEfun, .functionConstructor, .efun, .efunV, .expandVarargs, .classRef,
    .shortInt, .number, .real, .string, .shortString, .switch]

/-- The name of a layout. -/
def name : Encoding → String
  | .bare => "bare"
  | .push => "push"
  | .forwardBranch => "forward_branch"
  | .backwardBranch => "backward_branch"
  | .address => "address"
  | .count => "count"
  | .byte => "byte"
  | .negByte => "neg_byte"
  | .localSlot => "local"
  | .globalSlot => "global"
  | .foreach => "foreach"
  | .whileDec => "while_dec"
  | .loopCondNumber => "loop_cond_number"
  | .loopCondLocal => "loop_cond_local"
  | .callByAddress => "call_by_address"
  | .callInherited => "call_inherited"
  | .simulEfun => "simul_efun"
  | .functionConstructor => "function_constructor"
  | .efun => "efun"
  | .efunV => "efun_v"
  | .expandVarargs => "expand_varargs"
  | .classRef => "class"
  | .shortInt => "short_int"
  | .number => "number"
  | .real => "real"
  | .string => "string"
  | .shortString => "short_string"
  | .switch => "switch"

/-- The layout with a name. -/
def ofName? (text : String) : Option Encoding := all.find? (·.name == text)

/-- A layout is found by its name. -/
@[simp] theorem ofName?_name (e : Encoding) : ofName? e.name = some e := by
  cases e <;> decide +kernel

end Encoding
end LpcInspect
