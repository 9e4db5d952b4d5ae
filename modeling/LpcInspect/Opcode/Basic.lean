import LpcInspect.Opcode.Encoding

/-!
# The standard instruction set

An opcode is one byte with a mnemonic and an operand layout. The byte zero is never an opcode.
-/

namespace LpcInspect

/-- An opcode byte with its mnemonic and the layout of its operand. -/
structure Opcode where
  byte : UInt8
  mnemonic : String
  encoding : Encoding
  deriving DecidableEq, Repr

namespace Opcode

/-- Push several values, each named by a tag. -/
def push : Opcode := ⟨0x05, "push", .push⟩

/-- Push a two-byte number. -/
def shortInt : Opcode := ⟨0x08, "short_int", .shortInt⟩

/-- Push an eight-byte number. -/
def number : Opcode := ⟨0x09, "number", .number⟩

/-- Push a floating-point number. -/
def real : Opcode := ⟨0x0a, "real", .real⟩

/-- Branch by a jump table. -/
def switch : Opcode := ⟨0x67, "switch", .switch⟩

/-- Call a function by its index. -/
def call : Opcode := ⟨0x70, "call_function_by_address", .callByAddress⟩

/-- Call a function of a named ancestor. -/
def callInherited : Opcode := ⟨0x71, "call_inherited", .callInherited⟩

/-- Every opcode of the standard set, in increasing order of its byte. -/
def all : List Opcode :=
  [⟨0x01, "pop", .bare⟩, ⟨0x02, "const0", .bare⟩, ⟨0x03, "const1", .bare⟩,
    ⟨0x04, "undefined", .bare⟩, push, ⟨0x06, "byte", .byte⟩, ⟨0x07, "nbyte", .negByte⟩, shortInt,
    number, real, ⟨0x0b, "string", .string⟩, ⟨0x0c, "short_string", .shortString⟩,
    ⟨0x0d, "aggregate", .count⟩, ⟨0x0e, "aggregate_assoc", .count⟩, ⟨0x10, "local", .localSlot⟩,
    ⟨0x11, "local_lvalue", .localSlot⟩, ⟨0x12, "transfer_local", .localSlot⟩,
    ⟨0x13, "void_assign_local", .localSlot⟩, ⟨0x14, "global", .globalSlot⟩,
    ⟨0x15, "global_lvalue", .globalSlot⟩, ⟨0x16, "ref", .localSlot⟩,
    ⟨0x17, "ref_lvalue", .localSlot⟩, ⟨0x18, "make_ref", .byte⟩, ⟨0x19, "kill_refs", .byte⟩,
    ⟨0x1a, "member", .byte⟩, ⟨0x1b, "member_lvalue", .byte⟩, ⟨0x1c, "index", .bare⟩,
    ⟨0x1d, "index_lvalue", .bare⟩, ⟨0x1e, "assign", .bare⟩, ⟨0x1f, "void_assign", .bare⟩,
    ⟨0x20, "add", .bare⟩, ⟨0x21, "subtract", .bare⟩, ⟨0x22, "multiply", .bare⟩,
    ⟨0x23, "divide", .bare⟩, ⟨0x24, "mod", .bare⟩, ⟨0x25, "negate", .bare⟩, ⟨0x26, "inc", .bare⟩,
    ⟨0x27, "dec", .bare⟩, ⟨0x28, "and", .bare⟩, ⟨0x29, "or", .bare⟩, ⟨0x2a, "xor", .bare⟩,
    ⟨0x2b, "lsh", .bare⟩, ⟨0x2c, "rsh", .bare⟩, ⟨0x2d, "compl", .bare⟩, ⟨0x2e, "not", .bare⟩,
    ⟨0x30, "eq", .bare⟩, ⟨0x31, "ne", .bare⟩, ⟨0x32, "lt", .bare⟩, ⟨0x33, "le", .bare⟩,
    ⟨0x34, "gt", .bare⟩, ⟨0x35, "ge", .bare⟩, ⟨0x40, "branch", .forwardBranch⟩,
    ⟨0x41, "branch_when_zero", .forwardBranch⟩, ⟨0x42, "branch_when_non_zero", .forwardBranch⟩,
    ⟨0x43, "branch_ne", .forwardBranch⟩, ⟨0x44, "branch_ge", .forwardBranch⟩,
    ⟨0x45, "branch_le", .forwardBranch⟩, ⟨0x46, "branch_eq", .forwardBranch⟩,
    ⟨0x47, "lor", .forwardBranch⟩, ⟨0x48, "land", .forwardBranch⟩,
    ⟨0x50, "bbranch", .backwardBranch⟩, ⟨0x51, "bbranch_when_zero", .backwardBranch⟩,
    ⟨0x52, "bbranch_when_non_zero", .backwardBranch⟩, ⟨0x53, "bbranch_lt", .backwardBranch⟩,
    ⟨0x54, "next_foreach", .backwardBranch⟩, ⟨0x55, "foreach", .foreach⟩,
    ⟨0x56, "exit_foreach", .bare⟩, ⟨0x57, "loop_incr", .localSlot⟩,
    ⟨0x58, "while_dec", .whileDec⟩, ⟨0x59, "loop_cond_number", .loopCondNumber⟩,
    ⟨0x5a, "loop_cond_local", .loopCondLocal⟩, ⟨0x60, "catch", .address⟩,
    ⟨0x61, "jump", .address⟩, ⟨0x62, "jump_when_zero", .address⟩,
    ⟨0x63, "jump_when_non_zero", .address⟩, ⟨0x64, "end_catch", .bare⟩, ⟨0x65, "return", .bare⟩,
    ⟨0x66, "return_zero", .bare⟩, switch, call, callInherited, ⟨0x72, "simul_efun", .simulEfun⟩,
    ⟨0x73, "function_constructor", .functionConstructor⟩, ⟨0x74, "efun0", .efun⟩,
    ⟨0x75, "efun1", .efun⟩, ⟨0x76, "efun2", .efun⟩, ⟨0x77, "efun3", .efun⟩,
    ⟨0x78, "efunv", .efunV⟩, ⟨0x79, "expand_varargs", .expandVarargs⟩, ⟨0x7a, "sscanf", .byte⟩,
    ⟨0x7b, "parse_command", .byte⟩, ⟨0x80, "new_class", .classRef⟩,
    ⟨0x81, "new_empty_class", .classRef⟩]

/-- The opcode with a byte. -/
def ofByte? (byte : UInt8) : Option Opcode := all.find? (·.byte == byte)

/-- An opcode is found by its byte, so no two share one. -/
theorem ofByte?_byte : ∀ op ∈ all, ofByte? op.byte = some op := by decide

/-- The byte zero is no opcode. -/
theorem ofByte?_zero : ofByte? 0 = none := by decide

end Opcode
end LpcInspect
