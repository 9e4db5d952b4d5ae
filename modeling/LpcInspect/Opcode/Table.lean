import LpcInspect.Opcode.Basic

/-!
# Opcode tables

A listing takes the names and layouts of opcodes, and the names of built-in functions, from a table
that the caller supplies. The standard table carries the standard instruction set.
-/

namespace LpcInspect

/-- What a listing asks about opcodes and built-in functions. -/
structure OpcodeTable where
  /-- The mnemonic of an opcode byte. -/
  mnemonic? : UInt8 → Option String
  /-- The layout of the operand after an opcode byte. -/
  encoding? : UInt8 → Option Encoding
  /-- The name of a built-in function. -/
  efunName? : UInt16 → Option String
  /-- The name of a simulated built-in function. -/
  simulEfunName? : UInt16 → Option String
  /-- How many simulated built-in functions there are. -/
  simulEfunCount : Nat

namespace OpcodeTable

/-- The standard instruction set with the given names of built-in functions. -/
def standard (efuns simulEfuns : List String := []) : OpcodeTable where
  mnemonic? byte := (Opcode.ofByte? byte).map (·.mnemonic)
  encoding? byte := (Opcode.ofByte? byte).map (·.encoding)
  efunName? index := efuns[index.toNat]?
  simulEfunName? index := simulEfuns[index.toNat]?
  simulEfunCount := simulEfuns.length

/-- The table that answers for one byte as given, and otherwise as before. -/
def override (t : OpcodeTable) (byte : UInt8) (mnemonic? : Option String)
    (encoding? : Option Encoding) : OpcodeTable :=
  { t with
    mnemonic? := fun b => if b = byte then mnemonic? else t.mnemonic? b
    encoding? := fun b => if b = byte then encoding? else t.encoding? b }

end OpcodeTable
end LpcInspect
