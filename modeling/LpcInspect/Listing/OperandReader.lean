import LpcInspect.Bytes.Reader
import LpcInspect.Listing.Operand
import LpcInspect.Opcode.Table
import LpcInspect.Program.Resolve

/-!
# Reading operands

`Operand.read` reads the operand of each layout but that of a switch, and looks up the names it
refers to. Branch targets are sixteen bits wide and wrap around.
-/

namespace LpcInspect

namespace FunctionKind

/-- The kind of a function value that names a function of the program. -/
def localFunction : UInt8 := 2

/-- The kind of a function value that names a simulated built-in. -/
def simulEfun : UInt8 := 3

/-- The kind of a function value that names a built-in. -/
def efun : UInt8 := 4

/-- The kind of a function value with an expression. -/
def functional : UInt8 := 5

/-- The kind of a function value with a body. -/
def anonymous : UInt8 := 6

/-- The kind in the four low bits of a byte. -/
def ofByte (b : UInt8) : UInt8 := b &&& 0x0f

end FunctionKind

/-- Read a function value. -/
def FunctionValue.read (p : Program) (opcodes : OpcodeTable) : Decode FunctionValue := do
  let kind ← Reader.uint8
  if FunctionKind.ofByte kind = FunctionKind.localFunction then
    let index ← Reader.uint16
    return .localFunction index (p.callee? index.toNat)
  else if FunctionKind.ofByte kind = FunctionKind.simulEfun then
    let index ← Reader.uint16
    return .simulEfun index (opcodes.simulEfunName? index)
  else if FunctionKind.ofByte kind = FunctionKind.efun then
    let index ← Reader.uint16
    return .efun index (opcodes.efunName? index)
  else if FunctionKind.ofByte kind = FunctionKind.functional then
    let args ← Reader.uint8
    Reader.skip 2
    return .functional args
  else if FunctionKind.ofByte kind = FunctionKind.anonymous then
    let start ← Reader.offset
    let args ← Reader.uint8
    let locals ← Reader.uint8
    let length ← Reader.uint16
    return .anonymous args locals (start + 3 + length.toNat)
  else return .unknown kind

namespace InheritedCallee

/-- The function that a call into the ancestor at a position names. -/
def ofIndex (p : Program) (ancestor : UInt8) (index : UInt16) : InheritedCallee :=
  match p.inherits[ancestor.toNat]? with
  | none => .noInherit
  | some link =>
    match link.program.callee? index.toNat with
    | some name => .found link.program.filename name
    | none => .outOfRange link.program.filename

end InheritedCallee

namespace Operand

/-- A position as a branch counts it. -/
def wrap (position : Nat) : UInt16 := UInt16.ofNat position

/-- Read the end of a loop condition: a distance back from where it stands. -/
def readLoopCond (slot : UInt8) (bound : LoopBound) : Decode Operand := do
  let base ← Reader.offset
  let offset ← Reader.uint16
  return .loopCond slot bound offset (wrap base - offset)

/-- Read the operand of a layout; that of a switch is not read here. -/
def read (p : Program) (opcodes : OpcodeTable) : Encoding → Decode Operand
  | .bare | .switch => return .bare
  | .push => do
    let count ← Reader.uint8
    let tags ← Reader.uint8s count.toNat
    return .push (tags.map PushSlot.ofTag)
  | .forwardBranch => do
    let offset ← Reader.uint16
    let after ← Reader.offset
    return .branch offset (wrap after + offset)
  | .backwardBranch => do
    let offset ← Reader.uint16
    let after ← Reader.offset
    return .branch offset (wrap after - offset)
  | .address => do return .address (← Reader.uint16)
  | .count => do return .count (← Reader.uint16)
  | .byte => do return .byte (← Reader.uint8)
  | .negByte => do return .negByte (← Reader.uint8)
  | .localSlot => do return .localSlot (← Reader.uint8)
  | .globalSlot => do
    let index ← Reader.uint8
    let name? := if index.toNat < p.variableCount then p.variableName? index.toNat else none
    return .globalSlot index name?
  | .foreach => do
    let flags ← Reader.uint8
    let left ← Reader.uint8
    if ForeachFlag.isSet flags ForeachFlag.mapping then
      let right ← Reader.uint8
      return .foreach flags left (some right)
    else return .foreach flags left none
  | .whileDec => do
    let base ← Reader.offset
    let slot ← Reader.uint8
    let offset ← Reader.uint16
    return .whileDec slot offset (wrap base - offset)
  | .loopCondNumber => do
    let slot ← Reader.uint8
    let bound ← Reader.int32
    readLoopCond slot (.number bound)
  | .loopCondLocal => do
    let slot ← Reader.uint8
    let bound ← Reader.uint8
    readLoopCond slot (.localSlot bound)
  | .callByAddress => do
    let index ← Reader.uint16
    Reader.skip 3
    return .call index (p.callee? index.toNat)
  | .callInherited => do
    let ancestor ← Reader.uint8
    let index ← Reader.uint16
    Reader.skip 3
    return .callInherited ancestor index (.ofIndex p ancestor index)
  | .simulEfun => do
    let index ← Reader.uint16
    let args ← Reader.uint8
    let name? := if index.toNat < opcodes.simulEfunCount then opcodes.simulEfunName? index else none
    return .simulEfun index args name?
  | .functionConstructor => do return .function (← FunctionValue.read p opcodes)
  | .efun => do return .efun (← Reader.uint16)
  | .efunV => do
    let index ← Reader.uint16
    let args ← Reader.uint8
    return .efunV index args
  | .expandVarargs => do return .expandVarargs (← Reader.uint8)
  | .classRef => do
    let index ← Reader.uint8
    return .classRef index (p.className? index.toNat)
  | .shortInt => do return .shortInt (← Reader.int16)
  | .number => do return .number (← Reader.int64)
  | .real => do return .real (← Reader.uint64)
  | .string => do
    let index ← Reader.uint16
    return .string index (p.string? index.toNat)
  | .shortString => do
    let index ← Reader.uint8
    return .string index.toUInt16 (p.string? index.toNat)

end Operand
end LpcInspect
