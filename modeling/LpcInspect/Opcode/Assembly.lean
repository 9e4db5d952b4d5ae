import LpcInspect.Bytes.Writer
import LpcInspect.Opcode.Basic

/-!
# Assembling instructions

Instructions are emitted through a `Writer`. A `Writer.Step` is one call, and `Writer.step?` says
what it gives and leaves; only a patch outside of the buffer is refused.
-/

namespace LpcInspect.Writer

/-- Emit an opcode. -/
def opcode (w : Writer) (op : Opcode) : Writer := w.uint8 op.byte

/-- Emit an opcode and a one-byte operand. -/
def withUInt8 (w : Writer) (op : Opcode) (operand : UInt8) : Writer :=
  (w.opcode op).uint8 operand

/-- Emit an opcode and a two-byte operand. -/
def withUInt16 (w : Writer) (op : Opcode) (operand : UInt16) : Writer :=
  (w.opcode op).uint16 operand

/-- Emit a push of tags. The byte for their number wraps around. -/
def push (w : Writer) (tags : Bytes) : Writer :=
  (w.withUInt8 .push (UInt8.ofNat tags.length)).bytes tags

/-- Emit an eight-byte number. -/
def number (w : Writer) (value : Int64) : Writer := (w.opcode .number).scalar (.int64 value)

/-- Emit a floating-point number by its bits. -/
def real (w : Writer) (bits : UInt64) : Writer := (w.opcode .real).scalar (.float64 bits)

/-- Emit a two-byte number. -/
def shortInt (w : Writer) (value : Int16) : Writer := (w.opcode .shortInt).scalar (.int16 value)

/-- Emit a call of a function by its index. Two bytes after the number of arguments are unused. -/
def call (w : Writer) (function : UInt16) (args : UInt8) : Writer :=
  ((w.withUInt16 .call function).uint8 args).uint16 0

/-- Emit a call of a function of an ancestor. -/
def callInherited (w : Writer) (link : UInt8) (function : UInt16) (args : UInt8) : Writer :=
  (((w.withUInt8 .callInherited link).uint16 function).uint8 args).uint16 0

/-- The operand of a switch, whose offsets count from its own first byte. -/
structure SwitchFields where
  tableType : UInt8
  tableStart : UInt16
  tableEnd : UInt16
  fallback : UInt16
  deriving DecidableEq, Repr

/-- Emit the opcode and the header of a switch, and give the offset of the header. -/
def switch (w : Writer) (fields : SwitchFields) : Nat × Writer :=
  let w := w.opcode .switch
  (w.offset, (((w.uint8 fields.tableType).uint16 fields.tableStart).uint16 fields.tableEnd).uint16
    fields.fallback)

/-- One call of a writer. -/
inductive Step where
  | scalar (value : Scalar)
  | opcode (op : Opcode)
  | withUInt8 (op : Opcode) (operand : UInt8)
  | withUInt16 (op : Opcode) (operand : UInt16)
  | push (tags : Bytes)
  | number (value : Int64)
  | real (bits : UInt64)
  | shortInt (value : Int16)
  | call (function : UInt16) (args : UInt8)
  | callInherited (link : UInt8) (function : UInt16) (args : UInt8)
  | switch (fields : SwitchFields)
  | patch (offset : Nat) (value : UInt16)
  | reserve
  deriving DecidableEq, Repr

/-- The offset of the next field, beside the writer. -/
def withOffset (w : Writer) : Nat × Writer := (w.offset, w)

/-- What a call gives and leaves: a switch and a reservation give the offset of their field, every
other call the offset of the next field. -/
def step? (w : Writer) : Step → Option (Nat × Writer)
  | .scalar value => some (w.scalar value).withOffset
  | .opcode op => some (w.opcode op).withOffset
  | .withUInt8 op operand => some (w.withUInt8 op operand).withOffset
  | .withUInt16 op operand => some (w.withUInt16 op operand).withOffset
  | .push tags => some (w.push tags).withOffset
  | .number value => some (w.number value).withOffset
  | .real bits => some (w.real bits).withOffset
  | .shortInt value => some (w.shortInt value).withOffset
  | .call function args => some (w.call function args).withOffset
  | .callInherited link function args => some (w.callInherited link function args).withOffset
  | .switch fields => some (w.switch fields)
  | .patch offset value => (w.patch? offset value).map withOffset
  | .reserve => some w.reserve

/-- The writer after a call; a refused one changes nothing. -/
def after (w : Writer) (s : Step) : Writer := ((w.step? s).map Prod.snd).getD w

end LpcInspect.Writer
