import LpcInspect.Opcode.Assembly
import LpcInspect.Proofs.Listing.OperandFields
import LpcInspect.Listing.SwitchTable

/-!
# Trees of code

A `CodeTree` is a sequence of instructions in which a switch has a tree as its body, with the values
of all fields. `CodeTree.emit` sends it through a `Writer` instruction by instruction. The offsets
of a switch table are not known when the header is written, so they are patched when the body and
the table are there. `CodeTree.emit_eq` says that no patch is refused and that the result is
`CodeTree.bytes`, the bytes of the tree with every offset in its place. `CodeTree.records` is what a
listing of the tree should show.
-/

namespace LpcInspect

namespace Writer

theorem bytes_bytes (w : Writer) (bs more : Bytes) :
    (w.bytes bs).bytes more = w.bytes (bs ++ more) := by
  simp [bytes]

theorem bytes_nil (w : Writer) : w.bytes [] = w := by
  simp [bytes]

theorem uint8_eq_bytes (w : Writer) (x : UInt8) : w.uint8 x = w.bytes [x] := by
  simp [uint8, scalar, Scalar.encode, Scalar.kind, ScalarKind.width, Scalar.toBits]

theorem uint16_eq_bytes (w : Writer) (x : UInt16) : w.uint16 x = w.bytes (Scalar.uint16 x).encode :=
  rfl

theorem scalar_eq_bytes (w : Writer) (s : Scalar) : w.scalar s = w.bytes s.encode := rfl

theorem opcode_eq_bytes (w : Writer) (op : Opcode) : w.opcode op = w.bytes [op.byte] :=
  w.uint8_eq_bytes op.byte

theorem withUInt8_eq_bytes (w : Writer) (op : Opcode) (x : UInt8) :
    w.withUInt8 op x = w.bytes ([op.byte] ++ [x]) := by
  rw [withUInt8, opcode_eq_bytes, uint8_eq_bytes, bytes_bytes]

theorem withUInt16_eq_bytes (w : Writer) (op : Opcode) (x : UInt16) :
    w.withUInt16 op x = w.bytes ([op.byte] ++ (Scalar.uint16 x).encode) := by
  rw [withUInt16, opcode_eq_bytes, uint16_eq_bytes, bytes_bytes]

/-- A patch replaces the two bytes of its field and keeps all others. -/
theorem patch?_bytes (w : Writer) (before hole after : Bytes) (hhole : hole.length = 2)
    (value : UInt16) :
    (w.bytes (before ++ hole ++ after)).patch? (w.offset + before.length) value =
      some (w.bytes (before ++ (Scalar.uint16 value).encode ++ after)) := by
  obtain ⟨a, b, rfl⟩ : ∃ a b, hole = [a, b] := by
    match hole, hhole with
    | [a, b], _ => exact ⟨a, b, rfl⟩
  have hencode : (Scalar.uint16 value).encode =
      [UInt8.ofNat value.toNat, UInt8.ofNat (value.toNat / 256)] := rfl
  rw [patch?, if_pos (by simp [bytes, offset]; omega), Option.some.injEq, hencode]
  simp only [bytes, mk.injEq]
  apply Array.toList_inj.mp
  simp [offset, Nat.add_assoc]

end Writer

/-! ### Instructions -/

namespace Writer

/-- Emit the fields of a function value after their opcode. -/
def functionValue (w : Writer) (op : Opcode) : FunctionFields → Writer
  | .localFunction kind index _ | .simulEfun kind index _ | .efun kind index _ =>
    (w.withUInt8 op kind).uint16 index
  | .functional kind args unused _ => ((w.withUInt8 op kind).uint8 args).uint16 unused
  | .anonymous kind args locals length _ =>
    (((w.withUInt8 op kind).uint8 args).uint8 locals).uint16 length
  | .unknown kind _ => w.withUInt8 op kind

/-- Emit an instruction, through the call for its layout where there is one. -/
def instruction (w : Writer) (op : Opcode) {e : Encoding} : OperandFields e → Writer
  | .bare => w.opcode op
  | .push tags _ => w.push tags
  | .shortInt value => w.shortInt value
  | .number value => w.number value
  | .real bits => w.real bits
  | .forwardBranch x | .backwardBranch x | .address x | .count x | .efun x | .string x =>
    w.withUInt16 op x
  | .byte x | .negByte x | .localSlot x | .globalSlot x | .expandVarargs x | .classRef x
  | .shortString x => w.withUInt8 op x
  | .foreach flags left none _ => (w.withUInt8 op flags).uint8 left
  | .foreach flags left (some right) _ => ((w.withUInt8 op flags).uint8 left).uint8 right
  | .whileDec slot offset => (w.withUInt8 op slot).uint16 offset
  | .loopCondNumber slot bound offset =>
    ((w.withUInt8 op slot).scalar (.int32 bound)).uint16 offset
  | .loopCondLocal slot bound offset => ((w.withUInt8 op slot).uint8 bound).uint16 offset
  -- `call` and `callInherited` are the cases in which the unused bytes are zero.
  | .callByAddress index args unused => ((w.withUInt16 op index).uint8 args).uint16 unused
  | .callInherited ancestor index args unused =>
    (((w.withUInt8 op ancestor).uint16 index).uint8 args).uint16 unused
  | .simulEfun index args | .efunV index args => (w.withUInt16 op index).uint8 args
  | .functionConstructor value => w.functionValue op value

example (w : Writer) (index : UInt16) (args : UInt8) :
    w.instruction .call (.callByAddress index args 0) = w.call index args := rfl

example (w : Writer) (ancestor args : UInt8) (index : UInt16) :
    w.instruction .callInherited (.callInherited ancestor index args 0) =
      w.callInherited ancestor index args := rfl

theorem functionValue_eq_bytes (w : Writer) (op : Opcode) (fields : FunctionFields) :
    w.functionValue op fields = w.bytes ([op.byte] ++ fields.bytes) := by
  cases fields <;>
    simp only [functionValue, FunctionFields.bytes, withUInt8_eq_bytes, uint8_eq_bytes,
      uint16_eq_bytes, bytes_bytes, List.append_assoc]

/-- An instruction of the standard set is emitted as its opcode and the bytes of its fields. -/
theorem instruction_eq_bytes (w : Writer) {op : Opcode} (hop : op ∈ Opcode.all) {e : Encoding}
    (he : op.encoding = e) (fields : OperandFields e) :
    w.instruction op fields = w.bytes ([op.byte] ++ fields.bytes) := by
  have hpush : ∀ op ∈ Opcode.all, op.encoding = .push → op = .push := by decide
  have hshort : ∀ op ∈ Opcode.all, op.encoding = .shortInt → op = .shortInt := by decide
  have hnumber : ∀ op ∈ Opcode.all, op.encoding = .number → op = .number := by decide
  have hreal : ∀ op ∈ Opcode.all, op.encoding = .real → op = .real := by decide
  cases fields with
  | push tags hcount =>
    rw [hpush op hop he, instruction, push, withUInt8_eq_bytes, bytes_bytes]
    rfl
  | shortInt value =>
    rw [hshort op hop he, instruction, shortInt, opcode_eq_bytes, scalar_eq_bytes, bytes_bytes]
    rfl
  | number value =>
    rw [hnumber op hop he, instruction, number, opcode_eq_bytes, scalar_eq_bytes, bytes_bytes]
    rfl
  | real bits =>
    rw [hreal op hop he, instruction, real, opcode_eq_bytes, scalar_eq_bytes, bytes_bytes]
    rfl
  | functionConstructor value => exact w.functionValue_eq_bytes op value
  | foreach flags left right hright =>
    cases right <;>
      simp only [instruction, OperandFields.bytes, withUInt8_eq_bytes, uint8_eq_bytes, bytes_bytes,
        Option.toList, List.append_assoc, List.append_nil]
  | _ =>
    simp only [instruction, OperandFields.bytes, opcode_eq_bytes, withUInt8_eq_bytes,
      withUInt16_eq_bytes, uint8_eq_bytes, uint16_eq_bytes, scalar_eq_bytes, bytes_bytes,
      List.append_assoc, List.append_nil]

end Writer

/-! ### Switch tables -/

/-- The contents of a switch table, with a type byte that selects its layout. -/
inductive TableFields where
  /-- Targets of consecutive keys, and the least key. -/
  | direct (slots : List UInt16) (minimum : Int32)
  /-- Pairs of a number and a target. -/
  | integer (tableType : UInt8) (pairs : List (Int64 × UInt16))
      (htype : 0xf0 ≤ tableType ∧ tableType ≠ 0xfe)
  /-- Pairs of a string, counted from one, and a target. -/
  | string (tableType : UInt8) (pairs : List (UInt64 × UInt16)) (htype : tableType < 0xf0)

namespace TableFields

/-- The type byte. -/
def tableType : TableFields → UInt8
  | .direct _ _ => 0xfe
  | .integer tableType _ _ | .string tableType _ _ => tableType

/-- The pairs of a table, with the keys as fields. -/
def pairs : TableFields → List (Scalar × UInt16)
  | .direct _ _ => []
  | .integer _ pairs _ => pairs.map fun pair => (.int64 pair.1, pair.2)
  | .string _ pairs _ => pairs.map fun pair => (.uint64 pair.1, pair.2)

/-- The bytes of a pair. -/
def pairBytes (pair : Scalar × UInt16) : Bytes := pair.1.encode ++ (Scalar.uint16 pair.2).encode

/-- The bytes of a table. -/
def bytes : TableFields → Bytes
  | .direct slots minimum =>
    slots.flatMap (fun slot => (Scalar.uint16 slot).encode) ++ (Scalar.int32 minimum).encode
  | t => t.pairs.flatMap pairBytes

/-- Emit a pair. -/
def emitPair (w : Writer) (pair : Scalar × UInt16) : Writer := (w.scalar pair.1).uint16 pair.2

/-- Emit a table, entry by entry. -/
def emit (w : Writer) : TableFields → Writer
  | .direct slots minimum => (slots.foldl Writer.uint16 w).scalar (.int32 minimum)
  | t => t.pairs.foldl emitPair w

/-- The target of a pair of a switch whose offsets count from `base`. -/
def pairTarget (base : Nat) (offset : UInt16) : SwitchTarget :=
  if offset = 1 then .rangeStart else .address (base + offset.toNat)

/-- The key that the number of a string stands for. Zero is no string. -/
def stringKey (p : Program) (key : UInt64) : SwitchKey :=
  if key = 0 then .integer 0
  else
    match p.string? (key.toNat - 1) with
    | some value => .string value
    | none => .missingString key.toNat

/-- What a table is shown as, for a switch whose offsets count from `base`. -/
def entries (p : Program) (base : Nat) : TableFields → List Record
  | .direct slots minimum =>
    (slots.zipIdx.map fun slot =>
      Record.switchEntry ⟨.slot slot.2, .address (base + slot.1.toNat)⟩) ++
      [.switchMinimum minimum]
  | .integer _ pairs _ =>
    pairs.map fun pair => .switchEntry ⟨.integer pair.1.toInt, pairTarget base pair.2⟩
  | .string _ pairs _ =>
    pairs.map fun pair => .switchEntry ⟨stringKey p pair.1, pairTarget base pair.2⟩

/-- Emitting one field after the other emits the bytes of all fields. -/
theorem foldl_eq_bytes {α : Type} {step : Writer → α → Writer} {field : α → Bytes}
    (hstep : ∀ w x, step w x = w.bytes (field x)) (w : Writer) (xs : List α) :
    xs.foldl step w = w.bytes (xs.flatMap field) := by
  induction xs generalizing w with
  | nil => rw [List.foldl_nil, List.flatMap_nil, w.bytes_nil]
  | cons x xs ih => rw [List.foldl_cons, hstep, ih, Writer.bytes_bytes, List.flatMap_cons]

theorem emitPair_eq_bytes (w : Writer) (pair : Scalar × UInt16) :
    emitPair w pair = w.bytes (pairBytes pair) := w.bytes_bytes _ _

theorem emit_eq_bytes (w : Writer) (t : TableFields) : t.emit w = w.bytes t.bytes := by
  cases t with
  | direct slots minimum =>
    rw [emit, foldl_eq_bytes Writer.uint16_eq_bytes, Writer.scalar_eq_bytes, Writer.bytes_bytes]
    rfl
  | integer | string => exact foldl_eq_bytes emitPair_eq_bytes w _

end TableFields

/-! ### Headers -/

namespace Writer

/-- The bytes of a header. -/
def SwitchFields.bytes (fields : SwitchFields) : Bytes :=
  [fields.tableType] ++ ((Scalar.uint16 fields.tableStart).encode ++
    ((Scalar.uint16 fields.tableEnd).encode ++ (Scalar.uint16 fields.fallback).encode))

theorem switch_eq_bytes (w : Writer) (fields : SwitchFields) :
    w.switch fields = (w.offset + 1, w.bytes ([Opcode.switch.byte] ++ fields.bytes)) := by
  simp only [switch, SwitchFields.bytes, opcode_eq_bytes, uint8_eq_bytes, uint16_eq_bytes,
    bytes_bytes, offset_bytes, List.length_singleton, List.append_assoc]

/-- The offset of the table is the field after the type byte. -/
theorem patch?_tableStart (w : Writer) (fields : SwitchFields) (after : Bytes) (value : UInt16) :
    (w.bytes ([Opcode.switch.byte] ++ (fields.bytes ++ after))).patch? (w.offset + 1 + 1) value =
      some (w.bytes ([Opcode.switch.byte] ++
        ({ fields with tableStart := value }.bytes ++ after))) :=
  w.patch?_bytes [Opcode.switch.byte, fields.tableType] (Scalar.uint16 fields.tableStart).encode
    ((Scalar.uint16 fields.tableEnd).encode ++ (Scalar.uint16 fields.fallback).encode ++ after) rfl
    value

/-- The offset of the end of the table is the field after that. -/
theorem patch?_tableEnd (w : Writer) (fields : SwitchFields) (after : Bytes) (value : UInt16) :
    (w.bytes ([Opcode.switch.byte] ++ (fields.bytes ++ after))).patch? (w.offset + 1 + 3) value =
      some (w.bytes ([Opcode.switch.byte] ++
        ({ fields with tableEnd := value }.bytes ++ after))) :=
  w.patch?_bytes
    ([Opcode.switch.byte, fields.tableType] ++ (Scalar.uint16 fields.tableStart).encode)
    (Scalar.uint16 fields.tableEnd).encode ((Scalar.uint16 fields.fallback).encode ++ after) rfl
    value

end Writer

/-! ### Trees -/

/-- A sequence of instructions, in which the body of a switch is a sequence again. -/
inductive CodeTree where
  | done
  /-- An instruction other than a switch. -/
  | plain (op : Opcode) (hop : op ∈ Opcode.all) (fields : OperandFields op.encoding)
      (rest : CodeTree)
  /-- A switch with the offset of its default target. -/
  | switch (fallback : UInt16) (body : CodeTree) (table : TableFields) (rest : CodeTree)

namespace CodeTree

/-- The header of a switch whose body has a number of bytes. Its offsets count from the header. -/
def header (fallback : UInt16) (bodySize : Nat) (table : TableFields) : Writer.SwitchFields :=
  ⟨table.tableType, UInt16.ofNat (7 + bodySize), UInt16.ofNat (7 + bodySize + table.bytes.length),
    fallback⟩

/-- The bytes of a tree. -/
def bytes : CodeTree → Bytes
  | .done => []
  | .plain op _ fields rest => [op.byte] ++ (fields.bytes ++ rest.bytes)
  | .switch fallback body table rest =>
    [Opcode.switch.byte] ++ ((header fallback body.bytes.length table).bytes ++
      (body.bytes ++ (table.bytes ++ rest.bytes)))

/-- Emit a tree. The two offsets of a table are patched once the table has been emitted. -/
def emit : CodeTree → Writer → Option Writer
  | .done, w => some w
  | .plain op _ fields rest, w => rest.emit (w.instruction op fields)
  | .switch fallback body table rest, w => do
    let (base, w) := w.switch ⟨table.tableType, 0, 0, fallback⟩
    let w ← body.emit w
    let tableStart := w.offset - base
    let w := table.emit w
    let tableEnd := w.offset - base
    let w ← w.patch? (base + 1) (UInt16.ofNat tableStart)
    let w ← w.patch? (base + 3) (UInt16.ofNat tableEnd)
    rest.emit w

/-- The offsets of every table fit in their fields. -/
def Fits : CodeTree → Prop
  | .done => True
  | .plain _ _ _ rest => rest.Fits
  | .switch _ body table rest =>
    7 + body.bytes.length + table.bytes.length < 65536 ∧ body.Fits ∧ rest.Fits

/-- How many switches lie inside of one another. -/
def depth : CodeTree → Nat
  | .done => 0
  | .plain _ _ _ rest => rest.depth
  | .switch _ body _ rest => max (body.depth + 1) rest.depth

/-- The mnemonic of an instruction: a call of a built-in shows its name. -/
def mnemonic (opcodes : OpcodeTable) (op : Opcode) {e : Encoding} : OperandFields e → String
  | .efun index => (opcodes.efunName? index).getD op.mnemonic
  | .efunV index _ => (opcodes.efunName? index).getD op.mnemonic
  | _ => op.mnemonic

/-- What a listing of a tree at an address shows. -/
def records (p : Program) (opcodes : OpcodeTable) : CodeTree → Nat → List Record
  | .done, _ => []
  | .plain op _ fields rest, offset =>
    let next := offset + 1 + fields.bytes.length
    .instruction ⟨offset, op.byte, mnemonic opcodes op fields,
      fields.operand p opcodes (offset + 1), next⟩ :: rest.records p opcodes next
  | .switch fallback body table rest, offset =>
    let base := offset + 1
    let tableStart := base + (7 + body.bytes.length)
    let tableEnd := base + (7 + body.bytes.length + table.bytes.length)
    .instruction ⟨offset, Opcode.switch.byte, Opcode.switch.mnemonic,
      .switch ⟨table.tableType, tableStart, tableEnd, base + fallback.toNat⟩, tableEnd⟩ ::
      (body.records p opcodes (base + 7) ++
        (.switchTable offset :: table.entries p base ++ rest.records p opcodes tableEnd))

/-- **Emitting a tree never fails**, and adds the bytes of the tree. -/
theorem emit_eq (c : CodeTree) (w : Writer) : c.emit w = some (w.bytes c.bytes) := by
  induction c generalizing w with
  | done => rw [emit, bytes, w.bytes_nil]
  | plain op hop fields rest ih =>
    rw [emit, ih, w.instruction_eq_bytes hop rfl, Writer.bytes_bytes, bytes, List.append_assoc]
  | switch fallback body table rest ihBody ihRest =>
    have hheader (fields : Writer.SwitchFields) :
        ([Opcode.switch.byte] ++ (fields.bytes ++ body.bytes)).length =
          1 + (7 + body.bytes.length) := by
      have : fields.bytes.length = 7 := rfl
      rw [List.length_append, List.length_append, this, List.length_singleton]
    simp only [emit, Writer.switch_eq_bytes, ihBody, TableFields.emit_eq_bytes, Writer.bytes_bytes,
      Option.bind_eq_bind, Option.bind_some, Writer.offset_bytes, List.append_assoc, hheader,
      Writer.patch?_tableStart, Writer.patch?_tableEnd, ihRest, ← Nat.add_assoc w.offset 1,
      Nat.add_assoc (w.offset + 1), Nat.add_sub_cancel_left]
    rfl

end CodeTree
end LpcInspect
