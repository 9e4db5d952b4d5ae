import LpcInspect.Bytes.Advance
import LpcInspect.Listing.OperandReader
import LpcInspect.Listing.SwitchTable
import LpcInspect.Settings.Basic

/-!
# Single items of a listing

`Disassembler.item` decodes what stands at one address of a window: an instruction, a byte that is
no instruction, or a switch with its header. It says where the window goes on and, for a switch
whose body is to be listed, where its table is. Decoding never fails: what cannot be decoded becomes
a diagnostic.
-/

namespace LpcInspect

/-- A program with all that its listing depends on. -/
structure Disassembler where
  program : Program
  opcodes : OpcodeTable
  settings : DecoderSettings := {}
  /-- The source line of an address. -/
  locate? : Nat → Option Location := fun _ => none

/-- What stands at an address. -/
structure Item where
  records : List Record
  /-- Where the window goes on. -/
  next : Nat
  /-- The switch whose body comes next. -/
  body? : Option SwitchTable := none

namespace Disassembler

/-- The fields of the header of a switch. -/
def readSwitchHeader : Decode (UInt8 × UInt16 × UInt16 × UInt16) := do
  let tableType ← Reader.uint8
  let tableStart ← Reader.uint16
  let tableEnd ← Reader.uint16
  let fallback ← Reader.uint16
  return (tableType, tableStart, tableEnd, fallback)

/-- An instruction that goes on after the end of its window. -/
def truncatedItem (offset stop : Nat) : Item := ⟨[.diagnostic offset .truncated], stop, none⟩

/-- A call of a built-in is shown with the name of the built-in. -/
def shownMnemonic (d : Disassembler) (mnemonic : String) : Operand → String
  | .efun index => (d.opcodes.efunName? index).getD mnemonic
  | .efunV index _ => (d.opcodes.efunName? index).getD mnemonic
  | _ => mnemonic

/-- The reader of the operand at an address. -/
def operandReader (d : Disassembler) (offset stop : Nat) : Reader :=
  Reader.window d.program.code stop (offset + 1)

/-- An instruction other than a switch. -/
def plainItem (d : Disassembler) (offset stop : Nat) (opcode : UInt8) (mnemonic : String)
    (encoding : Encoding) : Item :=
  match Operand.read d.program d.opcodes encoding (d.operandReader offset stop) with
  | .ok (operand, r) =>
    ⟨[.instruction ⟨offset, opcode, d.shownMnemonic mnemonic operand, operand, r.position⟩],
      r.position, none⟩
  | .error _ => truncatedItem offset stop

/-- A switch. Its body is not listed if the switch lies inside of too many others, and the rest of
the window is given up if its table does not fit. -/
def switchItem (d : Disassembler) (depth offset stop : Nat) (opcode : UInt8) (mnemonic : String) :
    Item :=
  match readSwitchHeader (d.operandReader offset stop) with
  | .error _ => truncatedItem offset stop
  | .ok ((tableType, tableStart, tableEnd, fallback), _) =>
    let base := offset + 1
    let header : SwitchHeader :=
      ⟨tableType, base + tableStart.toNat, base + tableEnd.toNat, base + fallback.toNat⟩
    let shown := Record.instruction ⟨offset, opcode, mnemonic, .switch header, header.tableEnd⟩
    match SwitchTable.locate? offset tableType tableStart tableEnd stop with
    | none => ⟨[shown, .diagnostic offset .malformedSwitch], stop, none⟩
    | some table =>
      if d.settings.maxSwitchDepth < depth then
        ⟨[shown, .diagnostic offset .nestingTooDeep], table.stop, none⟩
      else ⟨[shown], table.stop, some table⟩

/-- What stands at an address of a window that ends at `stop`, inside of `depth` windows. -/
def item (d : Disassembler) (depth offset stop : Nat) (opcode : UInt8) : Item :=
  if opcode = 0 then ⟨[.diagnostic offset .zeroOpcode], offset + 1, none⟩
  else
    let mnemonic := (d.opcodes.mnemonic? opcode).getD "unknown"
    match d.opcodes.encoding? opcode with
    | none => ⟨[.diagnostic offset (.unknownOpcode opcode mnemonic)], offset + 1, none⟩
    | some .switch => d.switchItem depth offset stop opcode mnemonic
    | some encoding => d.plainItem offset stop opcode mnemonic encoding

/-- Reading a function value goes forward. -/
theorem advances_readFunctionValue (p : Program) (opcodes : OpcodeTable) :
    Advances (FunctionValue.read p opcodes) := by
  refine .bind .uint8 fun kind => ?_
  repeat' split
  · exact .bind .uint16 fun _ => .pure _
  · exact .bind .uint16 fun _ => .pure _
  · exact .bind .uint16 fun _ => .pure _
  · exact .bind .uint8 fun _ => .bind (.skip 2) fun _ => .pure _
  · exact .bind .offset fun _ => .bind .uint8 fun _ => .bind .uint8 fun _ =>
      .bind .uint16 fun _ => .pure _
  · exact .pure _

/-- Reading the end of a loop condition goes forward. -/
theorem advances_readLoopCond (slot : UInt8) (bound : LoopBound) :
    Advances (Operand.readLoopCond slot bound) :=
  .bind .offset fun _ => .bind .uint16 fun _ => .pure _

/-- Reading an operand goes forward. -/
theorem advances_readOperand (p : Program) (opcodes : OpcodeTable) (encoding : Encoding) :
    Advances (Operand.read p opcodes encoding) := by
  cases encoding with
  | bare | switch => exact .pure _
  | push => exact .bind .uint8 fun _ => .bind (.uint8s _) fun _ => .pure _
  | forwardBranch | backwardBranch =>
    exact .bind .uint16 fun _ => .bind .offset fun _ => .pure _
  | address | count | efun | string => exact .bind .uint16 fun _ => .pure _
  | byte | negByte | localSlot | globalSlot | expandVarargs | classRef | shortString =>
    exact .bind .uint8 fun _ => .pure _
  | foreach =>
    refine .bind .uint8 fun flags => .bind .uint8 fun left => ?_
    split
    · exact .bind .uint8 fun _ => .pure _
    · exact .pure _
  | whileDec =>
    exact .bind .offset fun _ => .bind .uint8 fun _ => .bind .uint16 fun _ => .pure _
  | loopCondNumber =>
    exact .bind .uint8 fun _ => .bind .int32 fun _ => advances_readLoopCond _ _
  | loopCondLocal =>
    exact .bind .uint8 fun _ => .bind .uint8 fun _ => advances_readLoopCond _ _
  | callByAddress => exact .bind .uint16 fun _ => .bind (.skip 3) fun _ => .pure _
  | callInherited =>
    exact .bind .uint8 fun _ => .bind .uint16 fun _ => .bind (.skip 3) fun _ => .pure _
  | simulEfun | efunV => exact .bind .uint16 fun _ => .bind .uint8 fun _ => .pure _
  | functionConstructor =>
    exact .bind (advances_readFunctionValue p opcodes) fun _ => .pure _
  | shortInt => exact .bind .int16 fun _ => .pure _
  | number => exact .bind .int64 fun _ => .pure _
  | real => exact .bind .uint64 fun _ => .pure _

/-- A plain instruction takes at least its opcode. -/
theorem lt_next_plainItem (d : Disassembler) {offset stop : Nat} (opcode : UInt8)
    (mnemonic : String) (encoding : Encoding) (h : offset < stop) :
    offset < (d.plainItem offset stop opcode mnemonic encoding).next := by
  unfold plainItem
  split
  · next operand r hr => exact advances_readOperand _ _ _ hr
  · exact h

/-- A switch takes at least its opcode. -/
theorem lt_next_switchItem (d : Disassembler) {depth offset stop : Nat} (opcode : UInt8)
    (mnemonic : String) (h : offset < stop) :
    offset < (d.switchItem depth offset stop opcode mnemonic).next := by
  unfold switchItem
  split
  · exact h
  · dsimp only
    split
    · exact h
    · next table htable =>
      have hb := SwitchTable.bounds_of_locate? htable
      simp only [SwitchTable.bodyStart, SwitchTable.base] at hb
      split <;> dsimp only <;> omega

/-- An item takes at least one byte. -/
theorem lt_next_item (d : Disassembler) (depth : Nat) {offset stop : Nat} (opcode : UInt8)
    (h : offset < stop) : offset < (d.item depth offset stop opcode).next := by
  unfold item
  split
  · exact Nat.lt_succ_self _
  · dsimp only
    split
    · exact Nat.lt_succ_self _
    · exact lt_next_switchItem d opcode _ h
    · exact lt_next_plainItem d opcode _ _ h

/-- The body of a switch lies after its header and before its table. -/
theorem body_of_switchItem (d : Disassembler) {depth offset stop : Nat} {opcode : UInt8}
    {mnemonic : String} {table : SwitchTable}
    (h : (d.switchItem depth offset stop opcode mnemonic).body? = some table) :
    table.bodyStart = offset + 8 ∧ table.bodyStart ≤ table.start ∧ table.start ≤ table.stop ∧
      table.stop ≤ stop ∧ (d.switchItem depth offset stop opcode mnemonic).next = table.stop := by
  revert h
  unfold switchItem
  split
  · intro h
    cases h
  · dsimp only
    split
    · intro h
      cases h
    · next located hlocated =>
      have hb := SwitchTable.bounds_of_locate? hlocated
      split
      · intro h
        cases h
      · intro h
        cases h
        refine ⟨?_, hb.2.1, hb.2.2.1, hb.2.2.2, rfl⟩
        simp [SwitchTable.bodyStart, SwitchTable.base, SwitchTable.headerSize, hb.1]

/-- The body of a switch lies after its header and before the place where the window goes on. -/
theorem body_of_item (d : Disassembler) {depth offset stop : Nat} {opcode : UInt8}
    {table : SwitchTable} (h : (d.item depth offset stop opcode).body? = some table) :
    table.bodyStart = offset + 8 ∧ table.bodyStart ≤ table.start ∧ table.start ≤ table.stop ∧
      table.stop ≤ stop ∧ (d.item depth offset stop opcode).next = table.stop := by
  revert h
  unfold item
  split
  · intro h
    cases h
  · dsimp only
    split
    · intro h
      cases h
    · exact d.body_of_switchItem
    · unfold plainItem
      split <;> (intro h; cases h)

/-- An item shows at least one record. -/
theorem records_item_ne_nil (d : Disassembler) (depth offset stop : Nat) (opcode : UInt8) :
    (d.item depth offset stop opcode).records ≠ [] := by
  unfold item
  split
  · simp
  · dsimp only
    split
    · simp
    · unfold switchItem
      split
      · simp [truncatedItem]
      · dsimp only
        split
        · simp
        · split <;> simp
    · unfold plainItem
      split <;> simp [truncatedItem]

end Disassembler
end LpcInspect
