import LpcInspect.Proofs.Listing.Items

/-!
# Records at other addresses

`Record.shift k` is a record as it is shown when its code stands `k` bytes further on. All addresses
move by `k`, the targets of branches wrap around at sixteen bits as branches count, and everything
else stays: raw operands, names, strings and keys do not know where the code is.

What is read from shifted readers is shifted: operands, items and switch tables.
-/

namespace LpcInspect

/-! ### Shifted records -/

/-- The end of a function body that follows moves with the code. -/
def FunctionValue.shift (k : Nat) : FunctionValue → FunctionValue
  | .anonymous args locals endsAt => .anonymous args locals (endsAt + k)
  | value => value

/-- The addresses of a switch move with the code. -/
def SwitchHeader.shift (k : Nat) (h : SwitchHeader) : SwitchHeader :=
  ⟨h.tableType, h.tableStart + k, h.tableEnd + k, h.fallback + k⟩

/-- An operand whose code stands `k` bytes further on. An operand that names an address by itself
does not move. -/
def Operand.shift (k : Nat) : Operand → Operand
  | .branch offset target => .branch offset (target + wrap k)
  | .whileDec slot offset target => .whileDec slot offset (target + wrap k)
  | .loopCond slot bound offset target => .loopCond slot bound offset (target + wrap k)
  | .function value => .function (value.shift k)
  | .switch header => .switch (header.shift k)
  | operand => operand

def Instruction.shift (k : Nat) (i : Instruction) : Instruction :=
  ⟨i.offset + k, i.opcode, i.mnemonic, i.operand.shift k, i.next + k⟩

def SwitchTarget.shift (k : Nat) : SwitchTarget → SwitchTarget
  | .address target => .address (target + k)
  | .rangeStart => .rangeStart

/-- A record whose code stands `k` bytes further on. -/
def Record.shift (k : Nat) : Record → Record
  | .instruction i => .instruction (i.shift k)
  | .switchTable offset => .switchTable (offset + k)
  | .switchEntry entry => .switchEntry ⟨entry.key, entry.target.shift k⟩
  | .diagnostic offset cause => .diagnostic (offset + k) cause
  | .location place => .location place
  | .functionStart index name => .functionStart index name
  | .switchMinimum value => .switchMinimum value

/-- A switch whose code stands `k` bytes further on. -/
def SwitchTable.shift (k : Nat) (t : SwitchTable) : SwitchTable :=
  ⟨t.offset + k, t.layout, t.start + k, t.stop + k⟩

/-- An item whose code stands `k` bytes further on. -/
def Item.shift (k : Nat) (i : Item) : Item :=
  ⟨i.records.map (Record.shift k), i.next + k, i.body?.map (SwitchTable.shift k)⟩

namespace Operand

theorem wrap_add (position k : Nat) : wrap (position + k) = wrap position + wrap k :=
  UInt16.ofNat_add position k

@[simp] theorem shift_zero (operand : Operand) : operand.shift 0 = operand := by
  have hzero (target : UInt16) : target + wrap 0 = target := UInt16.add_zero target
  cases operand with
  | function value => cases value <;> rfl
  | branch | whileDec | loopCond => simp only [shift, hzero]
  | _ => rfl

end Operand

/-- Code that does not move is shown as it is. -/
@[simp] theorem Record.shift_zero (record : Record) : record.shift 0 = record := by
  cases record with
  | instruction i => simp [shift, Instruction.shift]
  | switchEntry entry =>
    obtain ⟨key, target⟩ := entry
    cases target <;> rfl
  | _ => rfl

theorem Record.map_shift_zero (records : List Record) : records.map (shift 0) = records := by
  have hid : shift 0 = id := funext shift_zero
  rw [hid, List.map_id]

/-! ### Names do not depend on the code -/

namespace Program

/-- The program with other code. -/
def withCode (p : Program) (code : Array UInt8) : Program := { p with code }

variable (p : Program) (code : Array UInt8) (index : Nat)

@[simp] theorem variableCount_withCode : (p.withCode code).variableCount = p.variableCount := by
  rw [variableCount_eq, variableCount_eq]
  rfl

@[simp] theorem variableName?_withCode :
    (p.withCode code).variableName? index = p.variableName? index := by
  rw [variableName?_eq, variableName?_eq]
  rfl

/-- The definition of a function is found in the same way; only the program that is found may be the
one with other code. -/
theorem definition?_withCode :
    ((p.withCode code).definition? index).map Prod.snd = (p.definition? index).map Prod.snd := by
  rw [definition?_eq, definition?_eq]
  cases hentry : p.functions[index]? with
  | none => simp [withCode, hentry]
  | some entry =>
    have hentry' : (p.withCode code).functions[index]? = some entry := hentry
    rw [hentry', Option.bind_some, Option.bind_some]
    split
    · rfl
    · rfl

@[simp] theorem functionName?_withCode :
    (p.withCode code).functionName? index = p.functionName? index := by
  have hname (found : Option (Program × FunctionEntry)) :
      found.map (fun d => d.2.name) = (found.map Prod.snd).map FunctionEntry.name := by
    rw [Option.map_map]
    rfl
  have hslot : (p.withCode code).functions[index]? = p.functions[index]? := rfl
  rw [functionName?, functionName?, hname, hname, resolve?, resolve?, hslot]
  cases p.functions[index]? with
  | none => rfl
  | some slot => simp only [Option.bind_some, definition?_withCode]

@[simp] theorem callee?_withCode : (p.withCode code).callee? index = p.callee? index := by
  rw [callee?, callee?, functionName?_withCode]
  rfl

end Program

/-! ### Operands -/

/-- The same fields `k` bytes further on are the same operand, shifted. -/
theorem FunctionFields.value_shift (fields : FunctionFields) (p : Program) (code : Array UInt8)
    (opcodes : OpcodeTable) (position k : Nat) :
    fields.value (p.withCode code) opcodes (position + k) =
      (fields.value p opcodes position).shift k := by
  cases fields with
  | localFunction => simp [value, FunctionValue.shift]
  | anonymous kind args locals length hkind =>
    have hend : position + k + 4 + length.toNat = position + 4 + length.toNat + k := by omega
    simp only [value, FunctionValue.shift, hend]
  | _ => rfl

/-- The same fields `k` bytes further on are the same operand, shifted. -/
theorem OperandFields.operand_shift {e : Encoding} (fields : OperandFields e) (p : Program)
    (code : Array UInt8) (opcodes : OpcodeTable) (position k : Nat) :
    fields.operand (p.withCode code) opcodes (position + k) =
      (fields.operand p opcodes position).shift k := by
  -- Each branch counts from a place of its own.
  have hwrap (n : Nat) : Operand.wrap (position + k + n) =
      Operand.wrap (position + n) + Operand.wrap k := by
    rw [Nat.add_right_comm, Operand.wrap_add]
  have hadd (a b c : UInt16) : a + b + c = a + c + b := by
    rw [UInt16.add_assoc, UInt16.add_comm b, ← UInt16.add_assoc]
  have hsub (a b c : UInt16) : a + b - c = a - c + b := by
    rw [UInt16.sub_eq_add_neg, UInt16.sub_eq_add_neg, hadd]
  cases fields with
  | forwardBranch offset =>
    simp only [operand, Operand.shift, hwrap, hadd _ (Operand.wrap k) offset]
  | backwardBranch => simp only [operand, Operand.shift, hwrap, hsub]
  | whileDec => simp only [operand, Operand.shift, Operand.wrap_add, hsub]
  | loopCondNumber | loopCondLocal => simp only [operand, Operand.shift, hwrap, hsub]
  | globalSlot | callByAddress => simp [operand, Operand.shift]
  | functionConstructor value => simp only [operand, Operand.shift, value.value_shift]
  | _ => rfl

theorem Disassembler.shownMnemonic_shift (d : Disassembler) (mnemonic : String) (operand : Operand)
    (k : Nat) : d.shownMnemonic mnemonic (operand.shift k) = d.shownMnemonic mnemonic operand := by
  cases operand <;> rfl

/-! ### Switch tables -/

namespace SwitchTable

variable {k : Nat} {r s : Reader} (t : SwitchTable)

@[simp] theorem start_shift : (t.shift k).start = t.start + k := rfl

@[simp] theorem stop_shift : (t.shift k).stop = t.stop + k := rfl

theorem base_shift : (t.shift k).base = t.base + k := Nat.add_right_comm _ _ _

theorem bodyStart_shift : (t.shift k).bodyStart = t.bodyStart + k := by
  simp only [bodyStart, base_shift, headerSize]
  omega

/-- A table is found at the same distance from its switch. -/
theorem locate?_shift (offset : Nat) (tableType : UInt8) (tableStart tableEnd : UInt16)
    (windowEnd : Nat) :
    locate? (offset + k) tableType tableStart tableEnd (windowEnd + k) =
      (locate? offset tableType tableStart tableEnd windowEnd).map (shift k) := by
  have hend (n : Nat) : offset + k + 1 + n = offset + 1 + n + k := by omega
  simp only [locate?, hend, Nat.add_le_add_iff_right]
  split
  · simp only [Option.map_some, shift]
  · rfl

theorem address_shift (offset : UInt16) :
    SwitchTarget.address ((t.shift k).base + offset.toNat) =
      (SwitchTarget.address (t.base + offset.toNat)).shift k := by
  rw [base_shift, Nat.add_right_comm]
  rfl

theorem pairTarget_shift (offset : UInt16) :
    (t.shift k).pairTarget offset = (t.pairTarget offset).shift k := by
  unfold pairTarget
  split
  · rfl
  · exact t.address_shift offset

/-- The least key is read alike. -/
theorem minimumRecords_shift (h : Reader.Shifted k r s) :
    minimumRecords s = (minimumRecords r).map (Record.shift k) := by
  unfold minimumRecords
  rcases Reader.reads_int32.shift Reader.reads_int32 h with ⟨value, hr, hs⟩ | ⟨⟨e, hr⟩, e', hs⟩
  · rw [hr, hs]
    rfl
  · rw [hr, hs, h.position_eq]
    rfl

/-- The targets of a direct table are read alike, as long as they stand before the least key. -/
theorem slotRecords_shift (hsize : minimumSize ≤ t.stop) (count slot : Nat)
    (h : Reader.Shifted k r s) (hcount : r.position + 2 * count ≤ t.stop - minimumSize) :
    (t.shift k).slotRecords count slot s = (t.slotRecords count slot r).map (Record.shift k) := by
  induction count generalizing slot r s with
  | zero =>
    have hseek : (t.shift k).stop - minimumSize = t.stop - minimumSize + k := by
      simp only [shift]
      omega
    rw [slotRecords, slotRecords, hseek]
    exact minimumRecords_shift (h.seek hcount)
  | succ count ih =>
    rw [slotRecords, slotRecords]
    rcases Reader.reads_uint16.shift Reader.reads_uint16 h with
      ⟨offset, hr, hs⟩ | ⟨⟨e, hr⟩, e', hs⟩
    · have hrest := ih (slot + 1) (h.advance 2) (by simp only [Reader.position_seek]; omega)
      rw [hr, hs]
      simp only [List.map_cons, Record.shift, t.address_shift]
      exact congrArg _ hrest
    · rw [hr, hs, h.position_eq]
      rfl

/-- The pairs of a table are read alike. -/
theorem pairRecords_shift (p : Program) (code : Array UInt8) (width bound : Nat)
    (h : Reader.Shifted k r s) :
    (t.shift k).pairRecords (p.withCode code) width bound s =
      (t.pairRecords p width bound r).map (Record.shift k) := by
  induction bound generalizing r s with
  | zero => rfl
  | succ bound ih =>
    have hmore : s.position < (t.shift k).stop ↔ r.position < t.stop := by
      rw [h.position_eq]
      exact Nat.add_lt_add_iff_right
    rw [pairRecords, pairRecords]
    by_cases hlt : r.position < t.stop
    · rw [if_pos hlt, if_pos (hmore.mpr hlt)]
      rcases (Reader.reads_unsigned width).shift (Reader.reads_unsigned width) h with
        ⟨key, hr, hs⟩ | ⟨⟨e, hr⟩, e', hs⟩
      · have hafter := h.advance key.val.length
        rw [hr, hs]
        dsimp only
        rcases Reader.reads_uint16.shift Reader.reads_uint16 hafter with
          ⟨offset, hr', hs'⟩ | ⟨⟨e, hr'⟩, e', hs'⟩
        · rw [hr', hs']
          simp only [List.map_cons, Record.shift, t.pairTarget_shift]
          exact congrArg _ (ih (hafter.advance _))
        · rw [hr', hs', hafter.position_eq]
          rfl
      · rw [hr, hs, h.position_eq]
        rfl
    · rw [if_neg hlt, if_neg (mt hmore.mp hlt)]
      rfl

/-- A direct table is read alike. -/
theorem directRecords_shift (h : Reader.Shifted k r s) (hstart : r.position = t.start) :
    (t.shift k).directRecords s = (t.directRecords r).map (Record.shift k) := by
  have hfits : (t.shift k).start + minimumSize ≤ (t.shift k).stop ↔
      t.start + minimumSize ≤ t.stop := by
    rw [start_shift, stop_shift]
    omega
  have hcount : (t.shift k).stop - minimumSize - (t.shift k).start =
      t.stop - minimumSize - t.start := by
    rw [start_shift, stop_shift]
    omega
  rw [directRecords, directRecords, hcount]
  by_cases hle : t.start + minimumSize ≤ t.stop
  · rw [if_pos hle, if_pos (hfits.mpr hle)]
    exact t.slotRecords_shift (by omega) _ 0 h (by omega)
  · rw [if_neg hle, if_neg (mt hfits.mp hle)]
    rfl

/-- **The records of a table move with the code.** -/
theorem records_shift (p : Program) {code code' : Array UInt8} (width : Nat)
    (h : Reader.Shifted k (.window code t.stop t.start)
      (.window code' (t.shift k).stop (t.shift k).start)) :
    (t.shift k).records code' (p.withCode code') width =
      (t.records code p width).map (Record.shift k) := by
  have hsize : (t.shift k).stop - (t.shift k).start = t.stop - t.start :=
    Nat.add_sub_add_right _ _ _
  have hlayout : (t.shift k).layout = t.layout := rfl
  rw [records, records, hsize, hlayout, List.map_cons]
  refine congrArg (Record.switchTable (t.offset + k) :: ·) ?_
  cases t.layout with
  | direct => exact t.directRecords_shift h rfl
  | integer | string => exact t.pairRecords_shift p code' width _ h

end SwitchTable

end LpcInspect
