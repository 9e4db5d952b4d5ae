import LpcInspect.Listing.OperandReader
import LpcInspect.Proofs.Bytes.Holds

/-!
# The fields of operands

`OperandFields e` is what can stand after an opcode with the layout `e`: the values of all fields,
those that are not shown included. It has the bytes of the fields and the operand that they are
shown as at a position. `Operand.read_of_holds` and `Operand.holds_of_read` say that an operand is
read exactly where the bytes of some fields stand, for every layout but that of a switch.
-/

namespace LpcInspect

/-- The fields of a function value. The kind is in the four low bits of the first byte. -/
inductive FunctionFields where
  | localFunction (kind : UInt8) (index : UInt16)
      (hkind : FunctionKind.ofByte kind = FunctionKind.localFunction)
  | simulEfun (kind : UInt8) (index : UInt16)
      (hkind : FunctionKind.ofByte kind = FunctionKind.simulEfun)
  | efun (kind : UInt8) (index : UInt16) (hkind : FunctionKind.ofByte kind = FunctionKind.efun)
  /-- The two bytes after the number of arguments are not shown. -/
  | functional (kind args : UInt8) (unused : UInt16)
      (hkind : FunctionKind.ofByte kind = FunctionKind.functional)
  | anonymous (kind args locals : UInt8) (length : UInt16)
      (hkind : FunctionKind.ofByte kind = FunctionKind.anonymous)
  /-- Any other kind has no more fields. -/
  | unknown (kind : UInt8)
      (hkind : FunctionKind.ofByte kind ∉ [FunctionKind.localFunction, FunctionKind.simulEfun,
        FunctionKind.efun, FunctionKind.functional, FunctionKind.anonymous])

namespace FunctionFields

/-- The bytes of the fields. -/
def bytes : FunctionFields → Bytes
  | .localFunction kind index _ | .simulEfun kind index _ | .efun kind index _ =>
    [kind] ++ (Scalar.uint16 index).encode
  | .functional kind args unused _ => [kind] ++ ([args] ++ (Scalar.uint16 unused).encode)
  | .anonymous kind args locals length _ =>
    [kind] ++ ([args] ++ ([locals] ++ (Scalar.uint16 length).encode))
  | .unknown kind _ => [kind]

/-- The function value at a position. -/
def value (p : Program) (opcodes : OpcodeTable) (position : Nat) : FunctionFields → FunctionValue
  | .localFunction _ index _ => .localFunction index (p.callee? index.toNat)
  | .simulEfun _ index _ => .simulEfun index (opcodes.simulEfunName? index)
  | .efun _ index _ => .efun index (opcodes.efunName? index)
  | .functional _ args _ _ => .functional args
  | .anonymous _ args locals length _ => .anonymous args locals (position + 4 + length.toNat)
  | .unknown kind _ => .unknown kind

end FunctionFields

/-- The fields of an operand, by its layout. -/
inductive OperandFields : Encoding → Type where
  | bare : OperandFields .bare
  /-- The number of tags is a byte. -/
  | push (tags : Bytes) (hcount : tags.length ≤ 255) : OperandFields .push
  | forwardBranch (offset : UInt16) : OperandFields .forwardBranch
  | backwardBranch (offset : UInt16) : OperandFields .backwardBranch
  | address (target : UInt16) : OperandFields .address
  | count (size : UInt16) : OperandFields .count
  | byte (value : UInt8) : OperandFields .byte
  | negByte (magnitude : UInt8) : OperandFields .negByte
  | localSlot (slot : UInt8) : OperandFields .localSlot
  | globalSlot (index : UInt8) : OperandFields .globalSlot
  /-- There is a second slot for a mapping only. -/
  | foreach (flags left : UInt8) (right : Option UInt8)
      (hright : right.isSome = ForeachFlag.isSet flags ForeachFlag.mapping) : OperandFields .foreach
  | whileDec (slot : UInt8) (offset : UInt16) : OperandFields .whileDec
  | loopCondNumber (slot : UInt8) (bound : Int32) (offset : UInt16) : OperandFields .loopCondNumber
  | loopCondLocal (slot bound : UInt8) (offset : UInt16) : OperandFields .loopCondLocal
  /-- The number of arguments and the two bytes after it are not shown. -/
  | callByAddress (index : UInt16) (args : UInt8) (unused : UInt16) : OperandFields .callByAddress
  /-- The number of arguments and the two bytes after it are not shown. -/
  | callInherited (ancestor : UInt8) (index : UInt16) (args : UInt8) (unused : UInt16) :
      OperandFields .callInherited
  | simulEfun (index : UInt16) (args : UInt8) : OperandFields .simulEfun
  | functionConstructor (value : FunctionFields) : OperandFields .functionConstructor
  | efun (index : UInt16) : OperandFields .efun
  | efunV (index : UInt16) (args : UInt8) : OperandFields .efunV
  | expandVarargs (depth : UInt8) : OperandFields .expandVarargs
  | classRef (index : UInt8) : OperandFields .classRef
  | shortInt (value : Int16) : OperandFields .shortInt
  | number (value : Int64) : OperandFields .number
  | real (bits : UInt64) : OperandFields .real
  | string (index : UInt16) : OperandFields .string
  | shortString (index : UInt8) : OperandFields .shortString

namespace OperandFields

/-- The bytes of the fields, in the order in which they stand. -/
def bytes {e : Encoding} : OperandFields e → Bytes
  | .bare => []
  | .push tags _ => [UInt8.ofNat tags.length] ++ tags
  | .forwardBranch x | .backwardBranch x | .address x | .count x | .efun x | .string x =>
    (Scalar.uint16 x).encode
  | .byte x | .negByte x | .localSlot x | .globalSlot x | .expandVarargs x | .classRef x
  | .shortString x => [x]
  | .foreach flags left right _ => [flags] ++ ([left] ++ right.toList)
  | .whileDec slot offset => [slot] ++ (Scalar.uint16 offset).encode
  | .loopCondNumber slot bound offset =>
    [slot] ++ ((Scalar.int32 bound).encode ++ (Scalar.uint16 offset).encode)
  | .loopCondLocal slot bound offset => [slot] ++ ([bound] ++ (Scalar.uint16 offset).encode)
  | .callByAddress index args unused =>
    (Scalar.uint16 index).encode ++ ([args] ++ (Scalar.uint16 unused).encode)
  | .callInherited ancestor index args unused =>
    [ancestor] ++ ((Scalar.uint16 index).encode ++ ([args] ++ (Scalar.uint16 unused).encode))
  | .simulEfun index args | .efunV index args => (Scalar.uint16 index).encode ++ [args]
  | .functionConstructor value => value.bytes
  | .shortInt value => (Scalar.int16 value).encode
  | .number value => (Scalar.int64 value).encode
  | .real bits => (Scalar.uint64 bits).encode

/-- What the fields are shown as where they start at `position`. A branch counts from the end of the
operand, `while_dec` from its start, and a loop condition from its last field. -/
def operand {e : Encoding} (p : Program) (opcodes : OpcodeTable) (position : Nat) :
    OperandFields e → Operand
  | .bare => .bare
  | .push tags _ => .push (tags.map PushSlot.ofTag)
  | .forwardBranch offset => .branch offset (Operand.wrap (position + 2) + offset)
  | .backwardBranch offset => .branch offset (Operand.wrap (position + 2) - offset)
  | .address target => .address target
  | .count size => .count size
  | .byte value => .byte value
  | .negByte magnitude => .negByte magnitude
  | .localSlot slot => .localSlot slot
  | .globalSlot index =>
    .globalSlot index (if index.toNat < p.variableCount then p.variableName? index.toNat else none)
  | .foreach flags left right _ => .foreach flags left right
  | .whileDec slot offset => .whileDec slot offset (Operand.wrap position - offset)
  | .loopCondNumber slot bound offset =>
    .loopCond slot (.number bound) offset (Operand.wrap (position + 5) - offset)
  | .loopCondLocal slot bound offset =>
    .loopCond slot (.localSlot bound) offset (Operand.wrap (position + 2) - offset)
  | .callByAddress index _ _ => .call index (p.callee? index.toNat)
  | .callInherited ancestor index _ _ => .callInherited ancestor index (.ofIndex p ancestor index)
  | .simulEfun index args =>
    .simulEfun index args
      (if index.toNat < opcodes.simulEfunCount then opcodes.simulEfunName? index else none)
  | .functionConstructor value => .function (value.value p opcodes position)
  | .efun index => .efun index
  | .efunV index args => .efunV index args
  | .expandVarargs depth => .expandVarargs depth
  | .classRef index => .classRef index (p.className? index.toNat)
  | .shortInt value => .shortInt value
  | .number value => .number value
  | .real bits => .real bits
  | .string index => .string index (p.string? index.toNat)
  | .shortString index => .string index.toUInt16 (p.string? index.toNat)

/-- No fields are shown as a switch. -/
theorem operand_ne_switch {e : Encoding} (fields : OperandFields e) (p : Program)
    (opcodes : OpcodeTable) (position : Nat) (header : SwitchHeader) :
    fields.operand p opcodes position ≠ .switch header := by
  cases fields <;> simp [operand]

end OperandFields

/-! ### Fields are read -/

section Read

open Reader

variable {p : Program} {opcodes : OpcodeTable} {r : Reader}

/-- A function value is read where the bytes of its fields stand. -/
theorem FunctionValue.read_of_holds (fields : FunctionFields) (h : r.Holds fields.bytes) :
    FunctionValue.read p opcodes r =
      .ok (fields.value p opcodes r.position, r.seek (r.position + fields.bytes.length)) := by
  cases fields with
  | localFunction kind index hkind =>
    simp only [FunctionFields.bytes, holds_append] at h
    rw [FunctionValue.read, bind_of_ok (uint8_of_holds h.1), if_pos hkind,
      bind_of_ok (uint16_of_holds h.2)]
    rfl
  | simulEfun kind index hkind =>
    simp only [FunctionFields.bytes, holds_append] at h
    rw [FunctionValue.read, bind_of_ok (uint8_of_holds h.1), if_neg (by rw [hkind]; decide),
      if_pos hkind, bind_of_ok (uint16_of_holds h.2)]
    rfl
  | efun kind index hkind =>
    simp only [FunctionFields.bytes, holds_append] at h
    rw [FunctionValue.read, bind_of_ok (uint8_of_holds h.1), if_neg (by rw [hkind]; decide),
      if_neg (by rw [hkind]; decide), if_pos hkind, bind_of_ok (uint16_of_holds h.2)]
    rfl
  | functional kind args unused hkind =>
    simp only [FunctionFields.bytes, holds_append] at h
    obtain ⟨h1, h2, h3⟩ := h
    rw [FunctionValue.read, bind_of_ok (uint8_of_holds h1), if_neg (by rw [hkind]; decide),
      if_neg (by rw [hkind]; decide), if_neg (by rw [hkind]; decide), if_pos hkind,
      bind_of_ok (uint8_of_holds h2), bind_of_ok (skip_of_holds 2 (by decide) rfl h3)]
    rfl
  | anonymous kind args locals length hkind =>
    simp only [FunctionFields.bytes, holds_append] at h
    obtain ⟨h1, h2, h3, h4⟩ := h
    rw [FunctionValue.read, bind_of_ok (uint8_of_holds h1), if_neg (by rw [hkind]; decide),
      if_neg (by rw [hkind]; decide), if_neg (by rw [hkind]; decide),
      if_neg (by rw [hkind]; decide), if_pos hkind, bind_of_ok (offset_eq_ok _),
      bind_of_ok (uint8_of_holds h2), bind_of_ok (uint8_of_holds h3),
      bind_of_ok (uint16_of_holds h4)]
    rfl
  | unknown kind hkind =>
    simp only [List.mem_cons, List.not_mem_nil, or_false, not_or] at hkind
    rw [FunctionValue.read, bind_of_ok (uint8_of_holds h), if_neg hkind.1, if_neg hkind.2.1,
      if_neg hkind.2.2.1, if_neg hkind.2.2.2.1, if_neg hkind.2.2.2.2]
    rfl

/-- **An operand is read where the bytes of its fields stand**, and the reader then stands behind
them. -/
theorem Operand.read_of_holds {e : Encoding} (fields : OperandFields e) (h : r.Holds fields.bytes) :
    Operand.read p opcodes e r =
      .ok (fields.operand p opcodes r.position, r.seek (r.position + fields.bytes.length)) := by
  cases fields with
  | bare => rfl
  | push tags hcount =>
    simp only [OperandFields.bytes, holds_append] at h
    have hlength : (UInt8.ofNat tags.length).toNat = tags.length :=
      UInt8.toNat_ofNat_of_lt (Nat.lt_succ_of_le hcount)
    rw [Operand.read, bind_of_ok (uint8_of_holds h.1), hlength, bind_of_ok (uint8s_of_holds h.2)]
    simp only [OperandFields.bytes, List.length_append, ← Nat.add_assoc]
    rfl
  | forwardBranch | backwardBranch =>
    rw [Operand.read, bind_of_ok (uint16_of_holds h), bind_of_ok (offset_eq_ok _)]
    rfl
  | address | count | efun | string =>
    rw [Operand.read, bind_of_ok (uint16_of_holds h)]
    rfl
  | byte | negByte | localSlot | globalSlot | expandVarargs | classRef | shortString =>
    rw [Operand.read, bind_of_ok (uint8_of_holds h)]
    rfl
  | foreach flags left right hright =>
    simp only [OperandFields.bytes, holds_append] at h
    obtain ⟨h1, h2, h3⟩ := h
    rw [Operand.read, bind_of_ok (uint8_of_holds h1), bind_of_ok (uint8_of_holds h2)]
    cases right with
    | none =>
      rw [if_neg (by rw [← hright]; decide)]
      rfl
    | some slot =>
      rw [if_pos (by rw [← hright]; rfl), bind_of_ok (uint8_of_holds h3)]
      rfl
  | whileDec =>
    simp only [OperandFields.bytes, holds_append] at h
    rw [Operand.read, bind_of_ok (offset_eq_ok _), bind_of_ok (uint8_of_holds h.1),
      bind_of_ok (uint16_of_holds h.2)]
    rfl
  | loopCondNumber =>
    simp only [OperandFields.bytes, holds_append] at h
    obtain ⟨h1, h2, h3⟩ := h
    rw [Operand.read, bind_of_ok (uint8_of_holds h1), bind_of_ok (int32_of_holds h2), readLoopCond,
      bind_of_ok (offset_eq_ok _), bind_of_ok (uint16_of_holds h3)]
    rfl
  | loopCondLocal =>
    simp only [OperandFields.bytes, holds_append] at h
    obtain ⟨h1, h2, h3⟩ := h
    rw [Operand.read, bind_of_ok (uint8_of_holds h1), bind_of_ok (uint8_of_holds h2), readLoopCond,
      bind_of_ok (offset_eq_ok _), bind_of_ok (uint16_of_holds h3)]
    rfl
  | callByAddress index args unused =>
    have h := (holds_append _ _ _).mp h
    rw [Operand.read, bind_of_ok (uint16_of_holds h.1),
      bind_of_ok (skip_of_holds 3 (by decide) rfl h.2)]
    rfl
  | callInherited ancestor index args unused =>
    obtain ⟨h1, h23⟩ := (holds_append _ _ _).mp h
    obtain ⟨h2, h3⟩ := (holds_append _ _ _).mp h23
    rw [Operand.read, bind_of_ok (uint8_of_holds h1), bind_of_ok (uint16_of_holds h2),
      bind_of_ok (skip_of_holds 3 (by decide) rfl h3)]
    rfl
  | simulEfun | efunV =>
    simp only [OperandFields.bytes, holds_append] at h
    rw [Operand.read, bind_of_ok (uint16_of_holds h.1), bind_of_ok (uint8_of_holds h.2)]
    rfl
  | functionConstructor value =>
    rw [Operand.read, bind_of_ok (FunctionValue.read_of_holds value h)]
    rfl
  | shortInt =>
    rw [Operand.read, bind_of_ok (int16_eq_ok_iff.mpr ⟨h, rfl⟩)]
    rfl
  | number =>
    rw [Operand.read, bind_of_ok (int64_eq_ok_iff.mpr ⟨h, rfl⟩)]
    rfl
  | real =>
    rw [Operand.read, bind_of_ok (uint64_eq_ok_iff.mpr ⟨h, rfl⟩)]
    rfl

/-! ### What is read are fields -/

theorem exists_uint16_encode {bytes : Bytes} (h : bytes.length = 2) :
    ∃ x, (Scalar.uint16 x).encode = bytes :=
  ⟨_, ScalarKind.uint16.encode_decode h⟩

/-- Three bytes are the number of arguments and an unused field of two bytes. -/
theorem exists_callTail {bytes : Bytes} (h : bytes.length = 3) :
    ∃ (args : UInt8) (unused : UInt16), [args] ++ (Scalar.uint16 unused).encode = bytes := by
  obtain ⟨args, rest, rfl⟩ := List.exists_cons_of_length_eq_add_one h
  obtain ⟨unused, rfl⟩ := exists_uint16_encode (Nat.succ.inj h)
  exact ⟨args, unused, rfl⟩

/-- A function value is read only where the bytes of some fields stand. -/
theorem FunctionValue.holds_of_read {x : FunctionValue} {r' : Reader}
    (h : FunctionValue.read p opcodes r = .ok (x, r')) :
    ∃ fields : FunctionFields, r.Holds fields.bytes := by
  obtain ⟨kind, h1, h⟩ := holds_of_bind_uint8 h
  by_cases hlocal : FunctionKind.ofByte kind = FunctionKind.localFunction
  · rw [if_pos hlocal] at h
    obtain ⟨index, h2, -⟩ := holds_of_bind_uint16 h
    exact ⟨.localFunction kind index hlocal, (holds_append _ _ _).mpr ⟨h1, h2⟩⟩
  rw [if_neg hlocal] at h
  by_cases hsimul : FunctionKind.ofByte kind = FunctionKind.simulEfun
  · rw [if_pos hsimul] at h
    obtain ⟨index, h2, -⟩ := holds_of_bind_uint16 h
    exact ⟨.simulEfun kind index hsimul, (holds_append _ _ _).mpr ⟨h1, h2⟩⟩
  rw [if_neg hsimul] at h
  by_cases hefun : FunctionKind.ofByte kind = FunctionKind.efun
  · rw [if_pos hefun] at h
    obtain ⟨index, h2, -⟩ := holds_of_bind_uint16 h
    exact ⟨.efun kind index hefun, (holds_append _ _ _).mpr ⟨h1, h2⟩⟩
  rw [if_neg hefun] at h
  by_cases hfunctional : FunctionKind.ofByte kind = FunctionKind.functional
  · rw [if_pos hfunctional] at h
    obtain ⟨args, h2, h⟩ := holds_of_bind_uint8 h
    obtain ⟨bytes, hlength, h3⟩ := holds_of_bind_skip (by decide) h
    obtain ⟨unused, rfl⟩ := exists_uint16_encode hlength
    refine ⟨.functional kind args unused hfunctional, ?_⟩
    simp only [FunctionFields.bytes, holds_append]
    exact ⟨h1, h2, h3⟩
  rw [if_neg hfunctional] at h
  by_cases hanonymous : FunctionKind.ofByte kind = FunctionKind.anonymous
  · rw [if_pos hanonymous, bind_of_ok (offset_eq_ok _)] at h
    obtain ⟨args, h2, h⟩ := holds_of_bind_uint8 h
    obtain ⟨locals, h3, h⟩ := holds_of_bind_uint8 h
    obtain ⟨length, h4, -⟩ := holds_of_bind_uint16 h
    refine ⟨.anonymous kind args locals length hanonymous, ?_⟩
    simp only [FunctionFields.bytes, holds_append]
    exact ⟨h1, h2, h3, h4⟩
  exact ⟨.unknown kind (by simp [*]), h1⟩

/-- **An operand is read only where the bytes of some fields stand.** -/
theorem Operand.holds_of_read {e : Encoding} {x : Operand} {r' : Reader} (he : e ≠ .switch)
    (h : Operand.read p opcodes e r = .ok (x, r')) :
    ∃ fields : OperandFields e, r.Holds fields.bytes := by
  cases e with
  | switch => exact absurd rfl he
  | bare => exact ⟨.bare, trivial⟩
  | push =>
    obtain ⟨count, h1, h⟩ := holds_of_bind_uint8 h
    obtain ⟨tags, _, htags, -⟩ := bind_eq_ok_iff.mp h
    obtain ⟨hlength, h2, -⟩ := uint8s_eq_ok_iff.mp htags
    have hcount : tags.length ≤ 255 := hlength ▸ Nat.le_of_lt_succ count.toNat_lt
    refine ⟨.push tags hcount, (holds_append _ _ _).mpr ⟨?_, h2⟩⟩
    rwa [hlength, UInt8.ofNat_toNat]
  | forwardBranch =>
    obtain ⟨value, hvalue, -⟩ := holds_of_bind_uint16 h
    exact ⟨.forwardBranch value, hvalue⟩
  | backwardBranch =>
    obtain ⟨value, hvalue, -⟩ := holds_of_bind_uint16 h
    exact ⟨.backwardBranch value, hvalue⟩
  | address =>
    obtain ⟨value, hvalue, -⟩ := holds_of_bind_uint16 h
    exact ⟨.address value, hvalue⟩
  | count =>
    obtain ⟨value, hvalue, -⟩ := holds_of_bind_uint16 h
    exact ⟨.count value, hvalue⟩
  | efun =>
    obtain ⟨value, hvalue, -⟩ := holds_of_bind_uint16 h
    exact ⟨.efun value, hvalue⟩
  | string =>
    obtain ⟨value, hvalue, -⟩ := holds_of_bind_uint16 h
    exact ⟨.string value, hvalue⟩
  | byte =>
    obtain ⟨value, hvalue, -⟩ := holds_of_bind_uint8 h
    exact ⟨.byte value, hvalue⟩
  | negByte =>
    obtain ⟨value, hvalue, -⟩ := holds_of_bind_uint8 h
    exact ⟨.negByte value, hvalue⟩
  | localSlot =>
    obtain ⟨value, hvalue, -⟩ := holds_of_bind_uint8 h
    exact ⟨.localSlot value, hvalue⟩
  | globalSlot =>
    obtain ⟨value, hvalue, -⟩ := holds_of_bind_uint8 h
    exact ⟨.globalSlot value, hvalue⟩
  | expandVarargs =>
    obtain ⟨value, hvalue, -⟩ := holds_of_bind_uint8 h
    exact ⟨.expandVarargs value, hvalue⟩
  | classRef =>
    obtain ⟨value, hvalue, -⟩ := holds_of_bind_uint8 h
    exact ⟨.classRef value, hvalue⟩
  | shortString =>
    obtain ⟨value, hvalue, -⟩ := holds_of_bind_uint8 h
    exact ⟨.shortString value, hvalue⟩
  | foreach =>
    obtain ⟨flags, h1, h⟩ := holds_of_bind_uint8 h
    obtain ⟨left, h2, h⟩ := holds_of_bind_uint8 h
    by_cases hmapping : ForeachFlag.isSet flags ForeachFlag.mapping = true
    · rw [if_pos hmapping] at h
      obtain ⟨right, h3, -⟩ := holds_of_bind_uint8 h
      refine ⟨.foreach flags left (some right) hmapping.symm, ?_⟩
      simp only [OperandFields.bytes, holds_append]
      exact ⟨h1, h2, h3⟩
    · refine ⟨.foreach flags left none (by simpa using hmapping), ?_⟩
      simp only [OperandFields.bytes, holds_append]
      exact ⟨h1, h2, trivial⟩
  | whileDec =>
    rw [Operand.read, bind_of_ok (offset_eq_ok _)] at h
    obtain ⟨slot, h1, h⟩ := holds_of_bind_uint8 h
    obtain ⟨offset, h2, -⟩ := holds_of_bind_uint16 h
    exact ⟨.whileDec slot offset, (holds_append _ _ _).mpr ⟨h1, h2⟩⟩
  | loopCondNumber =>
    obtain ⟨slot, h1, h⟩ := holds_of_bind_uint8 h
    obtain ⟨bound, h2, h⟩ := holds_of_bind_int32 h
    rw [readLoopCond, bind_of_ok (offset_eq_ok _)] at h
    obtain ⟨offset, h3, -⟩ := holds_of_bind_uint16 h
    refine ⟨.loopCondNumber slot bound offset, ?_⟩
    simp only [OperandFields.bytes, holds_append]
    exact ⟨h1, h2, h3⟩
  | loopCondLocal =>
    obtain ⟨slot, h1, h⟩ := holds_of_bind_uint8 h
    obtain ⟨bound, h2, h⟩ := holds_of_bind_uint8 h
    rw [readLoopCond, bind_of_ok (offset_eq_ok _)] at h
    obtain ⟨offset, h3, -⟩ := holds_of_bind_uint16 h
    refine ⟨.loopCondLocal slot bound offset, ?_⟩
    simp only [OperandFields.bytes, holds_append]
    exact ⟨h1, h2, h3⟩
  | callByAddress =>
    obtain ⟨index, h1, h⟩ := holds_of_bind_uint16 h
    obtain ⟨bytes, hlength, h2⟩ := holds_of_bind_skip (by decide) h
    obtain ⟨args, unused, rfl⟩ := exists_callTail hlength
    exact ⟨.callByAddress index args unused, (holds_append _ _ _).mpr ⟨h1, h2⟩⟩
  | callInherited =>
    obtain ⟨ancestor, h1, h⟩ := holds_of_bind_uint8 h
    obtain ⟨index, h2, h⟩ := holds_of_bind_uint16 h
    obtain ⟨bytes, hlength, h3⟩ := holds_of_bind_skip (by decide) h
    obtain ⟨args, unused, rfl⟩ := exists_callTail hlength
    exact ⟨.callInherited ancestor index args unused,
      (holds_append _ _ _).mpr ⟨h1, (holds_append _ _ _).mpr ⟨h2, h3⟩⟩⟩
  | simulEfun =>
    obtain ⟨index, h1, h⟩ := holds_of_bind_uint16 h
    obtain ⟨args, h2, -⟩ := holds_of_bind_uint8 h
    exact ⟨.simulEfun index args, (holds_append _ _ _).mpr ⟨h1, h2⟩⟩
  | efunV =>
    obtain ⟨index, h1, h⟩ := holds_of_bind_uint16 h
    obtain ⟨args, h2, -⟩ := holds_of_bind_uint8 h
    exact ⟨.efunV index args, (holds_append _ _ _).mpr ⟨h1, h2⟩⟩
  | functionConstructor =>
    obtain ⟨value, _, hvalue, -⟩ := bind_eq_ok_iff.mp h
    obtain ⟨fields, hfields⟩ := FunctionValue.holds_of_read hvalue
    exact ⟨.functionConstructor fields, hfields⟩
  | shortInt =>
    obtain ⟨value, _, hvalue, -⟩ := bind_eq_ok_iff.mp h
    exact ⟨.shortInt value, (int16_eq_ok_iff.mp hvalue).1⟩
  | number =>
    obtain ⟨value, _, hvalue, -⟩ := bind_eq_ok_iff.mp h
    exact ⟨.number value, (int64_eq_ok_iff.mp hvalue).1⟩
  | real =>
    obtain ⟨value, _, hvalue, -⟩ := bind_eq_ok_iff.mp h
    exact ⟨.real value, (uint64_eq_ok_iff.mp hvalue).1⟩

/-- What an operand is read as, and where its reader then stands. -/
theorem Operand.eq_of_read {e : Encoding} {x : Operand} {r' : Reader} (he : e ≠ .switch)
    (h : Operand.read p opcodes e r = .ok (x, r')) :
    ∃ fields : OperandFields e, r.Holds fields.bytes ∧
      x = fields.operand p opcodes r.position ∧ r' = r.seek (r.position + fields.bytes.length) := by
  obtain ⟨fields, hholds⟩ := Operand.holds_of_read he h
  rw [Operand.read_of_holds fields hholds] at h
  cases h
  exact ⟨fields, hholds, rfl, rfl⟩

end Read
end LpcInspect
