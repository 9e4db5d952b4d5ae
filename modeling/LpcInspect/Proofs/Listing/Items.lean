import LpcInspect.Proofs.Assembly.CodeTree
import LpcInspect.Proofs.Bytes.Reads
import LpcInspect.Proofs.Listing.Reference

/-!
# What an item depends on

The opcode alone decides in which of three ways an item is decoded: as a byte that is no
instruction, as a switch, or as an instruction with an operand. The last two read fields, and by
`Reader.Reads` they depend on the bytes of these fields and on their place.
-/

namespace LpcInspect

/-- An operand is read from its fields. -/
theorem Operand.reads {e : Encoding} (he : e ≠ .switch) (p : Program) (opcodes : OpcodeTable) :
    Reader.Reads (Operand.read p opcodes e) (fun fields : OperandFields e => fields.bytes)
      fun fields position => fields.operand p opcodes position := by
  intro r r' x
  constructor
  · intro h
    exact Operand.eq_of_read he h
  · rintro ⟨fields, hholds, rfl, rfl⟩
    exact Operand.read_of_holds fields hholds

namespace Disassembler

/-- The header of a switch is read from its fields. -/
theorem reads_switchHeader : Reader.Reads readSwitchHeader Writer.SwitchFields.bytes fun fields _ =>
    (fields.tableType, fields.tableStart, fields.tableEnd, fields.fallback) := by
  intro r r' x
  simp only [readSwitchHeader, Reader.bind_eq_ok_iff, Reader.pure_eq_ok_iff, Reader.uint8_eq_ok_iff,
    Reader.uint16_eq_ok_iff]
  constructor
  · rintro ⟨a, _, ⟨ha, rfl⟩, b, _, ⟨hb, rfl⟩, c, _, ⟨hc, rfl⟩, f, _, ⟨hf, rfl⟩, rfl, rfl⟩
    refine ⟨⟨a, b, c, f⟩, ?_, rfl, rfl⟩
    simp only [Writer.SwitchFields.bytes, Reader.holds_append]
    exact ⟨ha, hb, hc, hf⟩
  · rintro ⟨⟨a, b, c, f⟩, hholds, rfl, rfl⟩
    simp only [Writer.SwitchFields.bytes, Reader.holds_append] at hholds
    obtain ⟨ha, hb, hc, hf⟩ := hholds
    exact ⟨a, _, ⟨ha, rfl⟩, b, _, ⟨hb, rfl⟩, c, _, ⟨hc, rfl⟩, f, _, ⟨hf, rfl⟩, rfl, rfl⟩

/-- **The opcode decides how an item is decoded**, the same for all windows and depths. -/
theorem item_cases (opcodes : OpcodeTable) (opcode : UInt8) :
    (∃ cause, ∀ d : Disassembler, d.opcodes = opcodes → ∀ depth position stop,
      d.item depth position stop opcode = ⟨[.diagnostic position cause], position + 1, none⟩) ∨
    (∃ mnemonic, ∀ d : Disassembler, d.opcodes = opcodes → ∀ depth position stop,
      d.item depth position stop opcode = d.switchItem depth position stop opcode mnemonic) ∨
    ∃ mnemonic encoding, encoding ≠ .switch ∧
      ∀ d : Disassembler, d.opcodes = opcodes → ∀ depth position stop,
        d.item depth position stop opcode =
          d.plainItem position stop opcode mnemonic encoding := by
  by_cases hzero : opcode = 0
  · refine .inl ⟨.zeroOpcode, fun d hd depth position stop => ?_⟩
    rw [item, if_pos hzero]
  · cases hencoding : opcodes.encoding? opcode with
    | none =>
      refine .inl ⟨.unknownOpcode opcode ((opcodes.mnemonic? opcode).getD "unknown"), ?_⟩
      rintro d rfl depth position stop
      rw [item, if_neg hzero, hencoding]
    | some encoding =>
      by_cases hswitch : encoding = .switch
      · refine .inr (.inl ⟨(opcodes.mnemonic? opcode).getD "unknown", ?_⟩)
        rintro d rfl depth position stop
        rw [item, if_neg hzero, hencoding, hswitch]
      · refine .inr (.inr ⟨(opcodes.mnemonic? opcode).getD "unknown", encoding, hswitch, ?_⟩)
        rintro d rfl depth position stop
        rw [item, if_neg hzero, hencoding]
        cases encoding <;> first | rfl | exact absurd rfl hswitch

end Disassembler
end LpcInspect
