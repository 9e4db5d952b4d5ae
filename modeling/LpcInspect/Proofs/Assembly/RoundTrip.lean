import LpcInspect.Proofs.Assembly.SwitchTable
import LpcInspect.Proofs.Listing.Reference

/-!
# Assembled code is listed as it was written

Where the bytes of a `CodeTree` stand in some code, a listing shows the records of the tree and goes
on after it. So the listing of an assembled tree is that of the tree, for every tree whose table
offsets fit in their fields and whose switches are not nested too deeply.
-/

namespace LpcInspect

/-! ### Instructions -/

namespace CodeTree

/-- An instruction stands before the rest of its tree. -/
theorem holds_plain {code : Array UInt8} {stop position : Nat} {op : Opcode}
    {hop : op ∈ Opcode.all} {fields : OperandFields op.encoding} {rest : CodeTree}
    (h : (Reader.window code stop position).Holds (plain op hop fields rest).bytes) :
    (Reader.window code stop position).Holds [op.byte] ∧
      (Reader.window code stop (position + 1)).Holds fields.bytes ∧
      (Reader.window code stop (position + 1 + fields.bytes.length)).Holds rest.bytes := by
  simp only [bytes, Reader.holds_append] at h
  exact h

/-- The parts of a switch stand one after the other. -/
theorem holds_switch {code : Array UInt8} {stop position : Nat} {fallback : UInt16}
    {body rest : CodeTree} {table : TableFields}
    (h : (Reader.window code stop position).Holds (switch fallback body table rest).bytes) :
    (Reader.window code stop position).Holds [Opcode.switch.byte] ∧
      (Reader.window code stop (position + 1)).Holds
        (header fallback body.bytes.length table).bytes ∧
      (Reader.window code stop (position + 1 + 7)).Holds body.bytes ∧
      (Reader.window code stop (position + 1 + (7 + body.bytes.length))).Holds table.bytes ∧
      (Reader.window code stop
        (position + 1 + (7 + body.bytes.length + table.bytes.length))).Holds rest.bytes := by
  simp only [bytes, Reader.holds_append] at h
  obtain ⟨hopcode, hheader, hbody, htable, hrest⟩ := h
  refine ⟨hopcode, hheader, hbody, ?_, ?_⟩
  · rw [← Nat.add_assoc]
    exact htable
  · rw [← Nat.add_assoc, ← Nat.add_assoc]
    exact hrest

end CodeTree

namespace Disassembler

variable {d : Disassembler} {efuns simulEfuns : List String}

/-- Without source lines and functions, nothing is shown before an item. -/
theorem listing_of_opcode (hlocate : d.locate? = fun _ => none) {position stop : Nat}
    {opcode : UInt8} (h : (Reader.window d.program.code stop position).Holds [opcode])
    (depth : Nat) :
    d.listing depth stop none [] position =
      (d.item depth position stop opcode).records ++
        (d.bodyListing depth (d.item depth position stop opcode).body? ++
          d.listing depth stop none [] (d.item depth position stop opcode).next) := by
  have hnew : d.newLocation? none position = none := by
    rw [newLocation?, hlocate]
    rfl
  have hpos : position < stop := Nat.lt_of_lt_of_le h.1 (Nat.min_le_left _ _)
  rw [listing_of_some hpos h.2.1, heading, hnew]
  simp

theorem shownMnemonic_operand (d : Disassembler) (op : Opcode) {e : Encoding}
    (fields : OperandFields e) (position : Nat) :
    d.shownMnemonic op.mnemonic (fields.operand d.program d.opcodes position) =
      CodeTree.mnemonic d.opcodes op fields := by
  cases fields <;> rfl

/-- An instruction of the standard set is decoded where its fields stand. -/
theorem item_of_holds (hopcodes : d.opcodes = .standard efuns simulEfuns) {op : Opcode}
    (hop : op ∈ Opcode.all) (fields : OperandFields op.encoding) {position stop : Nat}
    (h : (Reader.window d.program.code stop (position + 1)).Holds fields.bytes) (depth : Nat) :
    d.item depth position stop op.byte =
      ⟨[.instruction ⟨position, op.byte, CodeTree.mnemonic d.opcodes op fields,
          fields.operand d.program d.opcodes (position + 1), position + 1 + fields.bytes.length⟩],
        position + 1 + fields.bytes.length, none⟩ := by
  have hbyte := Opcode.ofByte?_byte op hop
  have hzero : op.byte ≠ 0 := by
    intro hzero
    rw [hzero, Opcode.ofByte?_zero] at hbyte
    cases hbyte
  have hencoding : d.opcodes.encoding? op.byte = some op.encoding := by
    rw [hopcodes]
    exact congrArg (Option.map Opcode.encoding) hbyte
  have hmnemonic : d.opcodes.mnemonic? op.byte = some op.mnemonic := by
    rw [hopcodes]
    exact congrArg (Option.map Opcode.mnemonic) hbyte
  have hswitch : op.encoding ≠ .switch := by
    generalize op.encoding = e at fields
    cases fields <;> simp
  have hplain : d.item depth position stop op.byte =
      d.plainItem position stop op.byte op.mnemonic op.encoding := by
    rw [item, if_neg hzero]
    simp only [hencoding, hmnemonic, Option.getD_some]
  rw [hplain, plainItem, operandReader, Operand.read_of_holds fields h]
  simp only [← d.shownMnemonic_operand op fields (position + 1)]
  rfl

/-- The fields of a switch are read where its header stands. -/
theorem switchFields?_of_holds (hopcodes : d.opcodes = .standard efuns simulEfuns)
    {position stop : Nat} {fields : Writer.SwitchFields}
    (h : (Reader.window d.program.code stop (position + 1)).Holds fields.bytes) :
    d.switchFields? position stop Opcode.switch.byte = some fields := by
  simp only [Writer.SwitchFields.bytes, Reader.holds_append] at h
  obtain ⟨htype, hstart, hend, hfallback⟩ := h
  have hencoding : d.opcodes.encoding? Opcode.switch.byte = some .switch := by
    rw [hopcodes]
    rfl
  rw [switchFields?, if_pos ⟨by decide, hencoding⟩, readSwitchHeader, operandReader,
    Reader.bind_of_ok (Reader.uint8_of_holds htype),
    Reader.bind_of_ok (Reader.uint16_of_holds hstart),
    Reader.bind_of_ok (Reader.uint16_of_holds hend),
    Reader.bind_of_ok (Reader.uint16_of_holds hfallback)]
  rfl

/-- A switch that is not nested too deeply is decoded, and its body comes next. -/
theorem item_of_header (hopcodes : d.opcodes = .standard efuns simulEfuns) {fallback : UInt16}
    {bodySize depth position stop : Nat} {table : TableFields}
    (hfits : 7 + bodySize + table.bytes.length < 65536)
    (hstop : position + 1 + (7 + bodySize + table.bytes.length) ≤ stop)
    (hdepth : depth ≤ d.settings.maxSwitchDepth)
    (h : (Reader.window d.program.code stop (position + 1)).Holds
      (CodeTree.header fallback bodySize table).bytes) :
    d.item depth position stop Opcode.switch.byte =
      ⟨[.instruction ⟨position, Opcode.switch.byte, Opcode.switch.mnemonic,
          .switch ⟨table.tableType, position + 1 + (7 + bodySize),
            position + 1 + (7 + bodySize + table.bytes.length), position + 1 + fallback.toNat⟩,
          position + 1 + (7 + bodySize + table.bytes.length)⟩],
        position + 1 + (7 + bodySize + table.bytes.length),
        some ⟨position, table.layout, position + 1 + (7 + bodySize),
          position + 1 + (7 + bodySize + table.bytes.length)⟩⟩ := by
  have hmnemonic : d.opcodes.mnemonic? Opcode.switch.byte = some Opcode.switch.mnemonic := by
    rw [hopcodes]
    rfl
  rw [item_of_switchFields?_some (switchFields?_of_holds hopcodes h),
    CodeTree.locate?_header hfits fallback hstop]
  dsimp only
  rw [if_neg (Nat.not_lt.mpr hdepth), switchInstruction, hmnemonic]
  simp only [CodeTree.toNat_tableStart hfits, CodeTree.toNat_tableEnd hfits]
  rfl

/-- **Where the bytes of a tree stand, its records are listed**, and the listing goes on after it.
-/
theorem listing_of_holds (hopcodes : d.opcodes = .standard efuns simulEfuns)
    (hlocate : d.locate? = fun _ => none) (hwidth : d.settings.switchKeyWidth = 8) (c : CodeTree)
    (depth stop position : Nat) (hfits : c.Fits)
    (hdepth : depth + c.depth ≤ d.settings.maxSwitchDepth + 1)
    (h : (Reader.window d.program.code stop position).Holds c.bytes) :
    d.listing depth stop none [] position = c.records d.program d.opcodes position ++
      d.listing depth stop none [] (position + c.bytes.length) := by
  induction c generalizing depth stop position with
  | done => rfl
  | plain op hop fields rest ih =>
    obtain ⟨hopcode, hfields, hrest⟩ := CodeTree.holds_plain h
    have hlength : position + (CodeTree.plain op hop fields rest).bytes.length =
        position + 1 + fields.bytes.length + rest.bytes.length := by
      simp only [CodeTree.bytes, List.length_append, List.length_singleton]
      omega
    rw [listing_of_opcode hlocate hopcode, item_of_holds hopcodes hop fields hfields, hlength]
    dsimp only
    rw [ih depth stop _ hfits hdepth hrest, CodeTree.records]
    rfl
  | switch fallback body table rest ihBody ihRest =>
    obtain ⟨hopcode, hheader, hbody, htable, hrest⟩ := CodeTree.holds_switch h
    obtain ⟨hfits, hfitsBody, hfitsRest⟩ := hfits
    have hdepthBody : depth + 1 + body.depth ≤ d.settings.maxSwitchDepth + 1 := by
      have := Nat.le_max_left (body.depth + 1) rest.depth
      rw [CodeTree.depth] at hdepth
      omega
    have hdepthRest : depth + rest.depth ≤ d.settings.maxSwitchDepth + 1 :=
      Nat.le_trans (Nat.add_le_add_left (Nat.le_max_right _ _) depth) hdepth
    have hlength : position + (CodeTree.switch fallback body table rest).bytes.length =
        position + 1 + (7 + body.bytes.length + table.bytes.length) + rest.bytes.length := by
      have : (CodeTree.header fallback body.bytes.length table).bytes.length = 7 := rfl
      simp only [CodeTree.bytes, List.length_append, List.length_singleton, this]
      omega
    have hstop : position + 1 + (7 + body.bytes.length + table.bytes.length) ≤ stop := by
      have hle := h.position_add_le (Nat.le_of_lt hopcode.1)
      simp only [Reader.window, hlength] at hle
      omega
    -- The window of the body ends where the table starts, so the body is listed to its end.
    have hlisted : d.listing (depth + 1) (position + 1 + (7 + body.bytes.length)) none []
        (position + 1 + 7) = body.records d.program d.opcodes (position + 1 + 7) := by
      rw [ihBody (depth + 1) _ _ hfitsBody hdepthBody (hbody.of_window (by omega)),
        listing_of_le d (depth + 1) none [] (by omega), List.append_nil]
    have hentries := table.records_of_holds d.program position
      (Nat.add_assoc (position + 1) (7 + body.bytes.length) table.bytes.length)
      (htable.of_window (Nat.le_of_eq (Nat.add_assoc _ _ _)))
    rw [listing_of_opcode hlocate hopcode,
      item_of_header hopcodes hfits hstop (by omega) hheader, hlength]
    dsimp only [bodyListing, SwitchTable.bodyStart, SwitchTable.base, SwitchTable.headerSize]
    rw [hwidth, hlisted, hentries, ihRest depth stop _ hfitsRest hdepthRest hrest,
      CodeTree.records]
    simp only [List.append_assoc, List.cons_append, List.nil_append]

/-- The listing of a program whose code is that of a tree. -/
theorem decodeAll_of_code (hopcodes : d.opcodes = .standard efuns simulEfuns)
    (hlocate : d.locate? = fun _ => none) (hwidth : d.settings.switchKeyWidth = 8)
    (hfunctions : d.program.functions = []) {c : CodeTree}
    (hcode : d.program.code = c.bytes.toArray) (hfits : c.Fits)
    (hdepth : c.depth ≤ d.settings.maxSwitchDepth) :
    d.decodeAll = c.records d.program d.opcodes 0 := by
  have hsize : d.program.size = c.bytes.length := by
    rw [Program.size, hcode]
    rfl
  have hmarkers (stop : Nat) : Marker.ofProgram d.program stop = [] := by
    simp [Marker.ofProgram, hfunctions]
  have hholds : (Reader.window d.program.code c.bytes.length 0).Holds c.bytes := by
    rw [hcode]
    exact Reader.holds_toArray c.bytes
  have hlisting := listing_of_holds hopcodes hlocate hwidth c 1 c.bytes.length 0 hfits (by omega)
    hholds
  rw [listing_of_le d 1 none [] (Nat.le_of_eq (Nat.zero_add _).symm), List.append_nil] at hlisting
  rw [decodeAll, decode_eq_stackListing]
  simp [window, Cursor.stackListing, Frame.listing, Frame.closing, hmarkers, hsize, hlisting]

end Disassembler

/-- **Assembled code is listed as it was written**, in every program that has it as its code and
defines no functions. -/
theorem Disassembler.decodeAll_emit (c : CodeTree) (hfits : c.Fits) :
    ∃ w, c.emit .empty = some w ∧
      ∀ (p : Program) (efuns simulEfuns : List String) (settings : DecoderSettings),
        p.code = w.buffer → p.functions = [] → settings.switchKeyWidth = 8 →
        c.depth ≤ settings.maxSwitchDepth →
          Disassembler.decodeAll { program := p, opcodes := .standard efuns simulEfuns, settings } =
            c.records p (.standard efuns simulEfuns) 0 := by
  refine ⟨_, c.emit_eq .empty, ?_⟩
  intro p efuns simulEfuns settings hcode hfunctions hwidth hdepth
  have hbuffer : (Writer.empty.bytes c.bytes).buffer = c.bytes.toArray := Array.empty_append
  exact decodeAll_of_code rfl rfl hwidth hfunctions (hcode.trans hbuffer) hfits hdepth

/-- A switch by numbers whose body holds a number and a switch by strings. -/
def CodeTree.nested : CodeTree :=
  .switch 10
    (.plain .shortInt (by decide) (.shortInt (-2))
      (.switch 9 .done (.string 0 [(0, 7), (1, 1), (2, 300)] (by decide)) .done))
    (.direct [12, 65535] (-1))
    (.plain .real (by decide) (.real 0x7ff8000000000001) .done)

theorem Disassembler.decodeAll_emit_nested :
    CodeTree.nested.Fits ∧ ∃ w, CodeTree.nested.emit .empty = some w ∧
      ({ program := { code := w.buffer, strings := [[97]] }, opcodes := .standard,
         settings := { maxSwitchDepth := 2 } } : Disassembler).decodeAll =
        [.instruction ⟨0, 0x67, "switch", .switch ⟨0xfe, 49, 57, 11⟩, 57⟩,
          .instruction ⟨8, 0x08, "short_int", .shortInt (-2), 11⟩,
          .instruction ⟨11, 0x67, "switch", .switch ⟨0, 19, 49, 21⟩, 49⟩,
          .switchTable 11,
          .switchEntry ⟨.integer 0, .address 19⟩,
          .switchEntry ⟨.string [97], .rangeStart⟩,
          .switchEntry ⟨.missingString 2, .address 312⟩,
          .switchTable 0,
          .switchEntry ⟨.slot 0, .address 13⟩,
          .switchEntry ⟨.slot 1, .address 65536⟩,
          .switchMinimum (-1),
          .instruction ⟨57, 0x0a, "real", .real 0x7ff8000000000001, 66⟩] := by
  have hfits : CodeTree.nested.Fits := by simp only [CodeTree.nested, CodeTree.Fits]; decide
  obtain ⟨w, hemit, hlisting⟩ := decodeAll_emit CodeTree.nested hfits
  refine ⟨hfits, w, hemit, ?_⟩
  rw [hlisting { code := w.buffer, strings := [[97]] } [] [] { maxSwitchDepth := 2 } rfl rfl rfl
    (by decide)]
  rfl

end LpcInspect
