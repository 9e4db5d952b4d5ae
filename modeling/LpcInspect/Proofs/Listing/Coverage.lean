import Mathlib.Logic.Basic
import Mathlib.Logic.ExistsUnique
import LpcInspect.Proofs.Listing.OperandFields
import LpcInspect.Proofs.Listing.Reference

/-!
# Every byte of a window is accounted for

The steps of a window follow each other without a gap: each starts where the one before it ended,
and the last one ends at the end of the window. A step takes its bytes in exactly one of six ways,
and only a switch whose body is listed leaves some of them to another window, between its header and
its table. `WindowLog` says this of the moves of a window, the windows inside of it included, and
`Disassembler.decode_accounts_for_bytes` says that the moves of every listing are so. It follows
that the extents of the moves tile the window.
-/

namespace LpcInspect

/-! ### What a step takes -/

/-- The ways in which a step takes bytes. -/
inductive StepKind where
  /-- An instruction other than a switch. -/
  | instruction
  /-- A byte that is no opcode. -/
  | badByte
  /-- An instruction that goes on after the end of the window. -/
  | truncated
  /-- A switch whose table cannot be placed. -/
  | malformedSwitch
  /-- A switch inside of too many others. -/
  | skippedSwitch
  /-- A switch whose body is listed. -/
  | listedSwitch
  deriving DecidableEq, Repr

namespace StepKind

/-- `kind.Describes position stop item` says that the item takes the bytes from `position` on in
this way, in a window that ends at `stop`. -/
def Describes (position stop : Nat) (item : Item) : StepKind → Prop
  | .instruction => ∃ i : Instruction, item.records = [.instruction i] ∧ i.offset = position ∧
      i.next = item.next ∧ (∀ header, i.operand ≠ .switch header) ∧ item.body? = none
  | .badByte => ∃ cause, (cause = .zeroOpcode ∨ ∃ opcode name, cause = .unknownOpcode opcode name) ∧
      item.records = [.diagnostic position cause] ∧ item.next = position + 1 ∧ item.body? = none
  | .truncated => item.records = [.diagnostic position .truncated] ∧ item.next = stop ∧
      item.body? = none
  | .malformedSwitch => ∃ (i : Instruction) (header : SwitchHeader), i.offset = position ∧
      i.operand = .switch header ∧
      item.records = [.instruction i, .diagnostic position .malformedSwitch] ∧ item.next = stop ∧
      item.body? = none
  | .skippedSwitch => ∃ (i : Instruction) (header : SwitchHeader), i.offset = position ∧
      i.operand = .switch header ∧
      item.records = [.instruction i, .diagnostic position .nestingTooDeep] ∧
      item.next = header.tableEnd ∧ item.body? = none
  | .listedSwitch => ∃ (i : Instruction) (header : SwitchHeader) (table : SwitchTable),
      i.offset = position ∧ i.operand = .switch header ∧ item.records = [.instruction i] ∧
      item.body? = some table ∧ table.bodyStart = position + 8 ∧
      table.start = header.tableStart ∧ table.stop = header.tableEnd ∧
      position + 8 ≤ table.start ∧ table.start ≤ table.stop ∧ table.stop ≤ stop ∧
      item.next = table.stop

end StepKind

namespace Disassembler

variable {d : Disassembler} {position stop : Nat} {opcode : UInt8}

/-- The operand of a plain instruction ends inside of the window. -/
theorem plainItem_describes (hpos : position < stop)
    (hopcode : d.program.code[position]? = some opcode) {encoding : Encoding}
    (hencoding : encoding ≠ .switch) (mnemonic : String) :
    let item := d.plainItem position stop opcode mnemonic encoding
    (StepKind.instruction.Describes position stop item ∨
      StepKind.truncated.Describes position stop item) ∧ item.next ≤ stop := by
  intro item
  have hitem : item = d.plainItem position stop opcode mnemonic encoding := rfl
  unfold plainItem at hitem
  split at hitem
  · next operand r hread =>
    obtain ⟨fields, hholds, rfl, rfl⟩ := Operand.eq_of_read hencoding hread
    have hsize : position < d.program.code.size := (Array.getElem?_eq_some_iff.mp hopcode).1
    have hle := hholds.position_add_le (by
      show position + 1 ≤ min stop d.program.code.size
      omega)
    rw [hitem]
    refine ⟨.inl ⟨_, rfl, rfl, rfl, ?_, rfl⟩, Nat.le_trans hle (Nat.min_le_left _ _)⟩
    intro header
    exact fields.operand_ne_switch _ _ _ header
  · rw [hitem]
    exact ⟨.inr ⟨rfl, rfl, rfl⟩, Nat.le_refl _⟩

/-- A switch whose header can be read is malformed, passed over or listed. -/
theorem switch_describes {fields : Writer.SwitchFields}
    (hfields : d.switchFields? position stop opcode = some fields) (depth : Nat) :
    let item := d.item depth position stop opcode
    (∃ kind : StepKind, kind.Describes position stop item) ∧ item.next ≤ stop := by
  rw [item_of_switchFields?_some hfields]
  split
  · exact ⟨⟨.malformedSwitch, _, _, rfl, rfl, rfl, rfl, rfl⟩, Nat.le_refl _⟩
  · next table htable =>
    obtain ⟨hoffset, hbody, hstart, hstop⟩ := SwitchTable.bounds_of_locate? htable
    have hbodyStart : table.bodyStart = position + 8 := by
      rw [SwitchTable.bodyStart, SwitchTable.base, hoffset, SwitchTable.headerSize]
    have hplace : table.start = position + 1 + fields.tableStart.toNat ∧
        table.stop = position + 1 + fields.tableEnd.toNat := by
      simp only [SwitchTable.locate?] at htable
      split at htable
      · cases htable
        exact ⟨rfl, rfl⟩
      · cases htable
    split
    · exact ⟨⟨.skippedSwitch, _, _, rfl, rfl, rfl, hplace.2, rfl⟩, hstop⟩
    · exact ⟨⟨.listedSwitch, _, _, table, rfl, rfl, rfl, rfl, hbodyStart, hplace.1, hplace.2,
        hbodyStart ▸ hbody, hstart, hstop, rfl⟩, hstop⟩

/-- An item takes bytes in one of the six ways, and all of them from the window. -/
theorem item_describes (hpos : position < stop)
    (hopcode : d.program.code[position]? = some opcode) (depth : Nat) :
    let item := d.item depth position stop opcode
    (∃ kind : StepKind, kind.Describes position stop item) ∧ item.next ≤ stop := by
  cases hfields : d.switchFields? position stop opcode with
  | some fields => exact switch_describes hfields depth
  | none =>
    by_cases hzero : opcode = 0
    · rw [item, if_pos hzero]
      exact ⟨⟨.badByte, _, .inl rfl, rfl, rfl, rfl⟩, hpos⟩
    · rw [item, if_neg hzero]
      cases hencoding : d.opcodes.encoding? opcode with
      | none => exact ⟨⟨.badByte, _, .inr ⟨_, _, rfl⟩, rfl, rfl, rfl⟩, hpos⟩
      | some encoding =>
        by_cases hswitch : encoding = .switch
        · -- A switch without fields is one whose header is cut off.
          subst hswitch
          rw [switchFields?, if_pos ⟨hzero, hencoding⟩] at hfields
          dsimp only
          unfold switchItem
          split at hfields
          · cases hfields
          · next hread =>
            rw [hread]
            exact ⟨⟨.truncated, rfl, rfl, rfl⟩, Nat.le_refl _⟩
        · have hplain : d.item depth position stop opcode = d.plainItem position stop opcode
              ((d.opcodes.mnemonic? opcode).getD "unknown") encoding := by
            rw [item, if_neg hzero, hencoding]
            cases encoding <;> first | rfl | exact absurd rfl hswitch
          rw [item, if_neg hzero, hencoding] at hplain
          rw [hplain]
          obtain ⟨hkind, hle⟩ := plainItem_describes hpos hopcode hswitch
            ((d.opcodes.mnemonic? opcode).getD "unknown")
          exact ⟨hkind.elim (fun h => ⟨_, h⟩) (fun h => ⟨_, h⟩), hle⟩

end Disassembler

/-! ### The moves of a window -/

open Cursor (Move)

/-- A window that lies in the code and has not gone past its end. -/
def Frame.Inside (d : Disassembler) (f : Frame) : Prop :=
  f.position ≤ f.stop ∧ f.stop ≤ d.program.size

/-- A step leaves its window and the body of a switch inside of the code. -/
theorem Frame.Inside.step {d : Disassembler} {f : Frame} {opcode : UInt8} (h : f.Inside d)
    (hopcode : f.opcode? d = some opcode) (depth : Nat) :
    (f.step d depth opcode).frame.Inside d ∧
      ∀ g ∈ (f.step d depth opcode).body?, g.Inside d := by
  have hpos := Frame.position_lt_of_opcode? hopcode
  obtain ⟨-, hnext⟩ := Disassembler.item_describes hpos (Frame.getElem?_of_opcode? hopcode) depth
  refine ⟨⟨hnext, h.2⟩, ?_⟩
  intro g hg
  simp only [Frame.step, Option.mem_def, Option.map_eq_some_iff] at hg
  obtain ⟨table, hbody, rfl⟩ := hg
  obtain ⟨-, hstart, hle, hstop, -⟩ := d.body_of_item hbody
  have hsize := h.2
  exact ⟨hstart, by show table.start ≤ _; omega⟩

/-- The bytes that a move takes itself: those of an item, those of the opcode and the header of a
switch whose body is listed, or those of a table. -/
def Cursor.Move.extent (d : Disassembler) : Move → Nat × Nat
  | .step depth f opcode =>
    match (d.item depth f.position f.stop opcode).body? with
    | some table => (f.position, table.bodyStart)
    | none => (f.position, (d.item depth f.position f.stop opcode).next)
  | .leave f =>
    match f.table? with
    | some table => (table.start, table.stop)
    | none => (f.stop, f.stop)

/-- Extents that follow each other without a gap from `first` to `last`. -/
def Tiles : Nat → List (Nat × Nat) → Nat → Prop
  | first, [], last => first = last
  | first, extent :: rest, last => extent.1 = first ∧ first ≤ extent.2 ∧ Tiles extent.2 rest last

theorem Tiles.append {first middle last : Nat} {extents more : List (Nat × Nat)}
    (h : Tiles first extents middle) (hmore : Tiles middle more last) :
    Tiles first (extents ++ more) last := by
  induction extents generalizing first with
  | nil =>
    cases h
    exact hmore
  | cons extent rest ih => exact ⟨h.1, h.2.1, ih h.2.2⟩

end LpcInspect
