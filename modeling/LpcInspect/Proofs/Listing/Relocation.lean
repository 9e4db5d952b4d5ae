import LpcInspect.Proofs.Assembly.RoundTrip
import LpcInspect.Proofs.Listing.FunctionStarts
import LpcInspect.Proofs.Listing.Shift

/-!
# Listings depend on their window only

The listing of a window looks at nothing but the bytes of the window. When they stand somewhere else
in other code, the listing there is the same, with every address shifted. `Disassembler.Relocates`
says that the bytes of a window stand elsewhere, and `Disassembler.listing_shift` is the simulation:
it goes along the window with all the windows of switches inside of it.

Without a shift this says that bytes outside of a window do not matter,
`Disassembler.decode_congr_window`; with the bytes put in front of some code it says what
relocation does, `Disassembler.decode_relocate`.
-/

namespace LpcInspect

variable {d : Disassembler} {code : Array UInt8} {locate? : Nat → Option Location}
  {k start stop position : Nat}

namespace Disassembler

/-- The disassembler for other code, with other source lines. -/
def withCode (d : Disassembler) (code : Array UInt8) (locate? : Nat → Option Location) :
    Disassembler :=
  { d with program := d.program.withCode code, locate? }

/-- The bytes of a window, with their source lines, stand in other code `k` places further on. -/
structure Relocates (d : Disassembler) (code : Array UInt8) (locate? : Nat → Option Location)
    (k start stop : Nat) : Prop where
  stop_le : stop ≤ d.program.size
  stop_add_le : stop + k ≤ code.size
  bytes_eq : ∀ x, start ≤ x → x < stop → code[x + k]? = d.program.code[x]?
  locate_eq : ∀ x, start ≤ x → x < stop → locate? (x + k) = d.locate? x

/-- A window inside of a window stands where that one stands. -/
theorem Relocates.mono (h : d.Relocates code locate? k start stop) {start' stop' : Nat}
    (hstart : start ≤ start') (hstop : stop' ≤ stop) :
    d.Relocates code locate? k start' stop' where
  stop_le := Nat.le_trans hstop h.stop_le
  stop_add_le := Nat.le_trans (Nat.add_le_add_right hstop k) h.stop_add_le
  bytes_eq x hx hlt := h.bytes_eq x (Nat.le_trans hstart hx) (Nat.lt_of_lt_of_le hlt hstop)
  locate_eq x hx hlt := h.locate_eq x (Nat.le_trans hstart hx) (Nat.lt_of_lt_of_le hlt hstop)

/-- Readers in a window and where it stands are shifted. -/
theorem Relocates.shifted (h : d.Relocates code locate? k start stop) (hpos : start ≤ position) :
    Reader.Shifted k (.window d.program.code stop position)
      (.window code (stop + k) (position + k)) where
  position_eq := rfl
  stop_eq := by
    have hsize : min stop d.program.code.size = stop := Nat.min_eq_left h.stop_le
    have hsize' : min (stop + k) code.size = stop + k := Nat.min_eq_left h.stop_add_le
    simp only [Reader.window, hsize, hsize']
  bytes_eq x hx hlt :=
    h.bytes_eq x (Nat.le_trans hpos hx) (Nat.lt_of_lt_of_le hlt (Nat.min_le_left _ _))

/-! ### Items -/

section Items

@[simp] theorem program_withCode :
    (d.withCode code locate?).program = d.program.withCode code := rfl

@[simp] theorem opcodes_withCode : (d.withCode code locate?).opcodes = d.opcodes := rfl

@[simp] theorem settings_withCode : (d.withCode code locate?).settings = d.settings := rfl

variable (h : d.Relocates code locate? k position stop) (opcode : UInt8)

include h

theorem Relocates.operandReader :
    Reader.Shifted k (d.operandReader position stop)
      ((d.withCode code locate?).operandReader (position + k) (stop + k)) := by
  have hshifted := h.shifted (Nat.le_add_right position 1)
  rw [Nat.add_right_comm] at hshifted
  exact hshifted

theorem plainItem_shift (mnemonic : String) {encoding : Encoding} (hencoding : encoding ≠ .switch) :
    (d.withCode code locate?).plainItem (position + k) (stop + k) opcode mnemonic encoding =
      (d.plainItem position stop opcode mnemonic encoding).shift k := by
  have hreader := h.operandReader
  rw [plainItem, plainItem, program_withCode, opcodes_withCode]
  rcases (Operand.reads hencoding d.program d.opcodes).shift
    (Operand.reads hencoding (d.program.withCode code) d.opcodes) hreader with
    ⟨fields, hr, hs⟩ | ⟨⟨e, hr⟩, e', hs⟩
  · have hmnemonic := d.shownMnemonic_shift mnemonic
      (fields.operand d.program d.opcodes (d.operandReader position stop).position) k
    have hnext := (hreader.advance fields.bytes.length).position_eq
    rw [hr, hs, fields.operand_shift]
    simp only [Item.shift, List.map_cons, List.map_nil, Record.shift, Instruction.shift,
      Option.map_none, hnext, ← hmnemonic]
    rfl
  · rw [hr, hs]
    rfl

theorem switchItem_shift (depth : Nat) (mnemonic : String) :
    (d.withCode code locate?).switchItem depth (position + k) (stop + k) opcode mnemonic =
      (d.switchItem depth position stop opcode mnemonic).shift k := by
  rw [switchItem, switchItem]
  rcases reads_switchHeader.shift reads_switchHeader h.operandReader with
    ⟨fields, hr, hs⟩ | ⟨⟨e, hr⟩, e', hs⟩
  · have haddress (offset : UInt16) :
        position + k + 1 + offset.toNat = position + 1 + offset.toNat + k := by omega
    rw [hr, hs]
    simp only [SwitchTable.locate?_shift, haddress, settings_withCode]
    cases SwitchTable.locate? position fields.tableType fields.tableStart fields.tableEnd stop with
    | none => rfl
    | some table =>
      dsimp only [Option.map_some]
      split <;> rfl
  · rw [hr, hs]
    rfl

/-- **An item moves with its code.** -/
theorem item_shift (depth : Nat) :
    (d.withCode code locate?).item depth (position + k) (stop + k) opcode =
      (d.item depth position stop opcode).shift k := by
  rcases item_cases d.opcodes opcode with
    ⟨cause, hitem⟩ | ⟨mnemonic, hitem⟩ | ⟨mnemonic, encoding, hencoding, hitem⟩
  · rw [hitem d rfl, hitem (d.withCode code locate?) rfl, Nat.add_right_comm]
    rfl
  · rw [hitem d rfl, hitem (d.withCode code locate?) rfl]
    exact switchItem_shift h opcode depth mnemonic
  · rw [hitem d rfl, hitem (d.withCode code locate?) rfl]
    exact plainItem_shift h opcode mnemonic hencoding

end Items

/-! ### Listings -/

end Disassembler

namespace Marker

/-- The marker of a function whose code stands `k` bytes further on. -/
def shift (k : Nat) (m : Marker) : Marker := { m with address := m.address + k }

variable (k position : Nat) (markers : List Marker)

theorem takeWhile_shift : (markers.map (shift k)).takeWhile (fun m => m.address ≤ position + k) =
    (markers.takeWhile fun m => m.address ≤ position).map (shift k) := by
  rw [List.takeWhile_map]
  congr 2
  funext m
  simp [shift]

theorem dropWhile_shift : (markers.map (shift k)).dropWhile (fun m => m.address ≤ position + k) =
    (markers.dropWhile fun m => m.address ≤ position).map (shift k) := by
  rw [List.dropWhile_map]
  congr 2
  funext m
  simp [shift]

theorem map_shift_zero : markers.map (shift 0) = markers := List.map_id _

end Marker

namespace Disassembler

theorem newLocation?_shift (h : d.Relocates code locate? k position stop) (hpos : position < stop)
    (shown : Option Location) :
    (d.withCode code locate?).newLocation? shown (position + k) =
      d.newLocation? shown position :=
  congrArg (Option.filter _) (h.locate_eq position (Nat.le_refl _) hpos)

/-- What is shown before an item does not change with its address. -/
theorem heading_shift (h : d.Relocates code locate? k position stop) (hpos : position < stop)
    (shown : Option Location) (markers : List Marker) :
    (d.withCode code locate?).heading shown (markers.map (Marker.shift k)) (position + k) =
      (d.heading shown markers position).map (Record.shift k) := by
  rw [heading, heading, newLocation?_shift h hpos, Marker.takeWhile_shift, List.map_append,
    List.map_map, List.map_map]
  congr 1
  cases d.newLocation? shown position <;> rfl

/-- **The listing of a window moves with its bytes.** -/
theorem listing_shift (depth : Nat) {k stop position : Nat}
    (h : d.Relocates code locate? k position stop) (shown : Option Location)
    (markers : List Marker) :
    (d.withCode code locate?).listing depth (stop + k) shown (markers.map (Marker.shift k))
        (position + k) =
      (d.listing depth stop shown markers position).map (Record.shift k) := by
  induction depth, stop, position using d.window_induction generalizing shown markers with
  | done depth stop position hdone =>
    have hle : stop ≤ position := by
      by_cases hpos : position < stop
      · exact Nat.le_trans h.stop_le (Array.getElem?_eq_none_iff.mp (hdone hpos))
      · exact Nat.le_of_not_lt hpos
    rw [listing_of_le d depth _ _ hle,
      listing_of_le (d.withCode code locate?) depth _ _ (Nat.add_le_add_right hle k)]
    rfl
  | item depth stop position opcode hpos hopcode ihBody ihNext =>
    have hopcode' : (d.withCode code locate?).program.code[position + k]? = some opcode :=
      (h.bytes_eq position (Nat.le_refl _) hpos).trans hopcode
    have hbodies : (d.withCode code locate?).bodyListing depth
        ((d.item depth position stop opcode).body?.map (SwitchTable.shift k)) =
        (d.bodyListing depth (d.item depth position stop opcode).body?).map (Record.shift k) := by
      cases hbody : (d.item depth position stop opcode).body? with
      | none => rfl
      | some table =>
        obtain ⟨hbodyStart, hstart, hle, hstop, -⟩ := d.body_of_item hbody
        have hinner : d.Relocates code locate? k table.bodyStart table.start :=
          h.mono (by omega) (by omega)
        have htable : d.Relocates code locate? k table.start table.stop := h.mono (by omega) hstop
        have hlisting := ihBody table hbody hinner none []
        have hrecords := table.records_shift d.program d.settings.switchKeyWidth
          (htable.shifted (Nat.le_refl _))
        rw [← table.bodyStart_shift, List.map_nil] at hlisting
        rw [bodyListing, List.map_append, ← hlisting, ← hrecords]
        rfl
    have hnext := h.mono (Nat.le_of_lt (d.lt_next_item depth opcode hpos)) (Nat.le_refl stop)
    rw [listing_of_some hpos hopcode, listing_of_some (Nat.add_lt_add_right hpos k) hopcode',
      item_shift h opcode depth, heading_shift h hpos, newLocation?_shift h hpos,
      Marker.dropWhile_shift]
    simp only [Item.shift, List.map_append, hbodies, ihNext hnext]

/-! ### Windows -/

/-- **A listing depends on the bytes of its window only**: two programs that differ in nothing but
their code, and there only outside of the window, have the same listing of it. -/
theorem decode_congr_window {p q : Program} (hpq : q = p.withCode q.code) (opcodes : OpcodeTable)
    (settings : DecoderSettings) (locate? : Nat → Option Location) {start stop : Nat}
    (hstart : start ≤ stop) (hp : stop ≤ p.size) (hq : stop ≤ q.size)
    (hbytes : ∀ x, start ≤ x → x < stop → q.code[x]? = p.code[x]?) :
    decode ⟨q, opcodes, settings, locate?⟩ start stop =
      decode ⟨p, opcodes, settings, locate?⟩ start stop := by
  obtain ⟨code, rfl⟩ : ∃ code, q = p.withCode code := ⟨_, hpq⟩
  have hrelocates : Relocates ⟨p, opcodes, settings, locate?⟩ code locate? 0 start stop :=
    ⟨hp, hq, hbytes, fun _ _ _ => rfl⟩
  have hlisting := listing_shift 1 hrelocates none
    (if start = 0 then Marker.ofProgram p stop else [])
  rw [Marker.map_shift_zero, Record.map_shift_zero] at hlisting
  rw [decode_of_le _ hstart hq, decode_of_le _ hstart hp]
  exact hlisting

/-- The bytes around two switches, one in the other, do not matter. -/
theorem decode_congr_window_nested :
    let p : Program := { code := ([0, 0] ++ CodeTree.nested.bytes).toArray, strings := [[97]] }
    let q := p.withCode ([0x67, 0xff] ++ CodeTree.nested.bytes ++ [8]).toArray
    let lines : Nat → Option Location := fun address => some ⟨[97], address / 16⟩
    q = p.withCode q.code ∧ 2 ≤ 68 ∧ 68 ≤ p.size ∧ 68 ≤ q.size ∧
      (∀ x, 2 ≤ x → x < 68 → q.code[x]? = p.code[x]?) ∧
      decode ⟨q, .standard, {}, lines⟩ 2 68 = decode ⟨p, .standard, {}, lines⟩ 2 68 := by
  intro p q lines
  have hp : 68 ≤ p.size := by decide
  have hq : 68 ≤ q.size := by decide
  have hbytes : ∀ x, 2 ≤ x → x < 68 → q.code[x]? = p.code[x]? := by
    have hall : ∀ x, x < 68 → 2 ≤ x → q.code[x]? = p.code[x]? := by decide
    exact fun x hle hlt => hall x hlt hle
  exact ⟨rfl, by decide, hp, hq, hbytes,
    decode_congr_window rfl .standard {} lines (by decide) hp hq hbytes⟩

/-- **Relocation.** Bytes put in front of the code of a program shift every address of a listing and
change nothing else, apart from source lines and function starts. -/
theorem decode_relocate (p : Program) (opcodes : OpcodeTable) (settings : DecoderSettings)
    (front : Array UInt8) (start stop : Nat) :
    Record.withoutFunctionStarts
        (decode { program := p.withCode (front ++ p.code), opcodes, settings }
          (start + front.size) (stop + front.size)) =
      (Record.withoutFunctionStarts (decode { program := p, opcodes, settings } start stop)).map
        (Record.shift front.size) := by
  have hsize : (p.withCode (front ++ p.code)).size = p.size + front.size := by
    simp [Program.size, Program.withCode, Nat.add_comm]
  have hstop : min stop p.size ≤ p.size := Nat.min_le_right _ _
  have hstart : min start (min stop p.size) ≤ min stop p.size := Nat.min_le_right _ _
  have hrelocates : Relocates { program := p, opcodes, settings } (front ++ p.code) (fun _ => none)
      front.size (min start (min stop p.size)) (min stop p.size) := by
    refine ⟨hstop, ?_, ?_, fun _ _ _ => rfl⟩
    · exact Nat.le_trans (Nat.add_le_add_right hstop _) (Nat.le_of_eq hsize.symm)
    · intro x _ _
      rw [Array.getElem?_append_right (Nat.le_add_left _ _), Nat.add_sub_cancel]
  have hlisting := listing_shift 1 hrelocates none []
  rw [decode_cut, decode_cut { program := p, opcodes, settings }]
  simp only [hsize, Nat.add_min_add_right]
  rw [decode_of_le _ hstart hstop,
    decode_of_le _ (Nat.add_le_add_right hstart _) (hsize ▸ Nat.add_le_add_right hstop _),
    withoutFunctionStarts_listing, withoutFunctionStarts_listing, ← hlisting]
  rfl

end Disassembler
end LpcInspect
