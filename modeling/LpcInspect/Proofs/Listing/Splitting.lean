import LpcInspect.Proofs.Assembly.RoundTrip
import LpcInspect.Proofs.Listing.Items
import LpcInspect.Proofs.Listing.Nesting

/-!
# Cutting a window in two

A window can be cut at every address that its listing reaches: the listing of the first part is
followed by that of the second part. The first part ends earlier than the whole window, and this end
is what truncated instructions and misplaced tables are found by. But every item before the cut ends
at the cut or before it, so it is decoded in the shorter window as in the longer one,
`Disassembler.item_narrow`.
-/

namespace LpcInspect

/-- A table that ends early enough is found in a shorter window too. -/
theorem SwitchTable.locate?_narrow {offset stop stop' : Nat} {tableType : UInt8}
    {tableStart tableEnd : UInt16} {t : SwitchTable}
    (h : locate? offset tableType tableStart tableEnd stop = some t) (hstop : t.stop ≤ stop') :
    locate? offset tableType tableStart tableEnd stop' = some t := by
  simp only [locate?] at h ⊢
  split at h
  · next hfits =>
    cases h
    rw [if_pos ⟨hfits.1, hfits.2.1, hstop⟩]
  · cases h

namespace Disassembler

variable {d : Disassembler} {depth position stop stop' : Nat}

/-! ### Items in a shorter window -/

section Items

variable (opcode : UInt8) (mnemonic : String)

theorem plainItem_narrow {encoding : Encoding} (hencoding : encoding ≠ .switch)
    (hnext : (d.plainItem position stop opcode mnemonic encoding).next ≤ stop')
    (hlt : stop' < stop) :
    d.plainItem position stop' opcode mnemonic encoding =
      d.plainItem position stop opcode mnemonic encoding := by
  rw [plainItem] at hnext
  rw [plainItem, plainItem]
  split at hnext
  · next operand r hread =>
    have hread' := (Operand.reads hencoding d.program d.opcodes).of_window hread hnext
    rw [operandReader, hread']
    rfl
  · exact absurd hnext (Nat.not_le.mpr hlt)

theorem switchItem_narrow (hnext : (d.switchItem depth position stop opcode mnemonic).next ≤ stop')
    (hlt : stop' < stop) :
    d.switchItem depth position stop' opcode mnemonic =
      d.switchItem depth position stop opcode mnemonic := by
  rw [switchItem] at hnext
  rw [switchItem, switchItem]
  split at hnext
  · exact absurd hnext (Nat.not_le.mpr hlt)
  · next tableType tableStart tableEnd fallback r hread =>
    dsimp only at hnext
    split at hnext
    · exact absurd hnext (Nat.not_le.mpr hlt)
    · next table htable =>
      have hstop : table.stop ≤ stop' := by
        split at hnext <;> exact hnext
      -- The header lies before the table.
      have hheader : r.position ≤ stop' := by
        obtain ⟨fields, -, -, rfl⟩ := reads_switchHeader.mp hread
        obtain ⟨hoffset, hbody, hle, -⟩ := SwitchTable.bounds_of_locate? htable
        have hsize : fields.bytes.length = 7 := rfl
        simp only [SwitchTable.bodyStart, SwitchTable.base, SwitchTable.headerSize] at hbody
        simp only [Reader.position_seek, operandReader, Reader.window, hsize]
        omega
      have hread' := reads_switchHeader.of_window hread hheader
      rw [operandReader, hread']
      simp only [SwitchTable.locate?_narrow htable hstop]

/-- **An item that ends before the end of its window** is the same in every window that it fits
in. -/
theorem item_narrow (hnext : (d.item depth position stop opcode).next ≤ stop')
    (hlt : stop' < stop) :
    d.item depth position stop' opcode = d.item depth position stop opcode := by
  rcases item_cases d.opcodes opcode with
    ⟨cause, hitem⟩ | ⟨mnemonic, hitem⟩ | ⟨mnemonic, encoding, hencoding, hitem⟩
  · rw [hitem d rfl, hitem d rfl]
  · rw [hitem d rfl] at hnext
    rw [hitem d rfl, hitem d rfl]
    exact switchItem_narrow opcode mnemonic hnext hlt
  · rw [hitem d rfl] at hnext
    rw [hitem d rfl, hitem d rfl]
    exact plainItem_narrow opcode mnemonic hencoding hnext hlt

end Items

/-! ### The addresses that a window reaches -/

/-- A window goes on from one address to the next. -/
def WindowStep (d : Disassembler) (depth stop position next : Nat) : Prop :=
  position < stop ∧ ∃ opcode, d.program.code[position]? = some opcode ∧
    (d.item depth position stop opcode).next = next

/-- The addresses that a window reaches from a position. -/
abbrev WindowReaches (d : Disassembler) (depth stop : Nat) : Nat → Nat → Prop :=
  Relation.ReflTransGen (WindowStep d depth stop)

/-- A window goes forward. -/
theorem WindowReaches.le {next : Nat} (h : d.WindowReaches depth stop position next) :
    position ≤ next := by
  induction h with
  | refl => exact Nat.le_refl _
  | tail _ hstep ih =>
    obtain ⟨hpos, opcode, -, rfl⟩ := hstep
    exact Nat.le_trans ih (Nat.le_of_lt (d.lt_next_item depth opcode hpos))

/-- A listing can be cut at an address that it reaches before its end. -/
theorem listing_cut (hlocate : d.locate? = fun _ => none) {cut : Nat} (hcut : cut < stop)
    (h : d.WindowReaches depth stop position cut) :
    d.listing depth stop none [] position =
      d.listing depth cut none [] position ++ d.listing depth stop none [] cut := by
  induction h using Relation.ReflTransGen.head_induction_on with
  | refl => rw [listing_of_le d depth none [] (Nat.le_refl cut), List.nil_append]
  | @head position _ hstep hrest ih =>
    obtain ⟨hpos, opcode, hopcode, rfl⟩ := hstep
    have hnext := WindowReaches.le hrest
    have hlt := d.lt_next_item depth opcode hpos
    have hsize := (Array.getElem?_eq_some_iff.mp hopcode).1
    have hholds {stop : Nat} (hpos : position < stop) :
        (Reader.window d.program.code stop position).Holds [opcode] :=
      ⟨Nat.lt_min.mpr ⟨hpos, hsize⟩, hopcode, trivial⟩
    rw [listing_of_opcode hlocate (hholds hpos),
      listing_of_opcode hlocate (hholds (Nat.lt_of_lt_of_le hlt hnext)),
      item_narrow opcode hnext hcut, ih]
    simp only [List.append_assoc]

end Disassembler

/-! ### The outermost window -/

namespace Cursor

variable {d : Disassembler} {start stop : Nat} {frames next : List Frame}

/-- The outermost one of some windows ends at `stop` and has come from `start`. -/
def OutermostFrom (d : Disassembler) (start stop : Nat) (frames : List Frame) : Prop :=
  ∀ f ∈ frames.getLast?, f.stop = stop ∧ d.WindowReaches 1 stop start f.position

/-- A step of the innermost window moves the outermost one only if it is the same. -/
theorem OutermostFrom.step {f : Frame} {outer : List Frame} {opcode : UInt8}
    (h : OutermostFrom d start stop (f :: outer)) (hopcode : f.opcode? d = some opcode) :
    OutermostFrom d start stop ((f.step d (outer.length + 1) opcode).frame :: outer) := by
  cases outer with
  | cons around outer => exact h
  | nil =>
    obtain ⟨rfl, hreaches⟩ := h f rfl
    rintro _ ⟨⟩
    exact ⟨rfl, hreaches.tail ⟨Frame.position_lt_of_opcode? hopcode, opcode,
      Frame.getElem?_of_opcode? hopcode, rfl⟩⟩

/-- A move takes the outermost window one step forward, or leaves it where it is. -/
theorem OutermostFrom.move (h : OutermostFrom d start stop frames)
    (hmove : StackMove d frames next) : OutermostFrom d start stop next := by
  cases hmove with
  | item hopcode => exact h.step hopcode
  | switch hopcode => exact h.step hopcode
  | leave =>
    cases next with
    | nil => rintro _ ⟨⟩
    | cons around outer => exact h

/-- The outermost window of a listing reaches its positions from the start of the window. -/
theorem OutermostFrom.moves (h : OutermostFrom d start stop frames)
    (hmoves : StackMoves d frames next) : OutermostFrom d start stop next := by
  induction hmoves with
  | refl => exact h
  | tail _ hmove ih => exact ih.move hmove

/-- After some records, the outermost window of a listing stands at an address. -/
def Reaches (d : Disassembler) (c : Cursor) (position : Nat) : Prop :=
  ∃ n f, (after d c n).frames.getLast? = some f ∧ f.position = position

end Cursor

/-- What the outermost window of a listing reaches is reached step by step. -/
theorem Disassembler.windowReaches_of_reaches {d : Disassembler} {start stop position : Nat}
    (hstart : start ≤ stop) (hstop : stop ≤ d.program.size)
    (h : Cursor.Reaches d (d.window start stop) position) :
    d.WindowReaches 1 stop start position := by
  obtain ⟨n, f, hf, rfl⟩ := h
  have hwindow : Cursor.OutermostFrom d start stop (d.window start stop).frames := by
    rintro _ ⟨⟩
    simp only [Nat.min_eq_left hstop, Nat.min_eq_left hstart]
    exact ⟨rfl, .refl⟩
  exact (hwindow.moves (Cursor.stackMoves_after d _ n) f hf).2

/-- **A window can be cut where its listing passes**, without source lines and away from the first
address, where functions are shown. -/
theorem Disassembler.decode_split (p : Program) (opcodes : OpcodeTable) (settings : DecoderSettings)
    {start cut stop : Nat} (hstart : 0 < start) (hle : start ≤ cut) (hcut : cut ≤ stop)
    (hstop : stop ≤ p.size)
    (h : Cursor.Reaches { program := p, opcodes, settings }
      (window { program := p, opcodes, settings } start stop) cut) :
    decode { program := p, opcodes, settings } start stop =
      decode { program := p, opcodes, settings } start cut ++
        decode { program := p, opcodes, settings } cut stop := by
  have hreaches := windowReaches_of_reaches (Nat.le_trans hle hcut) hstop h
  rw [decode_of_le _ (Nat.le_trans hle hcut) hstop, decode_of_le _ hle (Nat.le_trans hcut hstop),
    decode_of_le _ hcut hstop, if_neg (Nat.ne_of_gt hstart), if_neg (Nat.ne_of_gt hstart),
    if_neg (Nat.ne_of_gt (Nat.lt_of_lt_of_le hstart hle))]
  rcases Nat.lt_or_eq_of_le hcut with hlt | rfl
  · exact listing_cut rfl hlt hreaches
  · rw [listing_of_le _ 1 none [] (Nat.le_refl cut), List.append_nil]

/-- The window of two switches, one in the other, is cut after the outer one. -/
theorem Disassembler.decode_split_nested :
    let p : Program := { code := ([0] ++ CodeTree.nested.bytes).toArray, strings := [[97]] }
    let d : Disassembler := { program := p, opcodes := .standard, settings := {} }
    0 < 1 ∧ 1 ≤ 58 ∧ 58 ≤ 67 ∧ 67 ≤ p.size ∧ Cursor.Reaches d (d.window 1 67) 58 ∧
      d.decode 1 67 = d.decode 1 58 ++ d.decode 58 67 := by
  intro p d
  have hsize : 67 ≤ p.size := by decide
  have hposition : (Cursor.after d (d.window 1 67) 1).frames.getLast?.map Frame.position =
      some 58 := by decide +kernel
  have hreaches : Cursor.Reaches d (d.window 1 67) 58 :=
    ⟨1, Option.map_eq_some_iff.mp hposition⟩
  exact ⟨by decide, by decide, by decide, hsize, hreaches,
    decode_split p .standard {} (by decide) (by decide) (by decide) hsize hreaches⟩

end LpcInspect
