import LpcInspect.Proofs.Listing.Items

/-!
# What stands before items

Source lines and starts of functions are shown before an item and nowhere else: an item shows
instructions and diagnostics only, and neither of the two is among the records of a switch table.
So to know what is left of a listing without some of them, it is enough to know what is left before
each item, `Disassembler.filter_listing_of_heading`.
-/

namespace LpcInspect

/-- Whether a record is shown before items: a source line, or the start of a function. -/
def Record.isHeading : Record → Bool
  | .location _ | .functionStart _ _ => true
  | _ => false

namespace SwitchTable

variable (t : SwitchTable)

theorem isHeading_slotRecords (count slot : Nat) (r : Reader) :
    ∀ record ∈ t.slotRecords count slot r, record.isHeading = false := by
  induction count generalizing slot r with
  | zero =>
    rw [slotRecords, minimumRecords]
    split <;> simp [Record.isHeading, malformedAt]
  | succ count ih =>
    rw [slotRecords]
    split
    · exact List.forall_mem_cons.mpr ⟨rfl, ih _ _⟩
    · simp [Record.isHeading, malformedAt]

theorem isHeading_pairRecords (p : Program) (width bound : Nat) (r : Reader) :
    ∀ record ∈ t.pairRecords p width bound r, record.isHeading = false := by
  induction bound generalizing r with
  | zero => simp [pairRecords]
  | succ bound ih =>
    rw [pairRecords]
    split
    · split
      · split
        · exact List.forall_mem_cons.mpr ⟨rfl, ih _⟩
        · simp [Record.isHeading, malformedAt]
      · simp [Record.isHeading, malformedAt]
    · simp

/-- A table has no source lines and no starts of functions. -/
theorem isHeading_records (code : Array UInt8) (p : Program) (width : Nat) :
    ∀ record ∈ t.records code p width, record.isHeading = false := by
  rw [records]
  refine List.forall_mem_cons.mpr ⟨rfl, ?_⟩
  cases t.layout with
  | direct =>
    dsimp only
    rw [directRecords]
    split
    · exact t.isHeading_slotRecords _ _ _
    · simp [Record.isHeading, malformedAt]
  | integer | string => exact t.isHeading_pairRecords p width _ _

end SwitchTable

/-- A table that closes a window has no source lines and no starts of functions. -/
theorem Frame.isHeading_closing (d : Disassembler) (f : Frame) :
    ∀ record ∈ f.closing d, record.isHeading = false := by
  rw [closing]
  split
  · exact SwitchTable.isHeading_records _ _ _ _
  · simp

namespace Disassembler

/-- An item shows instructions and diagnostics. -/
theorem mem_records_item {d : Disassembler} {depth position stop : Nat} {opcode : UInt8}
    {record : Record} (h : record ∈ (d.item depth position stop opcode).records) :
    (∃ i, record = .instruction i) ∨ ∃ offset cause, record = .diagnostic offset cause := by
  revert record
  rcases item_cases d.opcodes opcode with
    ⟨cause, hitem⟩ | ⟨mnemonic, hitem⟩ | ⟨mnemonic, encoding, -, hitem⟩
  · simp [hitem d rfl]
  · rw [hitem d rfl, switchItem]
    split
    · simp [truncatedItem]
    · dsimp only
      split
      · simp
      · split <;> simp
  · rw [hitem d rfl, plainItem]
    split <;> simp [truncatedItem]

/-- An item has no source lines and no starts of functions. -/
theorem isHeading_item (d : Disassembler) (depth position stop : Nat) (opcode : UInt8) :
    ∀ record ∈ (d.item depth position stop opcode).records, record.isHeading = false := by
  intro record hrecord
  rcases mem_records_item hrecord with ⟨i, rfl⟩ | ⟨offset, cause, rfl⟩ <;> rfl

/-- **A listing changes with what stands before items only.** Here `shownAs` stands for the line
shown last and `markersAs` for the functions to come. -/
theorem filter_listing_of_heading (d : Disassembler) (locate? : Nat → Option Location)
    (shownAs : Option Location → Option Location) (markersAs : List Marker → List Marker)
    {keep : Record → Bool}
    (hkeep : ∀ record, record.isHeading = false → keep record = true)
    (hheading : ∀ shown markers position, (d.heading shown markers position).filter keep =
      { d with locate? }.heading (shownAs shown) (markersAs markers) position)
    (hshown : ∀ shown position, shownAs ((d.newLocation? shown position).or shown) =
      ({ d with locate? }.newLocation? (shownAs shown) position).or (shownAs shown))
    (hmarkers : ∀ markers (position : Nat),
      markersAs (markers.dropWhile fun m => m.address ≤ position) =
        (markersAs markers).dropWhile fun m => m.address ≤ position)
    (hnone : shownAs none = none) (hnil : markersAs [] = []) (depth stop : Nat)
    (shown : Option Location) (markers : List Marker) (position : Nat) :
    (d.listing depth stop shown markers position).filter keep =
      { d with locate? }.listing depth stop (shownAs shown) (markersAs markers) position := by
  have hself {records : List Record} (h : ∀ record ∈ records, record.isHeading = false) :
      records.filter keep = records :=
    List.filter_eq_self.mpr fun record hrecord => hkeep record (h record hrecord)
  induction depth, stop, position using d.window_induction generalizing shown markers with
  | done depth stop position hdone =>
    have hdone' : position < stop → { d with locate? }.program.code[position]? = none := hdone
    rw [listing_of_done hdone, listing_of_done hdone']
    rfl
  | item depth stop position opcode hpos hopcode ihBody ihNext =>
    have hopcode' : { d with locate? }.program.code[position]? = some opcode := hopcode
    have hitem : { d with locate? }.item depth position stop opcode =
        d.item depth position stop opcode := rfl
    have hbodies : (d.bodyListing depth (d.item depth position stop opcode).body?).filter keep =
        { d with locate? }.bodyListing depth (d.item depth position stop opcode).body? := by
      cases hbody : (d.item depth position stop opcode).body? with
      | none => rfl
      | some table =>
        rw [bodyListing, List.filter_append, ihBody table hbody, hnone, hnil,
          hself (table.isHeading_records _ _ _)]
        rfl
    rw [listing_of_some hpos hopcode, listing_of_some hpos hopcode', hitem]
    simp only [List.filter_append]
    rw [hbodies, ihNext, hheading, hshown, hmarkers,
      hself (d.isHeading_item depth position stop opcode)]

end Disassembler
end LpcInspect
