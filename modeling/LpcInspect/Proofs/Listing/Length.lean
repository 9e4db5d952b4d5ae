import LpcInspect.Proofs.Listing.Coverage
import LpcInspect.Proofs.Listing.Locations

/-!
# How long listings are

A listing comes to an end, and its length is bounded by the bytes of its window: apart from source
lines and starts of functions there is at most one record for each byte. Most items take no more
records than bytes. A switch whose body is listed is shown by two records more than its entries, and
these are paid for by the eight bytes of its header; its entries are paid for by the bytes of its
table, `SwitchTable.length_records_le`. Each step shows at most one source line, so with lines the
bytes count double. Of the markers of a window only those before its end are ever shown, so each
function with code is shown at most once, and the others never are. Neither the width of keys nor
the greatest depth of switches matters.
-/

namespace LpcInspect

/-! ### Tables -/

namespace SwitchTable

variable (t : SwitchTable)

/-- Each target takes one record, and so does the least key. -/
theorem length_slotRecords_le (count slot : Nat) (r : Reader) :
    (t.slotRecords count slot r).length ≤ count + 1 := by
  induction count generalizing slot r with
  | zero =>
    rw [slotRecords, minimumRecords]
    split <;> simp
  | succ count ih =>
    rw [slotRecords]
    split
    · next offset next hread =>
      have := ih (slot + 1) next
      simp only [List.length_cons]
      omega
    · simp

theorem length_pairRecords_le (p : Program) (width bound : Nat) (r : Reader) :
    (t.pairRecords p width bound r).length ≤ bound := by
  induction bound generalizing r with
  | zero => simp [pairRecords]
  | succ bound ih =>
    rw [pairRecords]
    split
    · split
      · split
        · simpa using ih _
        · simp
      · simp
    · simp

/-- A table has at most two records more than bytes. -/
theorem length_records_le (code : Array UInt8) (p : Program) (width : Nat) :
    (t.records code p width).length ≤ 2 + (t.stop - t.start) := by
  rw [records, List.length_cons]
  cases t.layout with
  | direct =>
    dsimp only
    rw [directRecords]
    split
    · have := t.length_slotRecords_le ((t.stop - minimumSize - t.start) / 2) 0
        (Reader.window code t.stop t.start)
      omega
    · simp
  | integer | string =>
    have := t.length_pairRecords_le p width (t.stop - t.start) (Reader.window code t.stop t.start)
    dsimp only
    omega

end SwitchTable

/-! ### Items -/

namespace Disassembler

variable {d : Disassembler} {position stop : Nat} {opcode : UInt8}

/-- The header of a switch that can be read lies in the window. -/
theorem header_le_of_read (hpos : position < stop)
    (hopcode : d.program.code[position]? = some opcode)
    {header : UInt8 × UInt16 × UInt16 × UInt16} {r : Reader}
    (h : readSwitchHeader (d.operandReader position stop) = .ok (header, r)) :
    position + 8 ≤ stop := by
  obtain ⟨fields, hholds, -, -⟩ := reads_switchHeader.mp h
  have hsize : position < d.program.code.size := (Array.getElem?_eq_some_iff.mp hopcode).1
  have hle := hholds.position_add_le (by
    show position + 1 ≤ min stop d.program.code.size
    omega)
  have hlength : fields.bytes.length = 7 := rfl
  have hstop : (d.operandReader position stop).stop ≤ stop := Nat.min_le_left _ _
  rw [hlength] at hle
  simp only [operandReader, Reader.window] at hle hstop
  omega

/-- An item without a body has no more records than bytes. -/
theorem length_records_item_le (hpos : position < stop)
    (hopcode : d.program.code[position]? = some opcode) {depth : Nat}
    (hbody : (d.item depth position stop opcode).body? = none) :
    position + (d.item depth position stop opcode).records.length ≤
      (d.item depth position stop opcode).next := by
  rcases item_cases d.opcodes opcode with
    ⟨cause, hitem⟩ | ⟨mnemonic, hitem⟩ | ⟨mnemonic, encoding, -, hitem⟩
  · rw [hitem d rfl]
    exact Nat.le_refl _
  · rw [hitem d rfl] at hbody ⊢
    unfold switchItem at hbody ⊢
    split at hbody
    · exact hpos
    · next tableType tableStart tableEnd fallback r hread =>
      have hheader := header_le_of_read hpos hopcode hread
      dsimp only at hbody ⊢
      split at hbody
      · show position + 2 ≤ stop
        omega
      · next table htable =>
        obtain ⟨hoffset, hbodyStart, hle, -⟩ := SwitchTable.bounds_of_locate? htable
        simp only [SwitchTable.bodyStart, SwitchTable.base, SwitchTable.headerSize] at hbodyStart
        by_cases hdepth : d.settings.maxSwitchDepth < depth
        · rw [if_pos hdepth]
          show position + 2 ≤ table.stop
          omega
        · rw [if_neg hdepth] at hbody
          cases hbody
  · have hlt := d.lt_next_plainItem opcode mnemonic encoding hpos
    rw [hitem d rfl]
    unfold plainItem at hlt ⊢
    split at hlt
    · exact hlt
    · exact hpos

/-! ### Listings -/

/-- The number of markers that stand before the end of a window. -/
def markersBefore (stop : Nat) (markers : List Marker) : Nat :=
  markers.countP fun m => m.address < stop

/-- A step takes markers before the end only, and the others are still to come. -/
theorem markersBefore_eq {position stop : Nat} (hpos : position < stop) (markers : List Marker) :
    markersBefore stop markers = (markers.takeWhile fun m => m.address ≤ position).length +
      markersBefore stop (markers.dropWhile fun m => m.address ≤ position) := by
  have htaken : markersBefore stop (markers.takeWhile fun m => m.address ≤ position) =
      (markers.takeWhile fun m => m.address ≤ position).length := by
    refine List.countP_eq_length.mpr fun m hm => ?_
    have hle := List.all_eq_true.mp List.all_takeWhile m hm
    simp only [decide_eq_true_eq] at hle ⊢
    omega
  rw [← htaken, markersBefore, markersBefore, markersBefore, ← List.countP_append,
    List.takeWhile_append_dropWhile]

/-- Without known lines, a listing has at most one record for each byte of its window, and one for
each marker before the end. -/
theorem length_listing_le (hlocate : d.locate? = fun _ => none) (depth stop : Nat)
    (shown : Option Location) (markers : List Marker) (position : Nat) :
    (d.listing depth stop shown markers position).length ≤
      (stop - position) + markersBefore stop markers := by
  induction depth, stop, position using d.window_induction generalizing shown markers with
  | done depth stop position hdone => simp [listing_of_done hdone]
  | item depth stop position opcode hpos hopcode ihBody ihNext =>
    have hheading : (d.heading shown markers position).length =
        (markers.takeWhile fun m => m.address ≤ position).length := by
      simp [heading, newLocation?, hlocate]
    have hmarkers := markersBefore_eq hpos markers
    have hnext := ihNext ((d.newLocation? shown position).or shown)
      (markers.dropWhile fun m => m.address ≤ position)
    obtain ⟨-, hstop⟩ := item_describes hpos hopcode depth
    rw [listing_of_some hpos hopcode]
    simp only [List.length_append, hheading]
    cases hbody : (d.item depth position stop opcode).body? with
    | none =>
      have := length_records_item_le hpos hopcode hbody
      simp only [bodyListing, List.length_nil]
      omega
    | some table =>
      obtain ⟨-, fields, hitem⟩ := item_of_body hbody
      have hone : (d.item depth position stop opcode).records.length = 1 := by
        rw [hitem]
        rfl
      have hinner : (d.listing (depth + 1) table.start none [] table.bodyStart).length ≤
          table.start - table.bodyStart := ihBody table hbody none []
      have htable := table.length_records_le d.program.code d.program d.settings.switchKeyWidth
      obtain ⟨hbodyStart, hstart, hle, -, hgoes⟩ := d.body_of_item hbody
      simp only [bodyListing, List.length_append]
      omega

/-- A listing shows at most one source line for each byte of its window. -/
theorem length_locations_listing_le (d : Disassembler) (depth stop : Nat) (shown : Option Location)
    (markers : List Marker) (position : Nat) :
    (Record.locations (d.listing depth stop shown markers position)).length ≤ stop - position := by
  induction depth, stop, position using d.window_induction generalizing shown markers with
  | done depth stop position hdone => simp [listing_of_done hdone, Record.locations]
  | item depth stop position opcode hpos hopcode ihBody ihNext =>
    have hheading : (Record.locations (d.heading shown markers position)).length ≤ 1 := by
      have hmarkers : Record.locations
          ((markers.takeWhile fun m => m.address ≤ position).map Marker.record) = [] := by
        simp [Record.locations, Marker.record, Record.location?]
      rw [heading, Record.locations_append, hmarkers]
      cases d.newLocation? shown position <;> simp [Record.locations, Record.location?]
    have hitem := Record.locations_eq_nil (d.isHeading_item depth position stop opcode)
    have hnext := ihNext ((d.newLocation? shown position).or shown)
      (markers.dropWhile fun m => m.address ≤ position)
    have hlt := d.lt_next_item depth opcode hpos
    obtain ⟨-, hstop⟩ := item_describes hpos hopcode depth
    rw [listing_of_some hpos hopcode]
    simp only [Record.locations_append, List.length_append, hitem, List.length_nil]
    cases hbody : (d.item depth position stop opcode).body? with
    | none =>
      have hnone : Record.locations (d.bodyListing depth none) = [] := rfl
      rw [hnone, List.length_nil]
      omega
    | some table =>
      have hinner := ihBody table hbody none []
      have htable := Record.locations_eq_nil
        (table.isHeading_records d.program.code d.program d.settings.switchKeyWidth)
      obtain ⟨hbodyStart, hstart, hle, -, hgoes⟩ := d.body_of_item hbody
      rw [bodyListing, Record.locations_append, htable, List.append_nil]
      omega

/-- The records of a listing are its source lines and the others. -/
theorem length_eq_add_locations (records : List Record) :
    records.length =
      (records.filter (·.location?.isNone)).length + (Record.locations records).length := by
  rw [Record.locations, List.length_filterMap_eq_countP, ← List.countP_eq_length_filter,
    List.length_eq_countP_add_countP fun record => record.location?.isNone]
  congr 1
  refine List.countP_congr fun record _ => ?_
  cases record.location? <;> simp

end Disassembler

/-! ### The number of functions -/

/-- The number of functions with code that a program defines. -/
def Program.codedCount (p : Program) : Nat :=
  (p.functions.drop p.lastInherited.toNat).countP fun f => !f.hasNoCode

/-- Only functions with code have their markers before the end of a window. -/
theorem Disassembler.markersBefore_ofProgram_le (p : Program) (stop : Nat) :
    markersBefore stop (Marker.ofProgram p stop) ≤ p.codedCount := by
  have hfst := List.zipIdx_map_fst 0 (p.functions.drop p.lastInherited.toNat)
  rw [markersBefore, Marker.ofProgram, (List.mergeSort_perm _ Marker.le).countP_eq, List.countP_map,
    Program.codedCount, ← hfst, List.countP_map, hfst]
  refine List.countP_mono_left ?_
  rintro ⟨f, index⟩ - hbefore
  have hlt : (Marker.ofFunction stop f index).address < stop := of_decide_eq_true hbefore
  cases hcode : f.hasNoCode with
  | false => exact congrArg not hcode
  | true =>
    rw [Marker.ofFunction_of_noCode hcode] at hlt
    exact absurd hlt (Nat.not_lt.mpr (Nat.le_succ stop))

namespace Disassembler

open Cursor

/-- **Listings end and are short**: there are at most two records for each byte of the window and
one for each function with code, and without known lines one for each byte. -/
theorem decode_bounded (d : Disassembler) (start stop : Nat) :
    let last := min stop d.program.size
    let first := min start last
    let functions := if first = 0 then d.program.codedCount else 0
    (∀ n, (next? d (after d (d.window start stop) n)).map Prod.fst = (d.decode start stop)[n]?) ∧
      (∃ n ≤ 2 * (last - first) + functions,
        next? d (after d (d.window start stop) n) = none) ∧
      (d.decode start stop).length ≤ 2 * (last - first) + functions ∧
      (d.withoutLines.decode start stop).length ≤ (last - first) + functions := by
  intro last first functions
  have hmarkers : markersBefore last
      (if first = 0 then Marker.ofProgram d.program last else []) ≤ functions := by
    show _ ≤ if first = 0 then d.program.codedCount else 0
    split
    · exact markersBefore_ofProgram_le d.program last
    · exact Nat.le_refl 0
  -- Source lines are counted apart from the other records.
  have hplain : (d.withoutLines.decode start stop).length ≤ (last - first) + functions := by
    rw [decode_eq_outermost_listing]
    exact Nat.le_trans (length_listing_le rfl 1 last none _ first)
      (Nat.add_le_add_left hmarkers _)
  have hlines : (Record.locations (d.decode start stop)).length ≤ last - first := by
    rw [decode_eq_outermost_listing]
    exact length_locations_listing_le d 1 last none _ first
  have hlength : (d.decode start stop).length ≤ 2 * (last - first) + functions := by
    have hsum := length_eq_add_locations (d.decode start stop)
    rw [d.filter_decode start stop] at hsum
    omega
  have hdone : next? d (after d (d.window start stop) (d.decode start stop).length) = none := by
    have hnone := getElem?_toList d (d.window start stop) (d.decode start stop).length
    rw [show toList d (d.window start stop) = d.decode start stop from rfl, List.getElem?_length]
      at hnone
    exact Option.map_eq_none_iff.mp hnone.symm
  exact ⟨fun n => (getElem?_toList d (d.window start stop) n).symm, ⟨_, hlength, hdone⟩, hlength,
    hplain⟩

end Disassembler
end LpcInspect
