import LpcInspect.Opcode.Assembly
import LpcInspect.Proofs.Listing.Log

/-!
# Listings by recursion over windows

`Disassembler.listing` lists a window by recursion. A switch whose table can be placed is followed
by the whole listing of its body, then by its table, and then the window goes on after the table; a
switch inside of too many others is passed over, and one whose table cannot be placed ends its
window. There is no stack and nothing is pending: the recursion does what the stack does.

`Disassembler.decode_eq_listing` says that the records a cursor gives one by one are this listing.
The invariant is `Cursor.flatMap_log`: from any stack of windows on, the moves give the listing of
the innermost window, then the table it stands for, then the same for the window around it.
-/

namespace LpcInspect
namespace Disassembler

/-- The fields of a switch at an address, if there is one and its header lies inside of the window.
-/
def switchFields? (d : Disassembler) (position stop : Nat) (opcode : UInt8) :
    Option Writer.SwitchFields :=
  if opcode ≠ 0 ∧ d.opcodes.encoding? opcode = some .switch then
    match readSwitchHeader (d.operandReader position stop) with
    | .ok ((tableType, tableStart, tableEnd, fallback), _) =>
      some ⟨tableType, tableStart, tableEnd, fallback⟩
    | .error _ => none
  else none

/-- The instruction of a switch, with the offsets of its fields counted from the byte after the
opcode. -/
def switchInstruction (d : Disassembler) (position : Nat) (opcode : UInt8)
    (fields : Writer.SwitchFields) : Instruction :=
  let header : SwitchHeader :=
    ⟨fields.tableType, position + 1 + fields.tableStart.toNat,
      position + 1 + fields.tableEnd.toNat, position + 1 + fields.fallback.toNat⟩
  ⟨position, opcode, (d.opcodes.mnemonic? opcode).getD "unknown", .switch header, header.tableEnd⟩

/-- The source line of an address, unless it is the one shown last. -/
def newLocation? (d : Disassembler) (shown : Option Location) (position : Nat) : Option Location :=
  (d.locate? position).filter fun l => shown ≠ some l

/-- What is shown before the item at a position: its source line if that is new, and the functions
that start up to there. -/
def heading (d : Disassembler) (shown : Option Location) (markers : List Marker) (position : Nat) :
    List Record :=
  ((d.newLocation? shown position).map Record.location).toList ++
    (markers.takeWhile fun m => m.address ≤ position).map Marker.record

/-- The records of a window inside of `depth` windows, from a position on. -/
def listing (d : Disassembler) (depth stop : Nat) (shown : Option Location)
    (markers : List Marker) (position : Nat) : List Record :=
  if hpos : position < stop then
    match d.program.code[position]? with
    | none => []
    | some opcode =>
      let shownNow := (d.newLocation? shown position).or shown
      let later := markers.dropWhile fun m => m.address ≤ position
      d.heading shown markers position ++
        match d.switchFields? position stop opcode with
        | none =>
          have := d.lt_next_item depth opcode hpos
          let item := d.item depth position stop opcode
          item.records ++ d.listing depth stop shownNow later item.next
        | some fields =>
          .instruction (d.switchInstruction position opcode fields) ::
            match htable : SwitchTable.locate? position fields.tableType fields.tableStart
                fields.tableEnd stop with
            | none => [.diagnostic position .malformedSwitch]
            | some table =>
              have := SwitchTable.bounds_of_locate? htable
              if depth ≤ d.settings.maxSwitchDepth then
                d.listing (depth + 1) table.start none [] table.bodyStart ++
                  table.records d.program.code d.program d.settings.switchKeyWidth ++
                  d.listing depth stop shownNow later table.stop
              else
                .diagnostic position .nestingTooDeep ::
                  d.listing depth stop shownNow later table.stop
  else []
termination_by stop - position
decreasing_by
  · omega
  all_goals
    simp only [SwitchTable.bodyStart, SwitchTable.base, SwitchTable.headerSize] at *
    omega

/-! ### Switches as items -/

/-- The item at a switch whose header can be read. -/
theorem item_of_switchFields?_some {d : Disassembler} {position stop : Nat} {opcode : UInt8}
    {fields : Writer.SwitchFields} (h : d.switchFields? position stop opcode = some fields)
    (depth : Nat) :
    d.item depth position stop opcode =
      match SwitchTable.locate? position fields.tableType fields.tableStart fields.tableEnd
          stop with
      | none => ⟨[.instruction (d.switchInstruction position opcode fields),
          .diagnostic position .malformedSwitch], stop, none⟩
      | some table =>
        if d.settings.maxSwitchDepth < depth then
          ⟨[.instruction (d.switchInstruction position opcode fields),
            .diagnostic position .nestingTooDeep], table.stop, none⟩
        else ⟨[.instruction (d.switchInstruction position opcode fields)], table.stop,
          some table⟩ := by
  unfold switchFields? at h
  split at h
  · next hswitch =>
    split at h
    · next hread =>
      cases h
      simp only [item, if_neg hswitch.1, hswitch.2, switchItem, hread]
      rfl
    · cases h
  · cases h

/-- Where there is no switch with a header there is no body. -/
theorem body?_item_of_switchFields?_none {d : Disassembler} {position stop : Nat} {opcode : UInt8}
    (h : d.switchFields? position stop opcode = none) (depth : Nat) :
    (d.item depth position stop opcode).body? = none := by
  unfold item
  split
  · rfl
  · next hzero =>
    dsimp only
    split
    · rfl
    · next hencoding =>
      rw [switchFields?, if_pos ⟨hzero, hencoding⟩] at h
      unfold switchItem
      split at h
      · cases h
      · next hread => rw [hread]; rfl
    · unfold plainItem
      split <;> rfl

/-- Only a switch inside of few enough windows has its body listed, and nothing but its instruction
stands before the body. -/
theorem item_of_body {d : Disassembler} {depth position stop : Nat} {opcode : UInt8}
    {table : SwitchTable} (h : (d.item depth position stop opcode).body? = some table) :
    depth ≤ d.settings.maxSwitchDepth ∧ ∃ fields,
      d.item depth position stop opcode =
        ⟨[.instruction (d.switchInstruction position opcode fields)], table.stop,
          some table⟩ := by
  cases hfields : d.switchFields? position stop opcode with
  | none =>
    rw [body?_item_of_switchFields?_none hfields] at h
    cases h
  | some fields =>
    rw [item_of_switchFields?_some hfields] at h ⊢
    split at h
    · cases h
    · split at h
      · cases h
      · next hdepth =>
        cases h
        exact ⟨Nat.le_of_not_lt hdepth, fields, if_neg hdepth⟩

/-! ### One step of a listing -/

/-- The records of the body and the table of a switch. -/
def bodyListing (d : Disassembler) (depth : Nat) : Option SwitchTable → List Record
  | some table =>
    d.listing (depth + 1) table.start none [] table.bodyStart ++
      table.records d.program.code d.program d.settings.switchKeyWidth
  | none => []

/-- Nothing is listed after the end of a window. -/
theorem listing_of_le (d : Disassembler) (depth : Nat) {stop position : Nat}
    (shown : Option Location) (markers : List Marker) (h : stop ≤ position) :
    d.listing depth stop shown markers position = [] := by
  rw [listing, dif_neg (Nat.not_lt.mpr h)]

/-- Nothing is listed after the end of the code. -/
theorem listing_of_none {d : Disassembler} {position : Nat}
    (h : d.program.code[position]? = none) (depth stop : Nat) (shown : Option Location)
    (markers : List Marker) : d.listing depth stop shown markers position = [] := by
  rw [listing, h]
  split <;> rfl

/-- A listing shows the item at its position, then what the item holds, and goes on where the item
says. -/
theorem listing_of_some {d : Disassembler} {position stop : Nat} {opcode : UInt8}
    (hpos : position < stop) (hopcode : d.program.code[position]? = some opcode) (depth : Nat)
    (shown : Option Location) (markers : List Marker) :
    d.listing depth stop shown markers position =
      d.heading shown markers position ++ (d.item depth position stop opcode).records ++
        d.bodyListing depth (d.item depth position stop opcode).body? ++
        d.listing depth stop ((d.newLocation? shown position).or shown)
          (markers.dropWhile fun m => m.address ≤ position)
          (d.item depth position stop opcode).next := by
  rw [listing, dif_pos hpos, hopcode]
  dsimp only
  cases hfields : d.switchFields? position stop opcode with
  | none =>
    rw [body?_item_of_switchFields?_none hfields]
    simp only [bodyListing, List.append_nil, List.append_assoc]
  | some fields =>
    rw [item_of_switchFields?_some hfields]
    dsimp only
    split
    · next hlocate =>
      simp only [hlocate, bodyListing, listing_of_le d depth _ _ (Nat.le_refl stop),
        List.append_nil]
    · next table hlocate =>
      by_cases hdepth : depth ≤ d.settings.maxSwitchDepth
      · rw [if_pos hdepth]
        simp only [hlocate, if_neg (Nat.not_lt.mpr hdepth), bodyListing, List.append_assoc,
          List.cons_append, List.nil_append]
      · rw [if_neg hdepth]
        simp only [hlocate, if_pos (Nat.lt_of_not_le hdepth), bodyListing, List.append_nil,
          List.append_assoc, List.cons_append, List.nil_append]

/-- Nothing is listed where there is no opcode. -/
theorem listing_of_done {d : Disassembler} {stop position : Nat}
    (h : position < stop → d.program.code[position]? = none) (depth : Nat)
    (shown : Option Location) (markers : List Marker) :
    d.listing depth stop shown markers position = [] := by
  by_cases hpos : position < stop
  · exact listing_of_none (h hpos) depth stop shown markers
  · exact listing_of_le d depth shown markers (Nat.le_of_not_lt hpos)

/-- Induction along a window and the windows inside of it: an item leads to the window of its body,
if it has one, and to the address where its own window goes on. -/
@[elab_as_elim]
theorem window_induction (d : Disassembler) {motive : Nat → Nat → Nat → Prop}
    (done : ∀ depth stop position, (position < stop → d.program.code[position]? = none) →
      motive depth stop position)
    (item : ∀ depth stop position opcode, position < stop →
      d.program.code[position]? = some opcode →
      (∀ table, (d.item depth position stop opcode).body? = some table →
        motive (depth + 1) table.start table.bodyStart) →
      motive depth stop (d.item depth position stop opcode).next → motive depth stop position)
    (depth stop position : Nat) : motive depth stop position := by
  by_cases hpos : position < stop
  · cases hopcode : d.program.code[position]? with
    | none => exact done _ _ _ fun _ => hopcode
    | some opcode =>
      have hnext := d.lt_next_item depth opcode hpos
      refine item depth stop position opcode hpos hopcode (fun table hbody => ?_) ?_
      · obtain ⟨hbodyStart, -, hle, hstop, -⟩ := d.body_of_item hbody
        exact window_induction d done item (depth + 1) table.start table.bodyStart
      · exact window_induction d done item depth stop _
  · exact done _ _ _ fun h => absurd h hpos
termination_by stop - position

end Disassembler

/-! ### The stack of windows -/

namespace Frame

/-- The records of a window from where it stands. -/
def listing (d : Disassembler) (depth : Nat) (f : Frame) : List Record :=
  d.listing depth f.stop f.lastLocation f.markers f.position

theorem newLocation?_eq (d : Disassembler) (f : Frame) :
    f.newLocation? d = d.newLocation? f.lastLocation f.position := by
  unfold newLocation? Disassembler.newLocation?
  cases d.locate? f.position with
  | none => rfl
  | some l => by_cases h : f.lastLocation = some l <;> simp [Option.filter, h]

/-- A step shows the heading of its position and the item there. -/
theorem records_step (d : Disassembler) (depth : Nat) (f : Frame) (opcode : UInt8) :
    (f.step d depth opcode).records = d.heading f.lastLocation f.markers f.position ++
      (d.item depth f.position f.stop opcode).records := by
  simp only [step, newLocation?_eq, reached, Disassembler.heading]

/-- A step does what the recursion does at one position. -/
theorem listing_of_some {d : Disassembler} {f : Frame} {opcode : UInt8}
    (h : f.opcode? d = some opcode) (depth : Nat) :
    f.listing d depth = (f.step d depth opcode).records ++
      d.bodyListing depth (d.item depth f.position f.stop opcode).body? ++
      (f.step d depth opcode).frame.listing d depth := by
  rw [listing, Disassembler.listing_of_some (position_lt_of_opcode? h) (getElem?_of_opcode? h),
    records_step]
  simp only [listing, step, newLocation?_eq]

/-- An exhausted window has nothing more to list. -/
theorem listing_of_none {d : Disassembler} {f : Frame} (h : f.opcode? d = none) (depth : Nat) :
    f.listing d depth = [] := by
  unfold opcode? at h
  split at h
  · exact Disassembler.listing_of_none h _ _ _ _
  · next hpos => exact d.listing_of_le depth _ _ (Nat.le_of_not_lt hpos)

end Frame

namespace Cursor

/-- What a stack of windows stands for: each window is listed from where it stands, then comes the
table of the switch it is the body of. -/
def stackListing (d : Disassembler) : List Frame → List Record
  | [] => []
  | f :: outer => f.listing d (outer.length + 1) ++ f.closing d ++ stackListing d outer

/-- **The moves from a stack of windows on give what the stack stands for.** -/
theorem flatMap_log (d : Disassembler) (frames : List Frame) :
    (log d frames).flatMap (Move.records d) = stackListing d frames := by
  induction frames using stack_induction d with
  | nil => rw [log_nil, List.flatMap_nil, stackListing]
  | item f outer opcode h hbody ih =>
    rw [log_of_item h hbody, List.flatMap_cons, ih, stackListing, stackListing,
      Frame.listing_of_some h, hbody, Disassembler.bodyListing, List.append_nil,
      List.append_assoc, List.append_assoc, List.append_assoc]
    rfl
  | switch f outer opcode table h hbody ih =>
    -- The new innermost window starts with nothing shown, and its table closes it.
    have hinner : Frame.listing d (outer.length + 1 + 1) (.ofTable table) ++
        Frame.closing d (.ofTable table) = d.bodyListing (outer.length + 1) (some table) := rfl
    rw [log_of_switch h hbody, List.flatMap_cons, ih, stackListing, stackListing, stackListing,
      List.length_cons, hinner, Frame.listing_of_some h, hbody]
    simp only [List.append_assoc]
    rfl
  | leave f outer h ih =>
    rw [log_of_none h, List.flatMap_cons, ih, stackListing, Frame.listing_of_none h]
    rfl

end Cursor

/-- The records of a window are those of a stack with that window only. -/
theorem Disassembler.decode_eq_stackListing (d : Disassembler) (start stop : Nat) :
    d.decode start stop = Cursor.stackListing d (d.window start stop).frames := by
  rw [decode_eq_flatMap_log, Cursor.flatMap_log]

/-- The records of a window are the listing of the outermost window, which is no body and so has no
table after it. -/
theorem Disassembler.decode_eq_outermost_listing (d : Disassembler) (start stop : Nat) :
    d.decode start stop = (d.outermost start stop).listing d 1 := by
  have hclosing : (d.outermost start stop).closing d = [] := rfl
  rw [decode_eq_stackListing, frames_window, Cursor.stackListing, Cursor.stackListing, hclosing,
    List.append_nil, List.append_nil]
  rfl

/-- A window inside of the code is listed by recursion over it. -/
theorem Disassembler.decode_of_le (d : Disassembler) {start stop : Nat} (hstart : start ≤ stop)
    (hstop : stop ≤ d.program.size) :
    d.decode start stop =
      d.listing 1 stop none (if start = 0 then Marker.ofProgram d.program stop else []) start := by
  rw [decode_eq_stackListing]
  simp [window, Cursor.stackListing, Frame.listing, Frame.closing, Nat.min_eq_left hstop,
    Nat.min_eq_left hstart]

/-- A window is cut to the code. -/
theorem Disassembler.decode_cut (d : Disassembler) (start stop : Nat) :
    d.decode start stop =
      d.decode (min start (min stop d.program.size)) (min stop d.program.size) := by
  simp [decode, window]

/-- **A listing is the recursive listing of its window**: the cursor with its stack of windows
gives, record by record, what the recursion over windows gives. -/
theorem Disassembler.decode_eq_listing (d : Disassembler) (start stop : Nat) :
    d.decode start stop =
      d.listing 1 (min stop d.program.size) none
        (if min start (min stop d.program.size) = 0 then
          Marker.ofProgram d.program (min stop d.program.size) else [])
        (min start (min stop d.program.size)) := by
  rw [decode_eq_stackListing]
  simp [window, Cursor.stackListing, Frame.listing, Frame.closing]

end LpcInspect
