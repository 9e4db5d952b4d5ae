import LpcInspect.Listing.Disassembler

/-!
# Listings

A listing is produced one record at a time by a cursor over a stack of windows. The body of a switch
is a window of its own; when it is exhausted, the table of the switch is shown and the window around
it goes on after the table. `Cursor.next?` gives the next record, and `Cursor.toList` all of them;
`Cursor.toList_eq` says that the one is the iteration of the other.
-/

namespace LpcInspect

/-- The start of a function. -/
structure Marker where
  address : Nat
  /-- The local index of the function. -/
  index : Nat
  name : String
  deriving DecidableEq, Repr

namespace Marker

/-- Markers are ordered by address, and at one address by index. -/
def le (a b : Marker) : Bool :=
  a.address < b.address || (a.address == b.address && a.index ≤ b.index)

/-- The marker of a function in a window that ends at `stop`. A function without code is put after
the end of the window. -/
def ofFunction (stop : Nat) (f : FunctionEntry) (index : Nat) : Marker :=
  ⟨if f.hasNoCode then stop + 1 else f.address.toNat, index, f.name⟩

/-- The markers of the functions that a program defines, in order, for a window that ends at `stop`.
-/
def ofProgram (p : Program) (stop : Nat) : List Marker :=
  ((p.functions.drop p.lastInherited.toNat).zipIdx.map fun (f, index) =>
    ofFunction stop f index).mergeSort le

/-- The record of a marker. -/
def record (m : Marker) : Record := .functionStart m.index m.name

section OfFunction

variable {stop index : Nat} {f : FunctionEntry}

theorem ofFunction_of_code (h : f.hasNoCode = false) :
    ofFunction stop f index = ⟨f.address.toNat, index, f.name⟩ := by
  rw [ofFunction, if_neg (by simp [h])]

theorem ofFunction_of_noCode (h : f.hasNoCode = true) :
    ofFunction stop f index = ⟨stop + 1, index, f.name⟩ := by
  rw [ofFunction, if_pos h]

end OfFunction

end Marker

/-- A window that is being listed. -/
structure Frame where
  position : Nat
  stop : Nat
  /-- The source line shown last in this window. -/
  lastLocation : Option Location := none
  /-- The function starts still to come. -/
  markers : List Marker := []
  /-- The switch of which this window is the body. -/
  table? : Option SwitchTable := none

/-- What one step of a window gives. -/
structure FrameStep where
  records : List Record
  /-- The window after the step. -/
  frame : Frame
  /-- The window of a switch body that is listed first. -/
  body? : Option Frame

namespace Frame

/-- The window of the body of a switch. -/
def ofTable (t : SwitchTable) : Frame :=
  { position := t.bodyStart, stop := t.start, table? := some t }

/-- The opcode at the position, unless the window is exhausted. -/
def opcode? (d : Disassembler) (f : Frame) : Option UInt8 :=
  if f.position < f.stop then d.program.code[f.position]? else none

/-- The source line at the position if it is known and not the one shown last. -/
def newLocation? (d : Disassembler) (f : Frame) : Option Location :=
  match d.locate? f.position with
  | some l => if f.lastLocation = some l then none else some l
  | none => none

/-- The function starts that the position has reached. -/
def reached (f : Frame) : List Marker := f.markers.takeWhile fun m => m.address ≤ f.position

/-- One step of a window inside of `depth` windows: the source line if it is new, the functions that
start, and the item at the position. -/
def step (d : Disassembler) (depth : Nat) (f : Frame) (opcode : UInt8) : FrameStep :=
  let location? := f.newLocation? d
  let item := d.item depth f.position f.stop opcode
  { records := (location?.map Record.location).toList ++ f.reached.map Marker.record ++ item.records
    frame :=
      { f with
        position := item.next
        lastLocation := location?.or f.lastLocation
        markers := f.markers.dropWhile fun m => m.address ≤ f.position }
    body? := item.body?.map ofTable }

/-- The records after a window is exhausted: the table of its switch. -/
def closing (d : Disassembler) (f : Frame) : List Record :=
  match f.table? with
  | some t => t.records d.program.code d.program d.settings.switchKeyWidth
  | none => []

/-- The bytes of a window that are still to be listed, counted double, and one for the window. -/
def weight (f : Frame) : Nat := 2 * (f.stop - f.position) + 1

end Frame

/-- Where a listing stands: the windows being listed, the innermost one first, and the records
already decoded. -/
structure Cursor where
  frames : List Frame
  pending : List Record := []

namespace Cursor

/-- Decode the next records: close exhausted windows up to the first one that has a table to show
or can go on. -/
def refill (d : Disassembler) : List Frame → List Record × List Frame
  | [] => ([], [])
  | f :: outer =>
    match f.opcode? d with
    | some opcode =>
      let s := f.step d (outer.length + 1) opcode
      (s.records, s.body?.toList ++ s.frame :: outer)
    | none =>
      match f.closing d with
      | [] => refill d outer
      | records => (records, outer)

/-- The next record, and the listing after it. -/
def next? (d : Disassembler) : Cursor → Option (Record × Cursor)
  | ⟨frames, record :: rest⟩ => some (record, ⟨frames, rest⟩)
  | ⟨frames, []⟩ =>
    match refill d frames with
    | (record :: rest, frames) => some (record, ⟨frames, rest⟩)
    | ([], _) => none

/-- The bytes that are still to be listed, counted double, and the open windows. -/
def weight : List Frame → Nat
  | [] => 0
  | f :: outer => f.weight + weight outer

@[simp] theorem weight_nil : weight [] = 0 := rfl

@[simp] theorem weight_cons (f : Frame) (outer : List Frame) :
    weight (f :: outer) = f.weight + weight outer := rfl

/-- A step leaves less to be listed. -/
theorem weight_step_lt (d : Disassembler) (depth : Nat) (f : Frame) (opcode : UInt8)
    (outer : List Frame) (h : f.position < f.stop) :
    weight ((f.step d depth opcode).body?.toList ++ (f.step d depth opcode).frame :: outer) <
      weight (f :: outer) := by
  have hnext := d.lt_next_item depth opcode h
  cases hbody : (d.item depth f.position f.stop opcode).body? with
  | none =>
    simp only [Frame.step, hbody, Option.map_none, Option.toList_none, List.nil_append, weight_cons,
      Frame.weight]
    omega
  | some table =>
    obtain ⟨h1, h2, h3, h4, h5⟩ := d.body_of_item hbody
    simp only [Frame.step, hbody, Option.map_some, Option.toList_some, List.cons_append,
      List.nil_append, weight_cons, Frame.weight, Frame.ofTable, h5]
    omega

/-- Decoding records leaves less to be listed. -/
theorem weight_refill_lt (d : Disassembler) {frames next : List Frame} {record : Record}
    {rest : List Record} (h : refill d frames = (record :: rest, next)) :
    weight next < weight frames := by
  induction frames with
  | nil => cases h
  | cons f outer ih =>
    rw [refill] at h
    split at h
    · next opcode hopcode =>
      have hpos : f.position < f.stop := by
        unfold Frame.opcode? at hopcode
        split at hopcode
        · assumption
        · cases hopcode
      rw [← (Prod.mk.inj h).2]
      exact weight_step_lt d _ f opcode outer hpos
    · have hf : 0 < f.weight := Nat.succ_pos _
      split at h
      · exact Nat.lt_of_lt_of_le (ih h) (Nat.le_add_left _ _)
      · rw [← (Prod.mk.inj h).2, weight_cons]
        omega

/-- Each record brings a listing nearer to its end. -/
theorem next?_decreases {d : Disassembler} {c next : Cursor} {record : Record}
    (h : next? d c = some (record, next)) :
    Prod.Lex (· < ·) (· < ·) (weight next.frames, next.pending.length)
      (weight c.frames, c.pending.length) := by
  unfold next? at h
  split at h
  · cases h
    exact .right _ (by simp)
  · split at h
    · next hrefill =>
      cases h
      exact .left _ _ (weight_refill_lt d hrefill)
    · cases h

/-- All further records of a listing, after those found so far. -/
def collect (d : Disassembler) (c : Cursor) (found : Array Record) : Array Record :=
  match h : next? d c with
  | none => found
  | some (record, next) =>
    have := next?_decreases h
    collect d next (found.push record)
termination_by (weight c.frames, c.pending.length)
decreasing_by exact this

/-- All further records of a listing. -/
def toList (d : Disassembler) (c : Cursor) : List Record := (collect d c #[]).toList

/-- A listing that is at its end gives nothing more. -/
theorem collect_of_none {d : Disassembler} {c : Cursor} (h : next? d c = none)
    (found : Array Record) : collect d c found = found := by
  rw [collect]
  split
  · rfl
  · simp_all

/-- A listing that gives a record goes on after it. -/
theorem collect_of_some {d : Disassembler} {c next : Cursor} {record : Record}
    (h : next? d c = some (record, next)) (found : Array Record) :
    collect d c found = collect d next (found.push record) := by
  rw [collect]
  split
  · simp_all
  · next h' =>
    rw [h] at h'
    cases h'
    rfl

/-- The records found before come first. -/
theorem toList_collect (d : Disassembler) (c : Cursor) (found : Array Record) :
    (collect d c found).toList = found.toList ++ toList d c := by
  match h : next? d c with
  | none => simp [toList, collect_of_none h]
  | some (record, next) =>
    rw [toList, collect_of_some h, collect_of_some h, toList_collect d next, toList_collect d next]
    simp
termination_by (weight c.frames, c.pending.length)
decreasing_by all_goals exact next?_decreases h

/-- A listing is the iteration of its next record. -/
theorem toList_eq (d : Disassembler) (c : Cursor) :
    toList d c = match next? d c with
      | none => []
      | some (record, next) => record :: toList d next := by
  cases h : next? d c with
  | none => simp [toList, collect_of_none h]
  | some found =>
    obtain ⟨record, next⟩ := found
    rw [toList, collect_of_some h, toList_collect]
    simp

end Cursor

namespace Disassembler

/-- The listing of the window from `start` to `stop`, cut to the code. A window from the first
address on also shows where functions start. -/
def window (d : Disassembler) (start stop : Nat) : Cursor :=
  let stop := min stop d.program.size
  let start := min start stop
  { frames := [{
      position := start
      stop := stop
      markers := if start = 0 then Marker.ofProgram d.program stop else [] }] }

/-- The records of a window. -/
def decode (d : Disassembler) (start stop : Nat) : List Record := (d.window start stop).toList d

/-- The records of the whole program. -/
def decodeAll (d : Disassembler) : List Record := d.decode 0 d.program.size

end Disassembler
end LpcInspect
