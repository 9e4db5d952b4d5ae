import Mathlib.Data.List.Chain
import LpcInspect.Proofs.Listing.Headings
import LpcInspect.Proofs.Listing.WindowMoves

/-!
# Source lines in listings

Source lines are an annotation of a listing. They change nothing else of it: without them it is the
listing of the same window without known lines, `Disassembler.filter_listing`. And they say the
truth, in each window for itself: what a window has shown last is what its frame remembers,
`Cursor.Run.lastLocation_eq`, and a step shows a line exactly if it differs from that one. The
windows inside of a window keep their own last line, so neither the bodies listed in between nor
addresses without a line confuse it.
-/

namespace LpcInspect

/-- The source line that a record shows. -/
def Record.location? : Record → Option Location
  | .location place => some place
  | _ => none

/-- The source lines among some records. -/
def Record.locations (records : List Record) : List Location := records.filterMap Record.location?

@[simp] theorem Record.locations_append (records more : List Record) :
    Record.locations (records ++ more) = Record.locations records ++ Record.locations more :=
  List.filterMap_append

theorem Record.location?_of_isHeading {record : Record} (h : record.isHeading = false) :
    record.location? = none := by
  cases record <;> simp_all [isHeading, location?]

theorem Record.locations_eq_nil {records : List Record}
    (h : ∀ record ∈ records, record.isHeading = false) : Record.locations records = [] :=
  List.filterMap_eq_nil_iff.mpr fun record hrecord => location?_of_isHeading (h record hrecord)

/-! ### Listings without source lines -/

namespace Disassembler

variable (d : Disassembler)

/-- The disassembler that knows no source lines. -/
def withoutLines : Disassembler := { d with locate? := fun _ => none }

/-- Without its source line, what is shown before an item is the same as without known lines. -/
theorem filter_heading (shown : Option Location) (markers : List Marker) (position : Nat) :
    (d.heading shown markers position).filter (·.location?.isNone) =
      d.withoutLines.heading none markers position := by
  have hmarkers (ms : List Marker) :
      (ms.map Marker.record).filter (·.location?.isNone) = ms.map Marker.record := by
    simp [Marker.record, Record.location?]
  have hnone : d.withoutLines.newLocation? none position = none := rfl
  rw [heading, heading, hnone, List.filter_append, hmarkers]
  cases d.newLocation? shown position <;> rfl

/-- **A listing without its source lines is the listing without known lines.** -/
theorem filter_listing (depth stop : Nat) (shown : Option Location) (markers : List Marker)
    (position : Nat) :
    (d.listing depth stop shown markers position).filter (·.location?.isNone) =
      d.withoutLines.listing depth stop none markers position := by
  have hkeep (record : Record) (h : record.isHeading = false) :
      record.location?.isNone = true := by
    rw [Record.location?_of_isHeading h]
    rfl
  exact d.filter_listing_of_heading (fun _ => none) (fun _ => none) id hkeep d.filter_heading
    (fun _ _ => rfl) (fun _ _ => rfl) rfl rfl depth stop shown markers position

/-- The records of a window without its source lines are those without known lines. -/
theorem filter_decode (start stop : Nat) :
    (d.decode start stop).filter (·.location?.isNone) = d.withoutLines.decode start stop := by
  rw [decode_eq_outermost_listing, decode_eq_outermost_listing]
  exact d.filter_listing 1 _ _ _ _

end Disassembler

/-! ### One step -/

namespace Frame

variable (d : Disassembler) (depth : Nat) (f : Frame) (opcode : UInt8)

/-- A step shows its source line first, and no other. -/
theorem records_step_eq : ∃ others, (f.step d depth opcode).records =
      ((f.newLocation? d).map Record.location).toList ++ others ∧
    ∀ record ∈ others, record.location? = none := by
  refine ⟨f.reached.map Marker.record ++ (d.item depth f.position f.stop opcode).records, ?_, ?_⟩
  · simp [step]
  · intro record hrecord
    rcases List.mem_append.mp hrecord with hmarker | hitem
    · obtain ⟨m, -, rfl⟩ := List.mem_map.mp hmarker
      rfl
    · exact Record.location?_of_isHeading (d.isHeading_item _ _ _ _ record hitem)

theorem locations_step :
    Record.locations (f.step d depth opcode).records = (f.newLocation? d).toList := by
  obtain ⟨others, hrecords, hothers⟩ := f.records_step_eq d depth opcode
  have hnil : Record.locations others = [] := List.filterMap_eq_nil_iff.mpr hothers
  rw [hrecords, Record.locations_append, hnil]
  cases f.newLocation? d <;> rfl

/-- A table shows no source lines. -/
theorem locations_closing : Record.locations (f.closing d) = [] :=
  Record.locations_eq_nil (f.isHeading_closing d)

/-- A window remembers the source line that it has shown last. -/
theorem lastLocation_step : (f.step d depth opcode).frame.lastLocation =
    (Record.locations (f.step d depth opcode).records).getLast?.or f.lastLocation := by
  rw [locations_step]
  show (f.newLocation? d).or f.lastLocation = _
  cases f.newLocation? d <;> rfl

/-- A source line that is shown is that of the position. -/
theorem locate?_of_newLocation? {l : Location} (h : f.newLocation? d = some l) :
    d.locate? f.position = some l ∧ f.lastLocation ≠ some l := by
  unfold newLocation? at h
  split at h
  · next place hplace =>
    split at h
    · cases h
    · next hne =>
      cases h
      exact ⟨hplace, hne⟩
  · cases h

/-- After a step the window has shown the source line of the position, if there is one. -/
theorem lastLocation_step_of_locate? {l : Location} (h : d.locate? f.position = some l) :
    (f.step d depth opcode).frame.lastLocation = some l := by
  show (f.newLocation? d).or f.lastLocation = some l
  by_cases hshown : f.lastLocation = some l
  · simp [newLocation?, h, hshown]
  · simp [newLocation?, h, hshown]

end Frame

/-! ### Runs of a window -/

namespace Cursor

variable {d : Disassembler} {depth : Nat} {f : Frame} {moves : List Move}

/-- **A window remembers the source line that it has shown last**, at each of its moves. -/
theorem Run.lastLocation_eq (h : Run d depth f moves) {before after : List Move} {move : Move}
    (hmoves : moves = before ++ move :: after) :
    move.frame.lastLocation =
      (Record.locations (before.flatMap (Move.records d))).getLast?.or f.lastLocation := by
  induction h generalizing before with
  | leave hopcode =>
    obtain ⟨rfl, hcons⟩ | ⟨-, hnil⟩ := List.singleton_eq_append_iff.mp hmoves
    · cases hcons
      rfl
    · cases hnil
  | @step f opcode rest hopcode hrest ih =>
    cases before with
    | nil =>
      cases hmoves
      rfl
    | cons first before =>
      cases hmoves
      rw [ih rfl, Frame.lastLocation_step, ← Option.or_assoc, ← List.getLast?_append,
        ← Record.locations_append]
      rfl

/-- No source line is shown twice in a row. -/
theorem Run.isChain_locations (h : Run d depth f moves) :
    (f.lastLocation.toList ++
      Record.locations (moves.flatMap (Move.records d))).IsChain (· ≠ ·) := by
  induction h with
  | @leave f hopcode =>
    have hleave : Record.locations ([Move.leave f].flatMap (Move.records d)) = [] := by
      simp [Move.records, Frame.locations_closing]
    rw [hleave]
    cases f.lastLocation <;> simp
  | @step f opcode rest hopcode hrest ih =>
    have hstep : Record.locations (Move.records d (.step depth f opcode)) =
        (f.newLocation? d).toList := f.locations_step d depth opcode
    have hlast : (f.step d depth opcode).frame.lastLocation =
        (f.newLocation? d).or f.lastLocation := rfl
    rw [List.flatMap_cons, Record.locations_append, hstep]
    rw [hlast] at ih
    cases hnew : f.newLocation? d with
    | none =>
      rw [hnew] at ih
      exact ih
    | some l =>
      rw [hnew] at ih
      cases hshown : f.lastLocation with
      | none => exact ih
      | some shown =>
        have hne : shown ≠ l := by
          rintro rfl
          exact (f.locate?_of_newLocation? d hnew).2 hshown
        exact List.isChain_cons_cons.mpr ⟨hne, ih⟩

/-- **The source line of each step is the one that its window has shown last**, that step
included. -/
theorem Run.getLast?_locations (h : Run d depth f moves) (hf : f.lastLocation = none)
    {before after : List Move} {depth' : Nat} {g : Frame} {opcode : UInt8}
    (hmoves : moves = before ++ .step depth' g opcode :: after) {l : Location}
    (hl : d.locate? g.position = some l) :
    (Record.locations ((before ++ [Move.step depth' g opcode]).flatMap
      (Move.records d))).getLast? = some l := by
  have hbefore : g.lastLocation =
      (Record.locations (before.flatMap (Move.records d))).getLast?.or f.lastLocation :=
    h.lastLocation_eq hmoves
  have hafter := g.lastLocation_step_of_locate? d depth' opcode hl
  rw [hf, Option.or_none] at hbefore
  rw [Frame.lastLocation_step, hbefore, ← List.getLast?_append, ← Record.locations_append] at hafter
  simpa [Move.records] using hafter

end Cursor

namespace Disassembler

open Cursor

/-- **Source lines are a faithful annotation**: a step shows the line of its address exactly if it
differs from the one that its window has shown last. -/
theorem decode_locations (d : Disassembler) (start stop : Nat) :
    (d.decode start stop).filter (·.location?.isNone) = d.withoutLines.decode start stop ∧
      d.decode start stop = (log d (d.window start stop).frames).flatMap (Move.records d) ∧
      ∀ window : Option SwitchTable,
        let moves := movesIn window (log d (d.window start stop).frames)
        (∀ before depth frame opcode after, moves = before ++ .step depth frame opcode :: after →
          (∃ (shown : Option Location) (others : List Record),
            (frame.step d depth opcode).records =
              (shown.map Record.location).toList ++ others ∧
            (∀ l ∈ shown, d.locate? frame.position = some l) ∧
            ∀ record ∈ others, record.location? = none) ∧
          ∀ l, d.locate? frame.position = some l →
            (Record.locations ((before ++ [Move.step depth frame opcode]).flatMap
              (Move.records d))).getLast? = some l) ∧
        (Record.locations (moves.flatMap (Move.records d))).IsChain (· ≠ ·) := by
  refine ⟨d.filter_decode start stop, d.decode_eq_flatMap_log start stop, fun window => ?_⟩
  have hrun : movesIn window (log d (d.window start stop).frames) = [] ∨ ∃ depth f,
      f.lastLocation = none ∧
        Run d depth f (movesIn window (log d (d.window start stop).frames)) := by
    cases window with
    | none => exact .inr ⟨1, _, rfl, d.run_outermost start stop⟩
    | some table =>
      rcases d.run_body start stop table with hnil | ⟨depth, hbody⟩
      · exact .inl hnil
      · exact .inr ⟨depth, _, rfl, hbody⟩
  intro moves
  rcases hrun with hnil | ⟨depth, f, hf, hrun⟩
  · have hmoves : moves = [] := hnil
    simp [hmoves, Record.locations]
  · refine ⟨fun before depth' g opcode after hmoves => ⟨?_, fun l hl => ?_⟩, ?_⟩
    · obtain ⟨others, hrecords, hothers⟩ := g.records_step_eq d depth' opcode
      exact ⟨g.newLocation? d, others, hrecords,
        fun l hl => (g.locate?_of_newLocation? d hl).1, hothers⟩
    · exact hrun.getLast?_locations hf hmoves hl
    · have hchain := hrun.isChain_locations
      rwa [hf] at hchain

end Disassembler
end LpcInspect
