import LpcInspect.Proofs.Listing.FunctionStarts
import LpcInspect.Proofs.Listing.WindowMoves

/-!
# Where functions are shown to start

The functions that a program defines are sorted by address, and a window from the first address on
shows each of them before the first item that does not stand before its address. The window keeps
the markers that are still to come, so it shows each function once, even if several functions share
an address, or the address lies inside of an instruction or in the body of a switch. A function
without code has its marker after the end of the window: every step stands before the end,
`Cursor.Run.lt_stop`, so the marker stays in the table to the last, `Cursor.Run.kept`.

`Cursor.Run.started_sublist` says that a run of a window takes the markers in their order, and
`Cursor.Run.exists_reached` that it takes each of them at the first step that is not before its
address. Both are about runs of one window; the other windows of a listing have no markers.
-/

namespace LpcInspect

/-! ### The markers of a program -/

namespace Marker

/-- The order of markers, by address and at one address by index. -/
def Precedes (a b : Marker) : Prop :=
  a.address < b.address ∨ a.address = b.address ∧ a.index < b.index

/-- The markers of a program are those of the functions that it defines. -/
theorem mem_ofProgram {p : Program} {stop : Nat} {m : Marker} :
    m ∈ ofProgram p stop ↔
      ∃ f, p.localFunction? m.index = some f ∧ m = ofFunction stop f m.index := by
  simp only [ofProgram, List.mem_mergeSort, List.mem_map, Prod.exists,
    List.mem_zipIdx_iff_getElem?, List.getElem?_drop, Program.localFunction?]
  constructor
  · rintro ⟨f, index, hf, rfl⟩
    exact ⟨f, hf, rfl⟩
  · rintro ⟨f, hf, hm⟩
    exact ⟨f, m.index, hf, hm.symm⟩

theorem le_trans (a b c : Marker) (hab : a.le b = true) (hbc : b.le c = true) : a.le c = true := by
  simp only [le, Bool.or_eq_true, Bool.and_eq_true, decide_eq_true_eq, beq_iff_eq] at *
  omega

theorem le_total (a b : Marker) : (a.le b || b.le a) = true := by
  simp only [le, Bool.or_eq_true, Bool.and_eq_true, decide_eq_true_eq, beq_iff_eq]
  omega

/-- No two markers of a program belong to the same function. -/
theorem pairwise_index_ne (p : Program) (stop : Nat) :
    (ofProgram p stop).Pairwise (·.index ≠ ·.index) := by
  rw [ofProgram, (List.mergeSort_perm _ le).pairwise_iff (fun h => h.symm), List.pairwise_map]
  have hsnd : ((p.functions.drop p.lastInherited.toNat).zipIdx).Pairwise (·.2 < ·.2) := by
    rw [← List.pairwise_map, List.zipIdx_map_snd]
    exact List.pairwise_lt_range'
  exact hsnd.imp fun hlt => Nat.ne_of_lt hlt

/-- The markers of a program are in order. -/
theorem pairwise_precedes (p : Program) (stop : Nat) :
    (ofProgram p stop).Pairwise Precedes := by
  have hle : (ofProgram p stop).Pairwise fun a b => a.le b = true :=
    List.pairwise_mergeSort le_trans le_total _
  refine (hle.and (pairwise_index_ne p stop)).imp fun {a b} h => ?_
  simp only [le, Bool.or_eq_true, Bool.and_eq_true, decide_eq_true_eq, beq_iff_eq] at h
  unfold Precedes
  omega

end Marker

/-! ### One step -/

/-- The local index of the function that a record says to start. -/
def Record.started? : Record → Option Nat
  | .functionStart index _ => some index
  | _ => none

/-- The local indices of the functions that start among some records, in order. -/
def Record.started (records : List Record) : List Nat := records.filterMap Record.started?

@[simp] theorem Record.started_append (records more : List Record) :
    Record.started (records ++ more) = Record.started records ++ Record.started more :=
  List.filterMap_append

theorem Record.started_eq_nil {records : List Record}
    (h : ∀ record ∈ records, record.isFunctionStart = false) : Record.started records = [] := by
  refine List.filterMap_eq_nil_iff.mpr fun record hrecord => ?_
  have := h record hrecord
  cases record <;> simp_all [started?, isFunctionStart]

namespace Frame

variable (d : Disassembler) (depth : Nat) (f : Frame) (opcode : UInt8)

/-- A step shows the start of a function after its source line and before its item. -/
def ShowsStart (index : Nat) (name : String) : Prop :=
  ∃ (line : Option Location) (before after item : List Record),
    (f.step d depth opcode).records = (line.map Record.location).toList ++
      (before ++ .functionStart index name :: after) ++ item ∧
    (∀ record ∈ before ++ after, record.isFunctionStart = true) ∧ item ≠ [] ∧
    ∀ record ∈ item,
      (∃ i, record = .instruction i) ∨ ∃ offset cause, record = .diagnostic offset cause

/-- The functions that a step starts are those that the position has reached. -/
theorem started_step :
    Record.started (f.step d depth opcode).records = f.reached.map Marker.index := by
  have hline : Record.started ((f.newLocation? d).map Record.location).toList = [] := by
    cases f.newLocation? d <;> rfl
  have hitem : Record.started (d.item depth f.position f.stop opcode).records = [] :=
    Record.started_eq_nil fun record hrecord =>
      Record.isFunctionStart_of_isHeading (d.isHeading_item _ _ _ _ record hrecord)
  have hmarkers : Record.started (f.reached.map Marker.record) = f.reached.map Marker.index := by
    rw [Record.started, List.filterMap_map, ← List.filterMap_eq_map]
    rfl
  simp only [step, Record.started_append, hline, hitem, hmarkers, List.nil_append, List.append_nil]

/-- No function starts in a table. -/
theorem started_closing : Record.started (f.closing d) = [] :=
  Record.started_eq_nil fun record hrecord =>
    Record.isFunctionStart_of_isHeading (f.isHeading_closing d record hrecord)

/-- A marker that is reached is shown. -/
theorem showsStart_of_mem_reached {m : Marker} (h : m ∈ f.reached) :
    f.ShowsStart d depth opcode m.index m.name := by
  obtain ⟨before, after, hreached⟩ := List.append_of_mem h
  refine ⟨f.newLocation? d, before.map Marker.record, after.map Marker.record,
    (d.item depth f.position f.stop opcode).records, ?_, ?_, d.records_item_ne_nil _ _ _ _, ?_⟩
  · simp [step, hreached, Marker.record]
  · intro record hrecord
    rw [← List.map_append] at hrecord
    obtain ⟨m, -, rfl⟩ := List.mem_map.mp hrecord
    rfl
  · intro record hrecord
    exact Disassembler.mem_records_item hrecord

/-- A marker that is reached has its address at the position or before it. -/
theorem address_le_of_mem_reached {m : Marker} (h : m ∈ f.reached) : m.address ≤ f.position := by
  have hall : f.reached.all (fun m => m.address ≤ f.position) = true := List.all_takeWhile
  simpa using List.all_eq_true.mp hall m h

/-- A step takes the markers that are reached and leaves the others. -/
theorem markers_eq : f.markers = f.reached ++ (f.step d depth opcode).frame.markers :=
  List.takeWhile_append_dropWhile.symm

/-- A marker after the position is still to come after the step. -/
theorem mem_markers_step {m : Marker} (hm : m ∈ f.markers) (h : f.position < m.address) :
    m ∈ (f.step d depth opcode).frame.markers := by
  rw [f.markers_eq d depth opcode] at hm
  rcases List.mem_append.mp hm with hreached | hlater
  · exact absurd (f.address_le_of_mem_reached hreached) (Nat.not_le.mpr h)
  · exact hlater

/-- In order of addresses, all markers up to the position are reached. -/
theorem mem_reached {m : Marker} (hsorted : f.markers.Pairwise (·.address ≤ ·.address))
    (hm : m ∈ f.markers) (h : m.address ≤ f.position) : m ∈ f.reached := by
  unfold reached
  generalize f.markers = markers at hsorted hm
  induction markers with
  | nil => cases hm
  | cons first rest ih =>
    obtain ⟨hfirst, hrest⟩ := List.pairwise_cons.mp hsorted
    have hle : first.address ≤ f.position := by
      rcases List.mem_cons.mp hm with rfl | hm
      · exact h
      · exact Nat.le_trans (hfirst m hm) h
    rw [List.takeWhile_cons_of_pos (by simpa using hle)]
    rcases List.mem_cons.mp hm with rfl | hm
    · exact .head _
    · exact .tail _ (ih hrest hm)

end Frame

/-! ### Runs of a window -/

namespace Cursor

variable {d : Disassembler} {depth : Nat} {f : Frame} {moves : List Move}

/-- The items of a window are listed from its position on. -/
theorem Run.position_le (h : Run d depth f moves) :
    ∀ o ∈ moves.filterMap Move.address?, f.position ≤ o := by
  induction h with
  | leave hopcode => simp [Move.address?]
  | @step f opcode rest hopcode hrest ih =>
    have hlt := Frame.position_lt_step hopcode depth
    intro o ho
    rcases List.mem_cons.mp ho with rfl | ho
    · exact Nat.le_refl _
    · exact Nat.le_of_lt (Nat.lt_of_lt_of_le hlt (ih o ho))

/-- The items of a window are listed at increasing addresses. -/
theorem Run.pairwise_address (h : Run d depth f moves) :
    (moves.filterMap Move.address?).Pairwise (· < ·) := by
  induction h with
  | leave hopcode => exact .nil
  | @step f opcode rest hopcode hrest ih =>
    refine List.pairwise_cons.mpr ⟨fun o ho => ?_, ih⟩
    exact Nat.lt_of_lt_of_le (Frame.position_lt_step hopcode depth) (hrest.position_le o ho)

/-- All items of a window stand before its end. -/
theorem Run.lt_stop (h : Run d depth f moves) :
    ∀ o ∈ moves.filterMap Move.address?, o < f.stop := by
  induction h with
  | leave hopcode => simp [Move.address?]
  | @step f opcode rest hopcode hrest ih =>
    exact List.forall_mem_cons.mpr ⟨Frame.position_lt_of_opcode? hopcode, ih⟩

/-- **A marker after the end of the window is kept**: each step has it and does not reach it. -/
theorem Run.kept (h : Run d depth f moves) {m : Marker} (hm : m ∈ f.markers)
    (hstop : f.stop ≤ m.address) :
    ∀ depth g opcode, .step depth g opcode ∈ moves → m ∈ g.markers ∧ m ∉ g.reached := by
  induction h with
  | leave hopcode => simp
  | @step f opcode rest hopcode hrest ih =>
    have hlt : f.position < m.address :=
      Nat.lt_of_lt_of_le (Frame.position_lt_of_opcode? hopcode) hstop
    intro depth' g opcode' hmem
    rcases List.mem_cons.mp hmem with heq | hmem
    · cases heq
      refine ⟨hm, fun hreached => ?_⟩
      exact absurd (f.address_le_of_mem_reached hreached) (Nat.not_le.mpr hlt)
    · exact ih (f.mem_markers_step d depth opcode hm hlt) hstop depth' g opcode' hmem

/-- The functions that start in a window are the first ones that it has to show, in this order. -/
theorem Run.started_sublist (h : Run d depth f moves) :
    (Record.started (moves.flatMap (Move.records d))).Sublist (f.markers.map Marker.index) := by
  induction h with
  | @leave f hopcode => simp [Move.records, Frame.started_closing]
  | @step f opcode rest hopcode hrest ih =>
    rw [List.flatMap_cons, Record.started_append, Move.records, Frame.started_step,
      f.markers_eq d depth opcode, List.map_append]
    exact (List.Sublist.refl _).append ih

/-- A function that starts in a window has an address that the window has reached. -/
theorem Run.exists_marker (h : Run d depth f moves) {index : Nat}
    (hindex : index ∈ Record.started (moves.flatMap (Move.records d))) :
    ∃ m ∈ f.markers, m.index = index ∧ ∃ o ∈ moves.filterMap Move.address?, m.address ≤ o := by
  induction h with
  | @leave f hopcode => simp [Move.records, Frame.started_closing] at hindex
  | @step f opcode rest hopcode hrest ih =>
    rw [List.flatMap_cons, Record.started_append, Move.records, Frame.started_step] at hindex
    rw [f.markers_eq d depth opcode]
    rcases List.mem_append.mp hindex with hreached | hlater
    · obtain ⟨m, hm, rfl⟩ := List.mem_map.mp hreached
      exact ⟨m, List.mem_append_left _ hm, rfl, f.position, .head _, f.address_le_of_mem_reached hm⟩
    · obtain ⟨m, hm, hindex, o, ho, hle⟩ := ih hlater
      exact ⟨m, List.mem_append_right _ hm, hindex, o, .tail _ ho, hle⟩

/-- **A marker is reached by the first step that is not before its address.** -/
theorem Run.exists_reached (h : Run d depth f moves)
    (hsorted : f.markers.Pairwise (·.address ≤ ·.address)) {m : Marker} (hm : m ∈ f.markers)
    (hreached : ∃ o ∈ moves.filterMap Move.address?, m.address ≤ o) :
    ∃ before depth g opcode after, moves = before ++ .step depth g opcode :: after ∧
      (∀ o ∈ before.filterMap Move.address?, o < m.address) ∧ m.address ≤ g.position ∧
      m ∈ g.reached := by
  induction h with
  | leave hopcode => simp [Move.address?] at hreached
  | @step f opcode rest hopcode hrest ih =>
    by_cases hpos : m.address ≤ f.position
    · exact ⟨[], depth, f, opcode, rest, rfl, by simp, hpos, f.mem_reached hsorted hm hpos⟩
    · have hlt : f.position < m.address := Nat.lt_of_not_le hpos
      have hsorted' : (f.step d depth opcode).frame.markers.Pairwise (·.address ≤ ·.address) :=
        hsorted.sublist (List.dropWhile_sublist _)
      have hreached' : ∃ o ∈ rest.filterMap Move.address?, m.address ≤ o := by
        obtain ⟨o, ho, hle⟩ := hreached
        rcases List.mem_cons.mp ho with rfl | ho
        · exact absurd hle hpos
        · exact ⟨o, ho, hle⟩
      obtain ⟨before, depth', g, opcode', after, hmoves, hbefore, hle, hg⟩ :=
        ih hsorted' (f.mem_markers_step d depth opcode hm hlt) hreached'
      refine ⟨.step depth f opcode :: before, depth', g, opcode', after, ?_, ?_, hle, hg⟩
      · rw [hmoves]
        rfl
      · exact List.forall_mem_cons.mpr ⟨hlt, hbefore⟩

/-- How the functions of a program are shown by the moves of a window that ends at `stop`: `started`
are the local indices of the functions that are said to start, in order. -/
structure ShowsFunctions (d : Disassembler) (stop : Nat) (moves : List Move)
    (started : List Nat) : Prop where
  /-- The steps of the window stand at increasing addresses. -/
  increasing : (moves.filterMap Move.address?).Pairwise (· < ·)
  /-- The steps of the window stand before its end. -/
  inside : ∀ o ∈ moves.filterMap Move.address?, o < stop
  /-- A function with code whose address is reached is shown once, by the first step that is not
  before the address, after the source line and before the item. -/
  shown : ∀ index f, d.program.localFunction? index = some f →
    f.isAlias = false → f.has FunctionFlag.prototype = false →
    f.has FunctionFlag.undefined = false →
    (∃ o ∈ moves.filterMap Move.address?, f.address.toNat ≤ o) →
      started.count index = 1 ∧
      ∃ before depth frame opcode after, moves = before ++ .step depth frame opcode :: after ∧
        (∀ o ∈ before.filterMap Move.address?, o < f.address.toNat) ∧
        f.address.toNat ≤ frame.position ∧ frame.ShowsStart d depth opcode index f.name
  /-- A function whose address is not reached is not shown. -/
  unreached : ∀ index f, d.program.localFunction? index = some f →
    (∀ o ∈ moves.filterMap Move.address?, o < f.address.toNat) → index ∉ started
  /-- A function without code is not shown. -/
  codeless : ∀ index f, d.program.localFunction? index = some f →
    f.isAlias = true ∨ f.has FunctionFlag.prototype = true ∨
      f.has FunctionFlag.undefined = true → index ∉ started
  /-- The marker of a function without code stands after the end of the window: each step has it in
  its table and does not reach it. -/
  sentinel : ∀ index f, d.program.localFunction? index = some f → f.hasNoCode = true →
    ∀ depth frame opcode, .step depth frame opcode ∈ moves →
      ⟨stop + 1, index, f.name⟩ ∈ frame.markers ∧ ⟨stop + 1, index, f.name⟩ ∉ frame.reached
  /-- Only functions that the program defines are shown. -/
  defined : ∀ index ∈ started, ∃ f, d.program.localFunction? index = some f
  /-- The functions are shown in the order of their addresses, and at one address in that of their
  indices. -/
  ordered : started.Pairwise fun i j => ∀ f g, d.program.localFunction? i = some f →
    d.program.localFunction? j = some g →
      f.address.toNat < g.address.toNat ∨ f.address = g.address ∧ i < j

/-- A function that starts in a window is one of those with code, and the window has reached its
address. -/
theorem Run.function_of_started (h : Run d depth f moves)
    (hmarkers : f.markers = Marker.ofProgram d.program f.stop) {index : Nat}
    (hindex : index ∈ Record.started (moves.flatMap (Move.records d))) :
    ∃ e, d.program.localFunction? index = some e ∧ e.hasNoCode = false ∧
      ∃ o ∈ moves.filterMap Move.address?, e.address.toNat ≤ o := by
  obtain ⟨m, hm, rfl, o, ho, hle⟩ := h.exists_marker hindex
  rw [hmarkers] at hm
  obtain ⟨e, he, hmarker⟩ := Marker.mem_ofProgram.mp hm
  rw [hmarker] at hle
  cases hcode : e.hasNoCode with
  | false =>
    rw [Marker.ofFunction_of_code hcode] at hle
    exact ⟨e, he, hcode, o, ho, hle⟩
  | true =>
    -- The marker would stand after the end of the window, and the step before it.
    rw [Marker.ofFunction_of_noCode hcode] at hle
    have hlt := h.lt_stop o ho
    exact absurd hle (by dsimp only; omega)

/-- The marker of a function that starts in a window stands at the address of the function. -/
theorem Run.marker_of_started (h : Run d depth f moves)
    (hmarkers : f.markers = Marker.ofProgram d.program f.stop) {m : Marker} (hm : m ∈ f.markers)
    (hindex : m.index ∈ Record.started (moves.flatMap (Move.records d))) {e : FunctionEntry}
    (he : d.program.localFunction? m.index = some e) :
    m = ⟨e.address.toNat, m.index, e.name⟩ := by
  obtain ⟨e₁, he₁, hcode, -⟩ := h.function_of_started hmarkers hindex
  rw [hmarkers] at hm
  obtain ⟨e₂, he₂, hmarker⟩ := Marker.mem_ofProgram.mp hm
  obtain rfl : e = e₁ := Option.some.inj (he.symm.trans he₁)
  obtain rfl : e = e₂ := Option.some.inj (he.symm.trans he₂)
  exact hmarker.trans (Marker.ofFunction_of_code hcode)

/-- **A window that has all functions to show** shows those with code, once and in order. -/
theorem Run.showsFunctions (h : Run d depth f moves)
    (hmarkers : f.markers = Marker.ofProgram d.program f.stop) :
    ShowsFunctions d f.stop moves (Record.started (moves.flatMap (Move.records d))) where
  increasing := h.pairwise_address
  inside := h.lt_stop
  shown := by
    intro index e he halias hprototype hundefined hreached
    have hcode : e.hasNoCode = false := by
      simp [FunctionEntry.hasNoCode_eq, halias, hprototype, hundefined]
    have hm : (⟨e.address.toNat, index, e.name⟩ : Marker) ∈ f.markers := by
      rw [hmarkers]
      exact Marker.mem_ofProgram.mpr ⟨e, he, (Marker.ofFunction_of_code hcode).symm⟩
    have hsorted : f.markers.Pairwise (·.address ≤ ·.address) := by
      rw [hmarkers]
      refine (Marker.pairwise_precedes d.program f.stop).imp fun {a b} hab => ?_
      unfold Marker.Precedes at hab
      omega
    obtain ⟨before, depth', g, opcode, after, hmoves, hbefore, hle, hg⟩ :=
      h.exists_reached hsorted hm hreached
    refine ⟨?_, before, depth', g, opcode, after, hmoves, hbefore, hle,
      g.showsStart_of_mem_reached d depth' opcode hg⟩
    have hmem : index ∈ Record.started (moves.flatMap (Move.records d)) := by
      rw [hmoves, List.flatMap_append, List.flatMap_cons, Record.started_append,
        Record.started_append, Move.records, Frame.started_step]
      simp only [List.mem_append, List.mem_map]
      exact .inr (.inl ⟨_, hg, rfl⟩)
    have hnodup : (f.markers.map Marker.index).Nodup := by
      rw [hmarkers]
      exact List.pairwise_map.mpr (Marker.pairwise_index_ne d.program f.stop)
    have hle := List.nodup_iff_count.mp (hnodup.sublist h.started_sublist) index
    have hpos := List.count_pos_iff.mpr hmem
    omega
  unreached := by
    intro index e he hbefore hindex
    obtain ⟨e', he', -, o, ho, hle⟩ := h.function_of_started hmarkers hindex
    obtain rfl : e = e' := Option.some.inj (he.symm.trans he')
    exact absurd hle (Nat.not_le.mpr (hbefore o ho))
  codeless := by
    intro index e he hflags hindex
    obtain ⟨e', he', hcode, -⟩ := h.function_of_started hmarkers hindex
    obtain rfl : e = e' := Option.some.inj (he.symm.trans he')
    rw [FunctionEntry.hasNoCode_eq] at hcode
    rcases hflags with hflag | hflag | hflag <;> simp [hflag] at hcode
  sentinel := by
    intro index e he hcode
    refine h.kept ?_ (Nat.le_succ f.stop)
    rw [hmarkers]
    exact Marker.mem_ofProgram.mpr ⟨e, he, (Marker.ofFunction_of_noCode hcode).symm⟩
  defined := by
    intro index hindex
    obtain ⟨e, he, -⟩ := h.function_of_started hmarkers hindex
    exact ⟨e, he⟩
  ordered := by
    have hmarked : (f.markers.map Marker.index).Pairwise fun i j =>
        ∃ a ∈ f.markers, ∃ b ∈ f.markers, a.index = i ∧ b.index = j ∧ a.Precedes b := by
      refine List.pairwise_map.mpr ?_
      rw [hmarkers]
      refine (Marker.pairwise_precedes d.program f.stop).imp_of_mem fun {a b} ha hb hab => ?_
      exact ⟨a, ha, b, hb, rfl, rfl, hab⟩
    -- Both functions are shown, so that their markers stand at their addresses.
    refine (hmarked.sublist h.started_sublist).imp_of_mem ?_
    rintro _ _ hi hj ⟨a, ha, b, hb, rfl, rfl, hab⟩ e e' he he'
    rw [h.marker_of_started hmarkers ha hi he, h.marker_of_started hmarkers hb hj he'] at hab
    exact hab.imp_right fun h => ⟨UInt16.toNat_inj.mp h.1, h.2⟩

/-- If functions start in the outermost window only, the moves in it are enough to find them. -/
theorem started_movesIn (h : ∀ move ∈ moves, move.frame.table? ≠ none →
    Record.started (Move.records d move) = []) :
    Record.started ((movesIn none moves).flatMap (Move.records d)) =
      Record.started (moves.flatMap (Move.records d)) := by
  induction moves with
  | nil => rfl
  | cons move rest ih =>
    obtain ⟨hmove, hrest⟩ := List.forall_mem_cons.mp h
    by_cases hnone : move.frame.table? = none
    · rw [movesIn_cons_self move hnone, List.flatMap_cons, List.flatMap_cons,
        Record.started_append, Record.started_append, ih hrest]
    · rw [movesIn_cons_other move hnone, List.flatMap_cons, Record.started_append, hmove hnone,
        ih hrest, List.nil_append]

end Cursor

/-! ### Listings -/

namespace Disassembler

open Cursor

variable (d : Disassembler)

/-- No function starts in the body of a switch. -/
theorem started_body (start stop : Nat) (table : SwitchTable) :
    Record.started ((movesIn (some table) (log d (d.window start stop).frames)).flatMap
      (Move.records d)) = [] := by
  rcases d.run_body start stop table with hnil | ⟨depth, hrun⟩
  · rw [hnil]
    rfl
  · exact List.eq_nil_of_sublist_nil hrun.started_sublist

/-- The functions that start in a listing start in its outermost window. -/
theorem started_decode (start stop : Nat) :
    Record.started ((movesIn none (log d (d.window start stop).frames)).flatMap
      (Move.records d)) = Record.started (d.decode start stop) := by
  rw [decode_eq_flatMap_log]
  refine started_movesIn fun move hmove htable => ?_
  obtain ⟨table, htable⟩ := Option.ne_none_iff_exists'.mp htable
  have hbody := d.started_body start stop table
  rw [Record.started, List.filterMap_flatMap, List.flatMap_eq_nil_iff] at hbody
  exact hbody move (List.mem_filter.mpr ⟨hmove, by simpa using htable⟩)

/-- No function starts in a window after the first address. -/
theorem started_decode_of_pos {start : Nat} (hstart : 0 < start) (stop : Nat) :
    Record.started (d.decode start stop) = [] := by
  rw [← started_decode]
  have hrun := d.run_outermost start stop
  by_cases hzero : min start (min stop d.program.size) = 0
  · -- The window is empty, so it is left at once.
    have hdone : (d.outermost start stop).opcode? d = none := by
      have hempty : ¬(d.outermost start stop).position < (d.outermost start stop).stop := by
        show ¬min start (min stop d.program.size) < min stop d.program.size
        omega
      rw [Frame.opcode?, if_neg hempty]
    generalize movesIn none (log d (d.window start stop).frames) = moves at hrun ⊢
    cases hrun with
    | leave => simp [Move.records, Frame.started_closing]
    | step hopcode => simp [hdone] at hopcode
  · have hmarkers : (d.outermost start stop).markers = [] := if_neg hzero
    have hsublist := hrun.started_sublist
    rw [hmarkers] at hsublist
    exact List.eq_nil_of_sublist_nil hsublist

/-- **Functions are shown where they start**, once each and in the order of their addresses, in the
outermost window from the first address on and nowhere else. -/
theorem decode_functionStarts (d : Disassembler) :
    (∀ stop,
      d.decode 0 stop = (log d (d.window 0 stop).frames).flatMap (Move.records d) ∧
      ShowsFunctions d (min stop d.program.size) (movesIn none (log d (d.window 0 stop).frames))
        (Record.started (d.decode 0 stop))) ∧
    ∀ start stop,
      (0 < start → Record.started (d.decode start stop) = []) ∧
      ∀ table, Record.started ((movesIn (some table) (log d (d.window start stop).frames)).flatMap
        (Move.records d)) = [] := by
  refine ⟨fun stop => ⟨d.decode_eq_flatMap_log 0 stop, ?_⟩, fun start stop =>
    ⟨fun hstart => d.started_decode_of_pos hstart stop, d.started_body start stop⟩⟩
  have hmarkers : (d.outermost 0 stop).markers =
      Marker.ofProgram d.program (d.outermost 0 stop).stop := by
    simp [outermost]
  rw [← started_decode]
  exact (d.run_outermost 0 stop).showsFunctions hmarkers

end Disassembler
end LpcInspect
