import LpcInspect.Listing.Cursor

/-!
# The moves of a listing

A listing moves in its innermost window: it lists the item at the position of that window, or it
leaves the window when the window is exhausted. `Cursor.log` is the list of all these moves, and
`Cursor.toList_eq_flatMap_log` says that the records of a listing are those of its moves in order.
So a statement about every step of every window is a statement about the log.
-/

namespace LpcInspect

/-- A window that can go on has a position before its end. -/
theorem Frame.position_lt_of_opcode? {d : Disassembler} {f : Frame} {opcode : UInt8}
    (h : f.opcode? d = some opcode) : f.position < f.stop := by
  unfold Frame.opcode? at h
  split at h
  · assumption
  · cases h

/-- The opcode at the position of a window is a byte of the code. -/
theorem Frame.getElem?_of_opcode? {d : Disassembler} {f : Frame} {opcode : UInt8}
    (h : f.opcode? d = some opcode) : d.program.code[f.position]? = some opcode := by
  rwa [Frame.opcode?, if_pos (Frame.position_lt_of_opcode? h)] at h

namespace Cursor

/-- A move of a listing in its innermost window. -/
inductive Move where
  /-- The item at the position is listed; `depth` windows are open. -/
  | step (depth : Nat) (frame : Frame) (opcode : UInt8)
  /-- The window is left. -/
  | leave (frame : Frame)

/-- The records that a move gives. -/
def Move.records (d : Disassembler) : Move → List Record
  | .step depth frame opcode => (frame.step d depth opcode).records
  | .leave frame => frame.closing d

/-- The moves of a listing from some open windows on. -/
def log (d : Disassembler) : List Frame → List Move
  | [] => []
  | f :: outer =>
    match h : f.opcode? d with
    | some opcode =>
      have := weight_step_lt d (outer.length + 1) f opcode outer (Frame.position_lt_of_opcode? h)
      let s := f.step d (outer.length + 1) opcode
      .step (outer.length + 1) f opcode :: log d (s.body?.toList ++ s.frame :: outer)
    | none =>
      have : weight outer < weight (f :: outer) := Nat.lt_add_of_pos_left (Nat.succ_pos _)
      .leave f :: log d outer
termination_by frames => weight frames
decreasing_by all_goals assumption

@[simp] theorem log_nil (d : Disassembler) : log d [] = [] := by
  rw [log]

/-- An item is listed as long as there is one. -/
theorem log_of_some {d : Disassembler} {f : Frame} {opcode : UInt8} (h : f.opcode? d = some opcode)
    (outer : List Frame) :
    log d (f :: outer) = .step (outer.length + 1) f opcode ::
      log d ((f.step d (outer.length + 1) opcode).body?.toList ++
        (f.step d (outer.length + 1) opcode).frame :: outer) := by
  rw [log]
  split
  · next opcode' h' =>
    rw [h] at h'
    cases h'
    rfl
  · simp_all

/-- An exhausted window is left. -/
theorem log_of_none {d : Disassembler} {f : Frame} (h : f.opcode? d = none) (outer : List Frame) :
    log d (f :: outer) = .leave f :: log d outer := by
  rw [log]
  split
  · simp_all
  · rfl

/-- Induction along the moves from a stack of windows on: an item is listed, or a switch opens the
window of its body, or the innermost window is left. -/
@[elab_as_elim]
theorem stack_induction (d : Disassembler) {motive : List Frame → Prop} (nil : motive [])
    (item : ∀ f outer opcode, f.opcode? d = some opcode →
      (d.item (outer.length + 1) f.position f.stop opcode).body? = none →
      motive ((f.step d (outer.length + 1) opcode).frame :: outer) → motive (f :: outer))
    (switch : ∀ f outer opcode table, f.opcode? d = some opcode →
      (d.item (outer.length + 1) f.position f.stop opcode).body? = some table →
      motive (.ofTable table :: (f.step d (outer.length + 1) opcode).frame :: outer) →
      motive (f :: outer))
    (leave : ∀ f outer, f.opcode? d = none → motive outer → motive (f :: outer))
    (frames : List Frame) : motive frames := by
  induction frames using log.induct d with
  | case1 => exact nil
  | case2 f outer opcode h _ s ih =>
    cases hbody : (d.item (outer.length + 1) f.position f.stop opcode).body? with
    | none =>
      have hstep : s.body? = none := by simp [s, Frame.step, hbody]
      rw [hstep] at ih
      exact item f outer opcode h hbody ih
    | some table =>
      have hstep : s.body? = some (.ofTable table) := by simp [s, Frame.step, hbody]
      rw [hstep] at ih
      exact switch f outer opcode table h hbody ih
  | case3 f outer h _ ih => exact leave f outer h ih

/-- The moves after an item that has no body. -/
theorem log_of_item {d : Disassembler} {f : Frame} {outer : List Frame} {opcode : UInt8}
    (h : f.opcode? d = some opcode)
    (hbody : (d.item (outer.length + 1) f.position f.stop opcode).body? = none) :
    log d (f :: outer) = .step (outer.length + 1) f opcode ::
      log d ((f.step d (outer.length + 1) opcode).frame :: outer) := by
  rw [log_of_some h]
  simp [Frame.step, hbody]

/-- The moves after a switch whose body is listed. -/
theorem log_of_switch {d : Disassembler} {f : Frame} {outer : List Frame} {opcode : UInt8}
    {table : SwitchTable} (h : f.opcode? d = some opcode)
    (hbody : (d.item (outer.length + 1) f.position f.stop opcode).body? = some table) :
    log d (f :: outer) = .step (outer.length + 1) f opcode ::
      log d (.ofTable table :: (f.step d (outer.length + 1) opcode).frame :: outer) := by
  rw [log_of_some h]
  simp [Frame.step, hbody]

/-- Decoding the next records makes the first moves of the log, and no others. -/
theorem log_of_refill (d : Disassembler) (frames : List Frame) :
    ∃ moves, log d frames = moves ++ log d (refill d frames).2 ∧
      moves.flatMap (Move.records d) = (refill d frames).1 := by
  induction frames with
  | nil => exact ⟨[], by simp [refill], by simp [refill]⟩
  | cons f outer ih =>
    cases h : f.opcode? d with
    | some opcode =>
      refine ⟨[.step (outer.length + 1) f opcode], ?_, ?_⟩
      · simp [log_of_some h, refill, h]
      · simp [refill, h, Move.records]
    | none =>
      cases hclosing : f.closing d with
      | nil =>
        obtain ⟨moves, hlog, hrecords⟩ := ih
        refine ⟨.leave f :: moves, ?_, ?_⟩
        · simp [log_of_none h, refill, h, hclosing, hlog]
        · simp [refill, h, hclosing, Move.records, hrecords]
      | cons record rest =>
        refine ⟨[.leave f], ?_, ?_⟩
        · simp [log_of_none h, refill, h, hclosing]
        · simp [refill, h, hclosing, Move.records]

/-- When decoding gives no record, every window has been left. -/
theorem refill_eq_nil {d : Disassembler} {frames next : List Frame}
    (h : refill d frames = ([], next)) : next = [] := by
  induction frames with
  | nil => exact (Prod.mk.inj h).2.symm
  | cons f outer ih =>
    rw [refill] at h
    split at h
    · next opcode hopcode =>
      have hne := d.records_item_ne_nil (outer.length + 1) f.position f.stop opcode
      have hnil := (Prod.mk.inj h).1
      simp [Frame.step] at hnil
      exact absurd hnil.2.2 hne
    · split at h
      · exact ih h
      · next hne =>
        exact absurd (Prod.mk.inj h).1 hne

/-- A record that is given is the first of those to come. -/
theorem logged_of_next?_some {d : Disassembler} {c next : Cursor} {record : Record}
    (h : next? d c = some (record, next)) :
    c.pending ++ (log d c.frames).flatMap (Move.records d) =
      record :: (next.pending ++ (log d next.frames).flatMap (Move.records d)) := by
  obtain ⟨frames, pending⟩ := c
  cases pending with
  | cons first rest =>
    simp only [next?, Option.some.injEq, Prod.mk.injEq] at h
    obtain ⟨rfl, rfl⟩ := h
    rfl
  | nil =>
    obtain ⟨moves, hlog, hrecords⟩ := log_of_refill d frames
    simp only [next?] at h
    split at h
    · next hrefill =>
      cases h
      rw [hrefill] at hlog hrecords
      simp [hlog, hrecords]
    · cases h

/-- A listing that gives no record has none to come. -/
theorem logged_of_next?_none {d : Disassembler} {c : Cursor} (h : next? d c = none) :
    c.pending ++ (log d c.frames).flatMap (Move.records d) = [] := by
  obtain ⟨frames, pending⟩ := c
  cases pending with
  | cons first rest => simp [next?] at h
  | nil =>
    obtain ⟨moves, hlog, hrecords⟩ := log_of_refill d frames
    simp only [next?] at h
    split at h
    · cases h
    · next hrefill =>
      rw [hrefill] at hlog hrecords
      rw [refill_eq_nil hrefill, log_nil] at hlog
      simp [hlog, hrecords]

/-- **The records of a listing are those of its moves**, after the records already decoded. -/
theorem toList_eq_flatMap_log (d : Disassembler) (c : Cursor) :
    toList d c = c.pending ++ (log d c.frames).flatMap (Move.records d) := by
  match h : next? d c with
  | none => rw [toList_eq, h, logged_of_next?_none h]
  | some (record, next) =>
    rw [toList_eq, h, logged_of_next?_some h, ← toList_eq_flatMap_log d next]
termination_by (weight c.frames, c.pending.length)
decreasing_by exact next?_decreases h

end Cursor

/-- The records of a window are those of the moves of its listing. -/
theorem Disassembler.decode_eq_flatMap_log (d : Disassembler) (start stop : Nat) :
    d.decode start stop =
      (Cursor.log d (d.window start stop).frames).flatMap (Cursor.Move.records d) := by
  rw [decode, Cursor.toList_eq_flatMap_log]
  rfl

/-- The outermost window of a listing, before its first step. -/
def Disassembler.outermost (d : Disassembler) (start stop : Nat) : Frame :=
  let stop := min stop d.program.size
  let start := min start stop
  { position := start
    stop := stop
    markers := if start = 0 then Marker.ofProgram d.program stop else [] }

theorem Disassembler.frames_window (d : Disassembler) (start stop : Nat) :
    (d.window start stop).frames = [d.outermost start stop] := rfl

end LpcInspect
