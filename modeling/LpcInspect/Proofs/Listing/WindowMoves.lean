import LpcInspect.Proofs.Listing.Nesting

/-!
# The moves of each window

A listing goes from window to window: the body of a switch is listed in a window of its own before
the window around it goes on. The moves in one window are found among all moves by the switch that
the window is the body of, because no switch is met twice: an item only opens a window after its own
address, and all windows around it go on after the table.

`Cursor.Run` says how one window is listed, as if there were no windows inside of it. The moves of a
listing in the outermost window are such a run, and so are those in the body of each switch.
-/

namespace LpcInspect

/-- The body of a switch belongs to the switch at the position. -/
theorem Disassembler.offset_of_body {d : Disassembler} {depth position stop : Nat} {opcode : UInt8}
    {table : SwitchTable} (h : (d.item depth position stop opcode).body? = some table) :
    table.offset = position := by
  obtain ⟨hbodyStart, -⟩ := d.body_of_item h
  simp only [SwitchTable.bodyStart, SwitchTable.base, SwitchTable.headerSize] at hbodyStart
  omega

/-- A step takes its window forward. -/
theorem Frame.position_lt_step {d : Disassembler} {f : Frame} {opcode : UInt8}
    (h : f.opcode? d = some opcode) (depth : Nat) :
    f.position < (f.step d depth opcode).frame.position :=
  d.lt_next_item depth opcode (Frame.position_lt_of_opcode? h)

namespace Cursor

variable {d : Disassembler} {window : Option SwitchTable} {frames : List Frame}

/-- The window in which a move is made. -/
def Move.frame : Move → Frame
  | .step _ frame _ => frame
  | .leave frame => frame

/-- The address of the item that a move lists. -/
def Move.address? : Move → Option Nat
  | .step _ frame _ => some frame.position
  | .leave _ => none

/-- The moves in one window. It is given by the switch of which it is the body; the window of the
listing itself is the body of none. -/
def movesIn (window : Option SwitchTable) (moves : List Move) : List Move :=
  moves.filter fun move => move.frame.table? = window

theorem movesIn_cons_self (move : Move) (h : move.frame.table? = window) (moves : List Move) :
    movesIn window (move :: moves) = move :: movesIn window moves := by
  simp [movesIn, h]

theorem movesIn_cons_other (move : Move) (h : move.frame.table? ≠ window) (moves : List Move) :
    movesIn window (move :: moves) = movesIn window moves := by
  simp [movesIn, h]

/-- The moves of a window, without those of the windows inside of it: its items are listed one after
the other, and then it is left. -/
inductive Run (d : Disassembler) (depth : Nat) : Frame → List Move → Prop where
  | leave {f : Frame} (hopcode : f.opcode? d = none) : Run d depth f [.leave f]
  | step {f : Frame} {opcode : UInt8} {rest : List Move} (hopcode : f.opcode? d = some opcode)
      (hrest : Run d depth (f.step d depth opcode).frame rest) :
      Run d depth f (.step depth f opcode :: rest)

/-! ### Windows that have been left -/

/-- No open window is the given one, and all of them stand after its switch. -/
def Past (window : Option SwitchTable) (frames : List Frame) : Prop :=
  ∀ f ∈ frames, f.table? ≠ window ∧ ∀ table ∈ window, table.offset < f.position

theorem Past.step {f : Frame} {outer : List Frame} (h : Past window (f :: outer)) {opcode : UInt8}
    (hopcode : f.opcode? d = some opcode) (depth : Nat) :
    Past window ((f.step d depth opcode).frame :: outer) := by
  obtain ⟨hf, houter⟩ := List.forall_mem_cons.mp h
  refine List.forall_mem_cons.mpr ⟨⟨hf.1, fun table htable => ?_⟩, houter⟩
  exact Nat.lt_trans (hf.2 table htable) (Frame.position_lt_step hopcode depth)

/-- A body that is opened belongs to a switch that was not met before. -/
theorem past_body {f : Frame} (h : ∀ table ∈ window, table.offset < f.position) {depth : Nat}
    {opcode : UInt8} {table : SwitchTable}
    (hbody : (d.item depth f.position f.stop opcode).body? = some table) :
    Past window [.ofTable table] := by
  have hoffset := Disassembler.offset_of_body hbody
  obtain ⟨hbodyStart, -⟩ := d.body_of_item hbody
  refine List.forall_mem_singleton.mpr ⟨?_, fun t ht => ?_⟩
  · rintro rfl
    have := h table rfl
    omega
  · have := h t ht
    show t.offset < table.bodyStart
    omega

/-- **A window that has been left is not entered again.** -/
theorem movesIn_log_of_past (h : Past window frames) : movesIn window (log d frames) = [] := by
  induction frames using stack_induction d with
  | nil => rw [log_nil]; rfl
  | item f outer opcode hopcode hbody ih =>
    rw [log_of_item hopcode hbody, movesIn_cons_other (.step _ f opcode) (h f (.head _)).1]
    exact ih (h.step hopcode _)
  | switch f outer opcode table hopcode hbody ih =>
    rw [log_of_switch hopcode hbody, movesIn_cons_other (.step _ f opcode) (h f (.head _)).1]
    exact ih (List.forall_mem_append.mpr ⟨past_body (h f (.head _)).2 hbody, h.step hopcode _⟩)
  | leave f outer hopcode ih =>
    rw [log_of_none hopcode, movesIn_cons_other (.leave f) (h f (.head _)).1]
    exact ih fun g hg => h g (.tail _ hg)

/-! ### Windows that are open -/

/-- **The moves in an open window are a run of it**, whatever windows are open inside of it. -/
theorem run_movesIn_log (inner : List Frame) (f : Frame) (outer : List Frame)
    (hf : f.table? = window) (hoffset : ∀ table ∈ window, table.offset < f.position)
    (hinner : Past window inner) (houter : Past window outer) :
    Run d (outer.length + 1) f (movesIn window (log d (inner ++ f :: outer))) := by
  -- The windows inside come and go; the induction is on the whole stack.
  generalize hframes : inner ++ f :: outer = frames
  induction frames using stack_induction d generalizing inner f with
  | nil => simp at hframes
  | item g around opcode hopcode hbody ih =>
    rw [log_of_item hopcode hbody]
    cases inner with
    | nil =>
      cases hframes
      rw [movesIn_cons_self (.step _ g opcode) hf]
      refine .step hopcode (ih [] _ hf (fun table htable => ?_) hinner rfl)
      exact Nat.lt_trans (hoffset table htable) (Frame.position_lt_step hopcode _)
    | cons first inner =>
      cases hframes
      rw [movesIn_cons_other (.step _ g opcode) (hinner g (.head _)).1]
      exact ih (_ :: inner) f hf hoffset (hinner.step hopcode _) rfl
  | switch g around opcode table hopcode hbody ih =>
    rw [log_of_switch hopcode hbody]
    cases inner with
    | nil =>
      cases hframes
      rw [movesIn_cons_self (.step _ g opcode) hf]
      refine .step hopcode (ih [.ofTable table] _ hf (fun t ht => ?_) (past_body hoffset hbody) rfl)
      exact Nat.lt_trans (hoffset t ht) (Frame.position_lt_step hopcode _)
    | cons first inner =>
      cases hframes
      rw [movesIn_cons_other (.step _ g opcode) (hinner g (.head _)).1]
      exact ih (.ofTable table :: _ :: inner) f hf hoffset
        (List.forall_mem_append.mpr ⟨past_body (hinner g (.head _)).2 hbody, hinner.step hopcode _⟩)
        rfl
  | leave g around hopcode ih =>
    rw [log_of_none hopcode]
    cases inner with
    | nil =>
      cases hframes
      rw [movesIn_cons_self (.leave g) hf, movesIn_log_of_past houter]
      exact .leave hopcode
    | cons first inner =>
      cases hframes
      rw [movesIn_cons_other (.leave g) (hinner g (.head _)).1]
      exact ih inner f hf hoffset (fun x hx => hinner x (.tail _ hx)) rfl

/-! ### Windows that are still to be opened -/

/-- A window goes on before the windows around it. -/
theorem Nested.stop_le {f : Frame} {outer : List Frame} (h : Nested d (f :: outer)) :
    ∀ g ∈ outer, f.stop ≤ g.position := by
  induction outer generalizing f with
  | nil => simp
  | cons around outer ih =>
    obtain ⟨-, ⟨-, table, -, hstop, hle, hposition⟩, haround⟩ := h
    have hnext : f.stop ≤ around.position := by omega
    refine List.forall_mem_cons.mpr ⟨hnext, fun g hg => ?_⟩
    have := ih haround g hg
    have := haround.1.1
    omega

/-- Windows that lie in each other and stand after the switches that they belong to. -/
structure Placed (d : Disassembler) (frames : List Frame) : Prop where
  nested : Nested d frames
  offset_lt : ∀ f ∈ frames, ∀ g ∈ frames, ∀ table ∈ g.table?, table.offset < f.position

/-- A switch that is met belongs to no open window. -/
theorem Placed.past_of_body {f : Frame} {outer : List Frame} (h : Placed d (f :: outer))
    {opcode : UInt8} (hopcode : f.opcode? d = some opcode) {depth : Nat} {table : SwitchTable}
    (hbody : (d.item depth f.position f.stop opcode).body? = some table) :
    Past (some table) ((f.step d depth opcode).frame :: outer) := by
  have hoffset := Disassembler.offset_of_body hbody
  have hpos := Frame.position_lt_of_opcode? hopcode
  have hold : ∀ g ∈ f :: outer, g.table? ≠ some table := by
    intro g hg htable
    have := h.offset_lt f (.head _) g hg table htable
    omega
  refine List.forall_mem_cons.mpr ⟨⟨hold f (.head _), ?_⟩, fun g hg => ⟨hold g (.tail _ hg), ?_⟩⟩
  · rintro _ ⟨⟩
    rw [hoffset]
    exact Frame.position_lt_step hopcode depth
  · rintro _ ⟨⟩
    have := h.nested.stop_le g hg
    omega

/-- A step keeps windows after their switches. -/
theorem Placed.offset_lt_step {f : Frame} {outer : List Frame} (h : Placed d (f :: outer))
    {opcode : UInt8} (hopcode : f.opcode? d = some opcode) (depth : Nat) :
    ∀ x ∈ (f.step d depth opcode).frame :: outer, ∀ g ∈ (f.step d depth opcode).frame :: outer,
      ∀ table ∈ g.table?, table.offset < x.position := by
  have hlt := Frame.position_lt_step hopcode depth
  intro x hx g hg table htable
  -- Each window stands where it stood before the step or further on, for the same switch.
  have hx' : ∃ y ∈ f :: outer, y.position ≤ x.position := by
    rcases List.mem_cons.mp hx with rfl | hx
    · exact ⟨f, .head _, Nat.le_of_lt hlt⟩
    · exact ⟨x, .tail _ hx, Nat.le_refl _⟩
  have hg' : ∃ e ∈ f :: outer, table ∈ e.table? := by
    rcases List.mem_cons.mp hg with rfl | hg
    · exact ⟨f, .head _, htable⟩
    · exact ⟨g, .tail _ hg, htable⟩
  obtain ⟨y, hy, hle⟩ := hx'
  obtain ⟨e, he, htable⟩ := hg'
  exact Nat.lt_of_lt_of_le (h.offset_lt y hy e he table htable) hle

/-- **A move keeps windows nested and after their switches.** -/
theorem Placed.move {next : List Frame} (h : Placed d frames) (hmove : StackMove d frames next) :
    Placed d next := by
  refine ⟨h.nested.move hmove, ?_⟩
  cases hmove with
  | @item f outer opcode hopcode hbody => exact h.offset_lt_step hopcode _
  | @switch f outer opcode table hopcode hbody =>
    have hpast := h.past_of_body hopcode hbody
    have hoffset := Disassembler.offset_of_body hbody
    obtain ⟨hbodyStart, -⟩ := d.body_of_item hbody
    have hbodyLt : ∀ t : SwitchTable, t.offset ≤ f.position →
        t.offset < (Frame.ofTable table).position := by
      intro t ht
      show t.offset < table.bodyStart
      omega
    intro x hx g hg t ht
    rcases List.mem_cons.mp hx with rfl | hx <;> rcases List.mem_cons.mp hg with rfl | hg
    · cases ht
      exact hbodyLt table (Nat.le_of_eq hoffset)
    · have hold : t.offset < f.position := by
        rcases List.mem_cons.mp hg with rfl | hg
        · exact h.offset_lt f (.head _) f (.head _) t ht
        · exact h.offset_lt f (.head _) g (.tail _ hg) t ht
      exact hbodyLt t (Nat.le_of_lt hold)
    · cases ht
      exact (hpast x hx).2 table rfl
    · exact h.offset_lt_step hopcode _ x hx g hg t ht
  | leave hopcode => exact fun x hx g hg => h.offset_lt x (.tail _ hx) g (.tail _ hg)

/-- **The moves in the body of a switch are a run of it**, or there are none because the body is not
listed. -/
theorem run_movesIn_body (h : Placed d frames) {table : SwitchTable}
    (hnew : ∀ f ∈ frames, f.table? ≠ some table) :
    movesIn (some table) (log d frames) = [] ∨
      ∃ depth, Run d depth (.ofTable table) (movesIn (some table) (log d frames)) := by
  induction frames using stack_induction d with
  | nil => rw [log_nil]; exact .inl rfl
  | item f outer opcode hopcode hbody ih =>
    obtain ⟨hf, houter⟩ := List.forall_mem_cons.mp hnew
    rw [log_of_item hopcode hbody, movesIn_cons_other (.step _ f opcode) hf]
    exact ih (h.move (.item hopcode hbody)) (List.forall_mem_cons.mpr ⟨hf, houter⟩)
  | switch f outer opcode opened hopcode hbody ih =>
    obtain ⟨hf, houter⟩ := List.forall_mem_cons.mp hnew
    rw [log_of_switch hopcode hbody, movesIn_cons_other (.step _ f opcode) hf]
    by_cases hopened : opened = table
    · subst hopened
      refine .inr ⟨_, run_movesIn_log [] _ _ rfl ?_ ?_ (h.past_of_body hopcode hbody)⟩
      · rintro _ ⟨⟩
        show opened.offset < opened.bodyStart
        simp only [SwitchTable.bodyStart, SwitchTable.base]
        omega
      · simp [Past]
    · have hother : (Frame.ofTable opened).table? ≠ some table := by
        simpa [Frame.ofTable] using hopened
      exact ih (h.move (.switch hopcode hbody))
        (List.forall_mem_cons.mpr ⟨hother, List.forall_mem_cons.mpr ⟨hf, houter⟩⟩)
  | leave f outer hopcode ih =>
    rw [log_of_none hopcode, movesIn_cons_other (.leave f) (hnew f (.head _))]
    exact ih (h.move (.leave hopcode)) fun g hg => hnew g (.tail _ hg)

end Cursor

/-! ### The windows of a listing -/

namespace Disassembler

open Cursor

variable (d : Disassembler) (start stop : Nat)

/-- The moves of a listing in its outermost window are a run of it. -/
theorem run_outermost :
    Run d 1 (d.outermost start stop) (movesIn none (log d (d.window start stop).frames)) := by
  rw [frames_window]
  refine run_movesIn_log [] (d.outermost start stop) [] rfl ?_ ?_ ?_
  · rintro _ ⟨⟩
  · simp [Past]
  · simp [Past]

/-- The moves of a listing in the body of a switch are a run of it, unless the body is not listed.
-/
theorem run_body (table : SwitchTable) :
    movesIn (some table) (log d (d.window start stop).frames) = [] ∨
      ∃ depth, Run d depth (.ofTable table)
        (movesIn (some table) (log d (d.window start stop).frames)) := by
  have hnone : ∀ f ∈ (d.window start stop).frames, f.table? = none := by
    rw [frames_window]
    simp [outermost]
  refine run_movesIn_body ⟨d.nested_window start stop, fun f _ g hg t ht => ?_⟩ fun f hf => ?_
  · rw [hnone g hg] at ht
    cases ht
  · rw [hnone f hf]
    simp

end Disassembler
end LpcInspect
