import Mathlib.Logic.Relation
import LpcInspect.Proofs.Listing.Coverage

/-!
# How the windows of a listing are nested

Whatever a listing has shown so far, its open windows lie in each other in the same way. Only the
outermost one belongs to no switch. Every other window is the body of a switch: it ends where the
table of the switch starts, and the table ends where the window around it goes on. There are never
more windows than the settings allow, and none of them leaves the code, so no read of an opcode
fails.

`Cursor.StackMove` says once what can happen to the open windows. `Cursor.Nested` is kept by each
such move, and the windows of a listing change by such moves only.
-/

namespace LpcInspect

theorem Frame.body?_step (d : Disassembler) (depth : Nat) (f : Frame) (opcode : UInt8) :
    (f.step d depth opcode).body? =
      (d.item depth f.position f.stop opcode).body?.map Frame.ofTable := rfl

namespace Cursor

variable {d : Disassembler}

/-! ### Moves of a stack of windows -/

/-- What can happen to the open windows: an item of the innermost one is listed, a switch opens the
window of its body, or the innermost one is exhausted and left. -/
inductive StackMove (d : Disassembler) : List Frame → List Frame → Prop where
  | item {f : Frame} {outer : List Frame} {opcode : UInt8} (hopcode : f.opcode? d = some opcode)
      (hbody : (d.item (outer.length + 1) f.position f.stop opcode).body? = none) :
      StackMove d (f :: outer) ((f.step d (outer.length + 1) opcode).frame :: outer)
  | switch {f : Frame} {outer : List Frame} {opcode : UInt8} {table : SwitchTable}
      (hopcode : f.opcode? d = some opcode)
      (hbody : (d.item (outer.length + 1) f.position f.stop opcode).body? = some table) :
      StackMove d (f :: outer)
        (.ofTable table :: (f.step d (outer.length + 1) opcode).frame :: outer)
  | leave {f : Frame} {outer : List Frame} (hopcode : f.opcode? d = none) :
      StackMove d (f :: outer) outer

/-- The open windows change by moves. -/
abbrev StackMoves (d : Disassembler) : List Frame → List Frame → Prop :=
  Relation.ReflTransGen (StackMove d)

/-- Decoding the next records makes moves. -/
theorem stackMoves_refill (d : Disassembler) (frames : List Frame) :
    StackMoves d frames (refill d frames).2 := by
  induction frames with
  | nil => exact .refl
  | cons f outer ih =>
    rw [refill]
    split
    · next opcode hopcode =>
      dsimp only
      cases hbody : (d.item (outer.length + 1) f.position f.stop opcode).body? with
      | none =>
        rw [Frame.body?_step, hbody]
        exact .single (.item hopcode hbody)
      | some table =>
        rw [Frame.body?_step, hbody]
        exact .single (.switch hopcode hbody)
    · next hopcode =>
      split
      · exact .head (.leave hopcode) ih
      · exact .single (.leave hopcode)

/-- The listing after `n` more records have been asked for. One that has no more records has no
window open. -/
def after (d : Disassembler) (c : Cursor) : Nat → Cursor
  | 0 => c
  | n + 1 =>
    match next? d (after d c n) with
    | some (_, next) => next
    | none => ⟨[], []⟩

/-- After some records the others are still to come. -/
theorem toList_after (d : Disassembler) (c : Cursor) (n : Nat) :
    toList d (after d c n) = (toList d c).drop n := by
  induction n with
  | zero => rfl
  | succ n ih =>
    have htail : (toList d c).drop (n + 1) = (toList d (after d c n)).tail := by
      rw [ih, List.tail_drop]
    have hempty : toList d ⟨[], []⟩ = [] := by rw [toList_eq]; rfl
    rw [htail, toList_eq d (after d c n), after]
    cases next? d (after d c n) with
    | none => exact hempty
    | some found => rfl

/-- The records of a listing are those that are given when all before them have been asked for. -/
theorem getElem?_toList (d : Disassembler) (c : Cursor) (n : Nat) :
    (toList d c)[n]? = (next? d (after d c n)).map Prod.fst := by
  rw [← List.head?_drop, ← toList_after, toList_eq]
  cases next? d (after d c n) <;> rfl

/-- Asking for one record makes moves. -/
theorem stackMoves_after_one (d : Disassembler) (c : Cursor) :
    StackMoves d c.frames (after d c 1).frames := by
  obtain ⟨frames, pending⟩ := c
  cases pending with
  | cons record rest => exact .refl
  | nil =>
    have hmoves := stackMoves_refill d frames
    simp only [after, next?]
    split
    · next hnext =>
      split at hnext
      · next hrefill =>
        cases hnext
        rwa [hrefill] at hmoves
      · cases hnext
    · next hnext =>
      split at hnext
      · cases hnext
      · next hrefill =>
        rw [hrefill, refill_eq_nil hrefill] at hmoves
        exact hmoves

/-- The windows of a listing change by moves only. -/
theorem stackMoves_after (d : Disassembler) (c : Cursor) (n : Nat) :
    StackMoves d c.frames (after d c n).frames := by
  induction n with
  | zero => exact .refl
  | succ n ih => exact ih.trans (stackMoves_after_one d (after d c n))

/-! ### The invariant -/

/-- How a window lies in those around it. -/
def StandsIn (f : Frame) : List Frame → Prop
  | [] => f.table? = none
  | around :: _ => f.markers = [] ∧ ∃ table, f.table? = some table ∧ f.stop = table.start ∧
      table.start ≤ table.stop ∧ table.stop = around.position

/-- Windows inside of the code that lie in each other, the innermost one first. -/
def Nested (d : Disassembler) : List Frame → Prop
  | [] => True
  | f :: outer => f.Inside d ∧ StandsIn f outer ∧ Nested d outer

/-- A step changes neither the end of its window nor what the window is the body of. -/
theorem StandsIn.step {f : Frame} {outer : List Frame} (h : StandsIn f outer) (depth : Nat)
    (opcode : UInt8) : StandsIn (f.step d depth opcode).frame outer := by
  cases outer with
  | nil => exact h
  | cons around outer =>
    obtain ⟨hmarkers, htable⟩ := h
    refine ⟨?_, htable⟩
    simp [Frame.step, hmarkers]

/-- **A move keeps windows nested.** -/
theorem Nested.move {frames next : List Frame} (h : Nested d frames)
    (hmove : StackMove d frames next) : Nested d next := by
  cases hmove with
  | @item f outer opcode hopcode hbody =>
    obtain ⟨hinside, hstands, houter⟩ := h
    exact ⟨(hinside.step hopcode _).1, hstands.step _ _, houter⟩
  | @switch f outer opcode table hopcode hbody =>
    obtain ⟨hinside, hstands, houter⟩ := h
    obtain ⟨hframe, hbodies⟩ := hinside.step hopcode (outer.length + 1)
    have htable : (Frame.ofTable table).Inside d :=
      hbodies _ (by rw [Frame.body?_step, hbody]; rfl)
    obtain ⟨-, -, hle, -, hnext⟩ := d.body_of_item hbody
    -- The window around goes on at the end of the table.
    exact ⟨htable, ⟨rfl, table, rfl, rfl, hle, hnext.symm⟩, hframe, hstands.step _ _, houter⟩
  | leave hopcode => exact h.2.2

/-- A move opens a window only as long as the settings allow it. -/
theorem length_le_of_move {frames next : List Frame} (hmove : StackMove d frames next)
    (h : frames.length ≤ d.settings.maxSwitchDepth + 1) :
    next.length ≤ d.settings.maxSwitchDepth + 1 := by
  cases hmove with
  | item => exact h
  | switch hopcode hbody =>
    obtain ⟨hdepth, -⟩ := Disassembler.item_of_body hbody
    simp only [List.length_cons] at h ⊢
    omega
  | leave =>
    rw [List.length_cons] at h
    omega

/-- **Windows stay nested**, and there are never more than the settings allow. -/
theorem Nested.moves {frames next : List Frame} (h : Nested d frames)
    (hlength : frames.length ≤ d.settings.maxSwitchDepth + 1) (hmoves : StackMoves d frames next) :
    Nested d next ∧ next.length ≤ d.settings.maxSwitchDepth + 1 := by
  induction hmoves with
  | refl => exact ⟨h, hlength⟩
  | tail _ hmove ih => exact ⟨ih.1.move hmove, length_le_of_move hmove ih.2⟩

/-! ### Each window of a stack -/

theorem Nested.drop {frames : List Frame} (h : Nested d frames) (i : Nat) :
    Nested d (frames.drop i) := by
  induction i generalizing frames with
  | zero => exact h
  | succ i ih =>
    cases frames with
    | nil => exact h
    | cons f outer => exact ih h.2.2

/-- What is known of the window at a place of a stack, and of those around it. -/
theorem Nested.getElem {frames : List Frame} (h : Nested d frames) {i : Nat} {f : Frame}
    (hf : frames[i]? = some f) : f.Inside d ∧ StandsIn f (frames.drop (i + 1)) := by
  obtain ⟨hi, rfl⟩ := List.getElem?_eq_some_iff.mp hf
  have hdrop := h.drop i
  rw [List.drop_eq_getElem_cons hi] at hdrop
  exact ⟨hdrop.1, hdrop.2.1⟩

/-- Only the outermost window is not the body of a switch. -/
theorem Nested.table_iff {frames : List Frame} (h : Nested d frames) {i : Nat} {f : Frame}
    (hf : frames[i]? = some f) : f.table?.isSome ↔ i + 1 < frames.length := by
  obtain ⟨-, hstands⟩ := h.getElem hf
  by_cases hlast : i + 1 < frames.length
  · rw [List.drop_eq_getElem_cons hlast] at hstands
    obtain ⟨-, table, htable, -⟩ := hstands
    simp [htable, hlast]
  · rw [List.drop_of_length_le (Nat.le_of_not_lt hlast)] at hstands
    have htable : f.table? = none := hstands
    simp [htable, hlast]

/-- What is known of two windows next to each other. -/
theorem Nested.adjacent {frames : List Frame} (h : Nested d frames) {i : Nat} {f around : Frame}
    (hf : frames[i]? = some f) (haround : frames[i + 1]? = some around) :
    f.markers = [] ∧ ∃ table, f.table? = some table ∧ f.stop = table.start ∧
      table.start ≤ table.stop ∧ table.stop = around.position := by
  obtain ⟨-, hstands⟩ := h.getElem hf
  obtain ⟨hi, rfl⟩ := List.getElem?_eq_some_iff.mp haround
  rwa [List.drop_eq_getElem_cons hi] at hstands

/-- A table lies in the code, because the window around it does. -/
theorem Nested.table_inside {frames : List Frame} (h : Nested d frames) {i : Nat} {f : Frame}
    {table : SwitchTable} (hf : frames[i]? = some f) (htable : f.table? = some table) :
    table.start ≤ table.stop ∧ table.stop ≤ d.program.size := by
  have hlast : i + 1 < frames.length :=
    (h.table_iff hf).mp (Option.isSome_iff_exists.mpr ⟨table, htable⟩)
  have haround := List.getElem?_eq_getElem hlast
  obtain ⟨-, table', htable', -, hle, hposition⟩ := h.adjacent hf haround
  obtain rfl : table = table' := Option.some.inj (htable.symm.trans htable')
  obtain ⟨hpos, hstop⟩ := (h.getElem haround).1
  exact ⟨hle, hposition ▸ Nat.le_trans hpos hstop⟩

end Cursor

/-- The window of a listing lies in the code. -/
theorem Disassembler.nested_window (d : Disassembler) (start stop : Nat) :
    Cursor.Nested d (d.window start stop).frames :=
  ⟨⟨Nat.min_le_right _ _, Nat.min_le_right _ _⟩, rfl, trivial⟩

/-- A window inside of the code that is not exhausted has an opcode at its position. -/
theorem Frame.Inside.exists_opcode {d : Disassembler} {f : Frame} (h : f.Inside d)
    (hpos : f.position < f.stop) : ∃ opcode, f.opcode? d = some opcode := by
  have hsize : f.position < d.program.code.size := Nat.lt_of_lt_of_le hpos h.2
  exact ⟨_, by rw [Frame.opcode?, if_pos hpos, Array.getElem?_eq_getElem hsize]⟩

/-- **The open windows of a listing are nested**, however many records have been asked for. The
windows are given with the innermost one first. -/
theorem Disassembler.windows_nested (d : Disassembler) (start stop n : Nat) :
    let frames := (Cursor.after d (d.window start stop) n).frames
    frames.length ≤ d.settings.maxSwitchDepth + 1 ∧
      (∀ f ∈ frames, f.position ≤ f.stop ∧ f.stop ≤ d.program.size) ∧
      (∀ i f, frames[i]? = some f →
        (f.table?.isSome ↔ i + 1 < frames.length) ∧ (f.markers ≠ [] → i + 1 = frames.length)) ∧
      (∀ i f around, frames[i]? = some f → frames[i + 1]? = some around →
        ∃ table, f.table? = some table ∧ f.stop = table.start ∧
          table.stop = around.position ∧ around.position ≤ around.stop) ∧
      ∀ f ∈ frames, (d.operandReader f.position f.stop).stop = f.stop ∧
        (∀ table ∈ f.table?, table.start ≤ table.stop ∧ table.stop ≤ d.program.size ∧
          (Reader.window d.program.code table.stop table.start).stop = table.stop) ∧
        (f.position < f.stop → ∃ opcode, f.opcode? d = some opcode) := by
  intro frames
  obtain ⟨hnested, hlength⟩ := (d.nested_window start stop).moves (Nat.le_add_left 1 _)
    (Cursor.stackMoves_after d (d.window start stop) n)
  have hinside : ∀ f ∈ frames, f.Inside d := by
    intro f hf
    obtain ⟨i, hi⟩ := List.getElem?_of_mem hf
    exact (hnested.getElem hi).1
  refine ⟨hlength, hinside, ?_, ?_, ?_⟩
  · intro i f hf
    refine ⟨hnested.table_iff hf, fun hmarkers => ?_⟩
    rcases Nat.lt_or_eq_of_le (List.getElem?_eq_some_iff.mp hf).1 with hlt | hlast
    · exact absurd (hnested.adjacent hf (List.getElem?_eq_getElem hlt)).1 hmarkers
    · exact hlast
  · intro i f around hf haround
    obtain ⟨-, table, htable, hstop, -, hposition⟩ := hnested.adjacent hf haround
    exact ⟨table, htable, hstop, hposition, (hnested.getElem haround).1.1⟩
  · intro f hf
    refine ⟨Nat.min_eq_left (hinside f hf).2, ?_, (hinside f hf).exists_opcode⟩
    intro table htable
    obtain ⟨i, hi⟩ := List.getElem?_of_mem hf
    obtain ⟨hle, hsize⟩ := hnested.table_inside hi htable
    exact ⟨hle, hsize, Nat.min_eq_left hsize⟩

end LpcInspect
