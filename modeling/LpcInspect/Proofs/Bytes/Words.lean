import LpcInspect.Proofs.Bytes.Holds

/-!
# Moves of a reader, in words

A reader is moved by reads, skips and seeks. A move that fails leaves the reader where it was, and
one that succeeds goes to its target, `Reader.Passage.Sound`, which for a read or a skip of at least
one byte lies in the window.

`WordReader` is a reader whose position is a word of 64 bits. Its moves are made as a machine makes
them: sums are sums of words, and a sum that is too large for a word gives `none` where the machine
does not test for it. No such sum is ever made, wherever the reader starts, and the moves are those
of the reader whose position is a number.
-/

namespace LpcInspect

namespace Reader

@[simp] theorem stop_ofBuffer (bytes : Array UInt8) (position : Nat) :
    (ofBuffer bytes position).stop = bytes.size := Nat.min_self _

/-! ### Single moves -/

/-- Run a computation; one that fails leaves the reader as it was. -/
def attempt {α : Type} (m : Decode α) (r : Reader) : Except ReadError α × Reader :=
  match m r with
  | .ok found => (.ok found.1, found.2)
  | .error e => (.error e, r)

theorem move_eq_attempt (r : Reader) (m : Move) : r.move m = attempt m.action r := by
  unfold move attempt
  cases m.action r <;> rfl

theorem attempt_of_ok {α : Type} {m : Decode α} {r s : Reader} {x : α} (h : m r = .ok (x, s)) :
    attempt m r = (.ok x, s) := by
  simp [attempt, h]

theorem attempt_of_error {α : Type} {m : Decode α} {r : Reader} {e : ReadError}
    (h : m r = .error e) : attempt m r = (.error e, r) := by
  simp [attempt, h]

/-- A function of what is read does not change what happens to the reader. -/
theorem attempt_map {α β : Type} (m : Decode α) (f : α → β) (r : Reader) :
    attempt (do return f (← m)) r = ((attempt m r).1.map f, (attempt m r).2) := by
  cases h : m r with
  | ok found =>
    rw [attempt_of_ok (m := m) (x := found.1) (s := found.2) h]
    exact attempt_of_ok (bind_of_ok h _)
  | error e =>
    rw [attempt_of_error h]
    exact attempt_of_error (bind_of_error h _)

theorem attempt_take (count : Nat) (r : Reader) :
    attempt (take count) r = if r.position + count ≤ r.stop then
      (.ok (r.bytes.extract r.position (r.position + count)).toList, r.seek (r.position + count))
      else (.error (.unexpectedEnd r.position), r) := by
  by_cases h : r.position + count ≤ r.stop <;> simp [attempt, take, h]

theorem attempt_skip (count : Nat) (r : Reader) :
    attempt (skip count) r = if count ≤ r.remaining then (.ok (), r.seek (r.position + count))
      else (.error (.unexpectedEnd r.position), r) := by
  by_cases h : count ≤ r.remaining <;> simp [attempt, skip, h]

theorem move_scalar (r : Reader) (kind : ScalarKind) :
    r.move (.scalar kind) =
      ((attempt (take kind.width) r).1.map fun bytes => some (kind.decode bytes).toInt,
        (attempt (take kind.width) r).2) := by
  rw [move_eq_attempt, Move.action, scalar, attempt_map, attempt_map]
  cases (attempt (take kind.width) r).1 <;> rfl

theorem move_unsigned (r : Reader) {width : Nat} (hwidth : width = 2 ∨ width = 4 ∨ width = 8) :
    r.move (.unsigned width) =
      ((attempt (take width) r).1.map fun bytes => some (Int.ofNat bytes.toNatLE),
        (attempt (take width) r).2) := by
  rw [move_eq_attempt, Move.action, unsigned, if_pos hwidth, attempt_map, attempt_map]
  cases (attempt (take width) r).1 <;> rfl

theorem move_unsigned_of_unsupported (r : Reader) {width : Nat}
    (hwidth : ¬(width = 2 ∨ width = 4 ∨ width = 8)) :
    r.move (.unsigned width) = (.error (.unsupportedWidth width), r) := by
  rw [move_eq_attempt, Move.action, attempt_map,
    attempt_of_error (unsigned_of_unsupported hwidth)]
  rfl

theorem move_skip (r : Reader) (count : Nat) :
    r.move (.skip count) =
      ((attempt (skip count) r).1.map fun _ => none, (attempt (skip count) r).2) := by
  rw [move_eq_attempt, Move.action]
  exact attempt_map (skip count) (fun _ => none) r

theorem move_seek (r : Reader) (position : Nat) :
    r.move (.seek position) = (.ok none, r.seek position) := rfl

namespace Move

/-- The number of bytes that a move takes or passes. -/
def width : Move → Nat
  | .scalar kind => kind.width
  | .unsigned width => width
  | .skip count => count
  | .seek _ => 0

/-- Where a move that succeeds goes. -/
def target (position : Nat) : Move → Nat
  | .seek position => position
  | m => position + m.width

/-- A move succeeds in a window that ends at `stop`: the bytes that it takes or passes are there,
and a number has one of the three widths. -/
def Possible (stop position : Nat) : Move → Prop
  | .scalar kind => position + kind.width ≤ stop
  | .unsigned width => (width = 2 ∨ width = 4 ∨ width = 8) ∧ position + width ≤ stop
  | .skip count => count = 0 ∨ position + count ≤ stop
  | .seek _ => True

end Move

/-- A move that was made, with the reader before it, what it gave and the reader after it. -/
structure Passage where
  before : Reader
  move : Move
  result : Except ReadError (Option Int)
  after : Reader

/-- A move succeeds if it is possible. A failed one leaves the reader as it was. A successful one
goes to its target, and no further than to `stop` if it takes or passes any bytes. -/
structure Passage.Sound (stop : Nat) (p : Passage) : Prop where
  possible : (∃ value, p.result = .ok value) ↔ p.move.Possible stop p.before.position
  failed : ∀ e, p.result = .error e → p.after = p.before
  moved : ∀ value, p.result = .ok value → p.after = p.before.seek (p.move.target p.before.position)
  inside : ∀ value, p.result = .ok value → 0 < p.move.width → p.after.position ≤ stop

/-- A single move as a passage. -/
def passage (r : Reader) (m : Move) : Passage := ⟨r, m, (r.move m).1, (r.move m).2⟩

/-- Moves made one after the other. -/
def passages (r : Reader) : List Move → List Passage
  | [] => []
  | m :: rest => r.passage m :: passages (r.move m).2 rest

theorem sound_of_error {r : Reader} {m : Move} {e : ReadError} (h : r.move m = (.error e, r))
    (himpossible : ¬m.Possible r.stop r.position) : (r.passage m).Sound r.stop := by
  rw [passage, h]
  refine ⟨iff_of_false ?_ himpossible, fun _ _ => rfl, ?_, ?_⟩
  · rintro ⟨_, hok⟩
    cases hok
  · intro _ hok
    cases hok
  · intro _ hok
    cases hok

theorem sound_of_ok {r : Reader} {m : Move} {value : Option Int}
    (h : r.move m = (.ok value, r.seek (m.target r.position)))
    (hpossible : m.Possible r.stop r.position)
    (hinside : 0 < m.width → m.target r.position ≤ r.stop) : (r.passage m).Sound r.stop := by
  rw [passage, h]
  refine ⟨iff_of_true ⟨value, rfl⟩ hpossible, ?_, fun _ _ => rfl, fun _ _ => hinside⟩
  intro _ herror
  cases herror

/-- **One move** is sound. -/
theorem sound_passage (r : Reader) (m : Move) : (r.passage m).Sound r.stop := by
  cases m with
  | scalar kind =>
    have hmove := r.move_scalar kind
    rw [attempt_take] at hmove
    by_cases hle : r.position + kind.width ≤ r.stop
    · rw [if_pos hle] at hmove
      exact sound_of_ok hmove hle fun _ => hle
    · rw [if_neg hle] at hmove
      exact sound_of_error hmove hle
  | unsigned width =>
    by_cases hwidth : width = 2 ∨ width = 4 ∨ width = 8
    · have hmove := r.move_unsigned hwidth
      rw [attempt_take] at hmove
      by_cases hle : r.position + width ≤ r.stop
      · rw [if_pos hle] at hmove
        exact sound_of_ok hmove ⟨hwidth, hle⟩ fun _ => hle
      · rw [if_neg hle] at hmove
        exact sound_of_error hmove fun h => hle h.2
    · exact sound_of_error (r.move_unsigned_of_unsupported hwidth) fun h => hwidth h.1
  | skip count =>
    have hmove := r.move_skip count
    rw [attempt_skip] at hmove
    have hiff : count ≤ r.remaining ↔ count = 0 ∨ r.position + count ≤ r.stop := by
      unfold remaining
      omega
    by_cases hle : count ≤ r.remaining
    · rw [if_pos hle] at hmove
      refine sound_of_ok hmove (hiff.mp hle) fun hcount => ?_
      exact (hiff.mp hle).resolve_left (Nat.ne_of_gt hcount)
    · rw [if_neg hle] at hmove
      exact sound_of_error hmove fun h => hle (hiff.mpr h)
  | seek position =>
    exact sound_of_ok (r.move_seek position) trivial fun h => absurd h (Nat.lt_irrefl 0)

/-- A move does not change the window. -/
theorem stop_move (r : Reader) (m : Move) : (r.move m).2.stop = r.stop := by
  have hsound := r.sound_passage m
  cases hresult : (r.move m).1 with
  | ok value =>
    have hmoved := congrArg Reader.stop (hsound.moved value hresult)
    exact hmoved
  | error e =>
    have hfailed := congrArg Reader.stop (hsound.failed e hresult)
    exact hfailed

/-- **Moves made one after the other** are sound. -/
theorem sound_passages (r : Reader) (moves : List Move) :
    ∀ p ∈ r.passages moves, p.Sound r.stop := by
  induction moves generalizing r with
  | nil => simp [passages]
  | cons m rest ih =>
    rw [passages, List.forall_mem_cons]
    refine ⟨r.sound_passage m, ?_⟩
    rw [← r.stop_move m]
    exact ih _

end Reader

/-! ### Words -/

/-- A reader as a machine has it: the position and the number of bytes are words. -/
structure WordReader where
  bytes : Array UInt8
  position : UInt64
  size_lt : bytes.size < UInt64.size

/-- A move whose number is a word. -/
inductive WordMove where
  | scalar (kind : ScalarKind)
  | unsigned (width : UInt64)
  | skip (count : UInt64)
  | seek (position : UInt64)

def WordMove.toMove : WordMove → Reader.Move
  | .scalar kind => .scalar kind
  | .unsigned width => .unsigned width.toNat
  | .skip count => .skip count.toNat
  | .seek position => .seek position.toNat

namespace WordReader

/-- The sum of two words, if it is one. -/
def add? (a b : UInt64) : Option UInt64 :=
  if a.toNat + b.toNat < UInt64.size then some (a + b) else none

/-- The number of bytes. -/
def size (r : WordReader) : UInt64 := UInt64.ofNat r.bytes.size

/-- The number of bytes left, which is zero after the end. -/
def remaining (r : WordReader) : UInt64 := if r.position ≤ r.size then r.size - r.position else 0

/-- The bytes between two positions, if these are in order and in the buffer. -/
def slice? (r : WordReader) (first last : UInt64) : Option Bytes :=
  if first ≤ last ∧ last ≤ r.size then some (r.bytes.extract first.toNat last.toNat).toList
  else none

/-- The reader at another position. -/
def seek (r : WordReader) (position : UInt64) : WordReader := { r with position }

/-- Take bytes. A sum that is too large is tested for, and is an end of the bytes. -/
def take (r : WordReader) (count : UInt64) : Option (Except ReadError Bytes × WordReader) :=
  match (add? r.position count).filter (· ≤ r.size) with
  | none => some (.error (.unexpectedEnd r.position.toNat), r)
  | some last => (r.slice? r.position last).map fun bytes => (.ok bytes, r.seek last)

/-- Move past bytes. The sum is not tested. -/
def skip (r : WordReader) (count : UInt64) : Option (Except ReadError Unit × WordReader) :=
  if r.remaining < count then some (.error (.unexpectedEnd r.position.toNat), r)
  else (add? r.position count).map fun next => (.ok (), r.seek next)

/-- Make a move. -/
def move (r : WordReader) : WordMove → Option (Except ReadError (Option Int) × WordReader)
  | .scalar kind => (r.take (UInt64.ofNat kind.width)).map fun step =>
      (step.1.map fun bytes => some (kind.decode bytes).toInt, step.2)
  | .unsigned width =>
    if width = 2 ∨ width = 4 ∨ width = 8 then
      (r.take width).map fun step =>
        (step.1.map fun bytes => some (Int.ofNat bytes.toNatLE), step.2)
    else some (.error (.unsupportedWidth width.toNat), r)
  | .skip count => (r.skip count).map fun step => (step.1.map fun _ => none, step.2)
  | .seek position => some (.ok none, r.seek position)

/-- The reader with the position as a number. -/
def toReader (r : WordReader) : Reader := .ofBuffer r.bytes r.position.toNat

@[simp] theorem position_toReader (r : WordReader) : r.toReader.position = r.position.toNat := rfl

@[simp] theorem bytes_toReader (r : WordReader) : r.toReader.bytes = r.bytes := rfl

@[simp] theorem stop_toReader (r : WordReader) : r.toReader.stop = r.bytes.size :=
  Reader.stop_ofBuffer _ _

theorem toReader_seek (r : WordReader) (position : UInt64) :
    (r.seek position).toReader = r.toReader.seek position.toNat := rfl

theorem toNat_size (r : WordReader) : r.size.toNat = r.bytes.size :=
  UInt64.toNat_ofNat_of_lt' r.size_lt

theorem toNat_remaining (r : WordReader) : r.remaining.toNat = r.toReader.remaining := by
  have hsize := r.toNat_size
  unfold remaining Reader.remaining
  rw [stop_toReader, position_toReader]
  by_cases hle : r.position ≤ r.size
  · rw [if_pos hle, UInt64.toNat_sub_of_le _ _ hle, hsize]
  · rw [if_neg hle, UInt64.toNat_zero]
    rw [UInt64.le_iff_toNat_le] at hle
    omega

theorem add?_of_lt {a b : UInt64} (h : a.toNat + b.toNat < UInt64.size) :
    ∃ c, add? a b = some c ∧ c.toNat = a.toNat + b.toNat := by
  refine ⟨a + b, if_pos h, ?_⟩
  rw [UInt64.toNat_add]
  exact Nat.mod_eq_of_lt h

/-- What a move in words gives and leaves is what a move of the reader gives and leaves. -/
def Agrees {α : Type} (step? : Option (Except ReadError α × WordReader))
    (step : Except ReadError α × Reader) : Prop :=
  ∃ found, step? = some found ∧ (found.1, found.2.toReader) = step

theorem Agrees.map {α β : Type} {step? : Option (Except ReadError α × WordReader)}
    {step : Except ReadError α × Reader} (h : Agrees step? step) (f : α → β) :
    Agrees (step?.map fun s => (s.1.map f, s.2)) (step.1.map f, step.2) := by
  obtain ⟨found, rfl, rfl⟩ := h
  exact ⟨_, rfl, rfl⟩

/-- The bytes that are taken are in the buffer. -/
theorem slice?_of_le (r : WordReader) {first last : UInt64} (hfirst : first ≤ last)
    (hlast : last ≤ r.size) :
    r.slice? first last = some (r.bytes.extract first.toNat last.toNat).toList :=
  if_pos ⟨hfirst, hlast⟩

theorem take_agrees (r : WordReader) (count : UInt64) :
    Agrees (r.take count) (Reader.attempt (Reader.take count.toNat) r.toReader) := by
  have hsize := r.toNat_size
  have hlt := r.size_lt
  rw [Reader.attempt_take, position_toReader, stop_toReader, bytes_toReader, take]
  by_cases hle : r.position.toNat + count.toNat ≤ r.bytes.size
  · obtain ⟨last, hlast, hvalue⟩ := add?_of_lt (a := r.position) (b := count) (by omega)
    have hin : last ≤ r.size := UInt64.le_iff_toNat_le.mpr (by omega)
    have horder : r.position ≤ last := UInt64.le_iff_toNat_le.mpr (by omega)
    rw [if_pos hle, hlast, Option.filter_some, if_pos (decide_eq_true hin), ← hvalue,
      ← toReader_seek]
    dsimp only
    rw [r.slice?_of_le horder hin]
    exact ⟨_, rfl, rfl⟩
  · -- The sum is no word, or it is after the end.
    have hnone : (add? r.position count).filter (· ≤ r.size) = none := by
      rw [Option.filter_eq_none_iff]
      intro last hlast
      rw [decide_eq_true_eq, UInt64.le_iff_toNat_le]
      by_cases hsum : r.position.toNat + count.toNat < UInt64.size
      · obtain ⟨sum, hadd, hvalue⟩ := add?_of_lt hsum
        rw [hadd] at hlast
        cases hlast
        omega
      · rw [add?, if_neg hsum] at hlast
        cases hlast
    rw [if_neg hle, hnone]
    exact ⟨_, rfl, rfl⟩

/-- The sum of a skip is not after the end, or nothing is passed. -/
theorem skip_agrees (r : WordReader) (count : UInt64) :
    Agrees (r.skip count) (Reader.attempt (Reader.skip count.toNat) r.toReader) := by
  have hremaining := r.toNat_remaining
  rw [Reader.attempt_skip, position_toReader, ← hremaining, skip]
  by_cases hlt : r.remaining < count
  · have hgt := UInt64.lt_iff_toNat_lt.mp hlt
    rw [if_pos hlt, if_neg (Nat.not_le.mpr hgt)]
    exact ⟨_, rfl, rfl⟩
  · have hle : count.toNat ≤ r.remaining.toNat := by
      rw [UInt64.lt_iff_toNat_lt] at hlt
      omega
    have hsum : r.position.toNat + count.toNat < UInt64.size := by
      have hposition := r.position.toNat_lt_size
      have hsize := r.size_lt
      simp only [Reader.remaining, stop_toReader, position_toReader] at hremaining
      omega
    obtain ⟨next, hnext, hvalue⟩ := add?_of_lt hsum
    rw [if_neg hlt, if_pos hle, hnext, ← hvalue, ← toReader_seek]
    exact ⟨_, rfl, rfl⟩

/-- **One move in words** is the move of the reader. -/
theorem move_agrees (r : WordReader) (m : WordMove) :
    Agrees (r.move m) (r.toReader.move m.toMove) := by
  cases m with
  | scalar kind =>
    have hwidth : (UInt64.ofNat kind.width).toNat = kind.width := by cases kind <;> rfl
    have htake := r.take_agrees (UInt64.ofNat kind.width)
    rw [hwidth] at htake
    rw [WordMove.toMove, Reader.move_scalar]
    exact htake.map _
  | unsigned width =>
    have hiff : (width = 2 ∨ width = 4 ∨ width = 8) ↔
        (width.toNat = 2 ∨ width.toNat = 4 ∨ width.toNat = 8) := by
      simp only [← UInt64.toNat_inj]
      rfl
    rw [WordMove.toMove, move]
    by_cases hwidth : width = 2 ∨ width = 4 ∨ width = 8
    · rw [if_pos hwidth, Reader.move_unsigned _ (hiff.mp hwidth)]
      exact (r.take_agrees width).map _
    · rw [if_neg hwidth, Reader.move_unsigned_of_unsupported _ (fun h => hwidth (hiff.mpr h))]
      exact ⟨_, rfl, rfl⟩
  | skip count =>
    rw [WordMove.toMove, Reader.move_skip]
    exact (r.skip_agrees count).map _
  | seek position => exact ⟨_, rfl, rfl⟩

end WordReader

/-- A move in words that was made. -/
structure WordPassage where
  before : WordReader
  move : WordMove
  result : Except ReadError (Option Int)
  after : WordReader

def WordPassage.toPassage (p : WordPassage) : Reader.Passage :=
  ⟨p.before.toReader, p.move.toMove, p.result, p.after.toReader⟩

/-- Moves in words made one after the other, if no sum is too large on the way. -/
def WordReader.passages (r : WordReader) : List WordMove → Option (List WordPassage)
  | [] => some []
  | m :: rest =>
    (r.move m).bind fun step =>
      (passages step.2 rest).map fun later => ⟨r, m, step.1, step.2⟩ :: later

/-- **Moves in words made one after the other** are the moves of the reader. -/
theorem WordReader.exists_passages (r : WordReader) (moves : List WordMove) :
    ∃ passages, r.passages moves = some passages ∧
      passages.map WordPassage.toPassage = r.toReader.passages (moves.map WordMove.toMove) := by
  induction moves generalizing r with
  | nil => exact ⟨[], rfl, rfl⟩
  | cons m rest ih =>
    obtain ⟨step, hstep, hagrees⟩ := r.move_agrees m
    obtain ⟨later, hlater, hmap⟩ := ih step.2
    refine ⟨⟨r, m, step.1, step.2⟩ :: later, ?_, ?_⟩
    · rw [passages, hstep, Option.bind_some, hlater, Option.map_some]
    · rw [List.map_cons, List.map_cons, Reader.passages, Reader.passage, ← hagrees, ← hmap]
      rfl

end LpcInspect
