import LpcInspect.Bytes.Writer
import LpcInspect.Proofs.Bytes.Words

/-!
# Fields in a row

Values are emitted one after the other and read back in the same order. `Reader.scalars` reads as
many fields as there are. From all bytes of the values it gets the values and stands at the end of
the bytes. From fewer bytes it gets the values that are still whole, and the next read fails where
the value that is cut starts.

Any moves of a reader stay within numbers that are words: a move that fails leaves the reader as it
was, and every other one goes to its target, which is in the buffer if bytes are taken or passed.
-/

namespace LpcInspect

/-- Emit values one after the other. -/
def Writer.scalars (w : Writer) (values : List Scalar) : Writer := values.foldl Writer.scalar w

/-- Read fields of the given types up to the first one that fails: the values, the error if there is
one, and the reader after the last value. -/
def Reader.scalars : List ScalarKind → Reader → List Scalar × Option ReadError × Reader
  | [], r => ([], none, r)
  | kind :: rest, r =>
    match Reader.scalar kind r with
    | .ok found => (found.1 :: (scalars rest found.2).1, (scalars rest found.2).2)
    | .error e => ([], some e, r)

theorem ScalarKind.width_pos (kind : ScalarKind) : 0 < kind.width := by cases kind <;> decide

namespace Scalar

/-- The bytes of values one after the other. -/
def encodeAll (values : List Scalar) : Bytes := values.flatMap encode

/-- The number of bytes before the value at a place. -/
def startOf (values : List Scalar) (k : Nat) : Nat := (encodeAll (values.take k)).length

theorem encodeAll_cons (value : Scalar) (rest : List Scalar) :
    encodeAll (value :: rest) = value.encode ++ encodeAll rest := List.flatMap_cons

@[simp] theorem startOf_zero (values : List Scalar) : startOf values 0 = 0 := by
  simp [startOf, encodeAll]

/-- The bytes of the first values are the first bytes. -/
theorem encodeAll_take_append (values : List Scalar) (k : Nat) :
    encodeAll (values.take k) ++ encodeAll (values.drop k) = encodeAll values := by
  rw [encodeAll, encodeAll, ← List.flatMap_append, List.take_append_drop, encodeAll]

theorem startOf_cons_succ (value : Scalar) (rest : List Scalar) (k : Nat) :
    startOf (value :: rest) (k + 1) = value.kind.width + startOf rest k := by
  rw [startOf, List.take_succ_cons, encodeAll_cons, List.length_append, length_encode, startOf]

/-- A value starts where the values before it end. -/
theorem startOf_succ {values : List Scalar} {k : Nat} (h : k < values.length) :
    startOf values (k + 1) = startOf values k + values[k].kind.width := by
  induction values generalizing k with
  | nil => exact absurd h (Nat.not_lt_zero k)
  | cons value rest ih =>
    cases k with
    | zero => simp [startOf_cons_succ]
    | succ k =>
      rw [startOf_cons_succ, startOf_cons_succ, ih (Nat.lt_of_succ_lt_succ h), Nat.add_assoc]
      rfl

theorem startOf_le_startOf {values : List Scalar} {i k : Nat} (h : i ≤ k) :
    startOf values i ≤ startOf values k := by
  induction values generalizing i k with
  | nil => simp [startOf]
  | cons value rest ih =>
    cases i with
    | zero => simp
    | succ i =>
      cases k with
      | zero => omega
      | succ k =>
        have := ih (Nat.le_of_succ_le_succ h)
        rw [startOf_cons_succ, startOf_cons_succ]
        omega

/-- A number of bytes that is not enough for all values ends in one of them. -/
theorem exists_startOf_le {values : List Scalar} {n : Nat} (h : n < (encodeAll values).length) :
    ∃ k, ∃ hk : k < values.length, startOf values k ≤ n ∧
      n < startOf values k + values[k].kind.width := by
  induction values generalizing n with
  | nil => exact absurd h (Nat.not_lt_zero n)
  | cons value rest ih =>
    rw [encodeAll_cons, List.length_append, length_encode] at h
    by_cases hn : n < value.kind.width
    · refine ⟨0, Nat.succ_pos _, ?_, ?_⟩
      · simp
      · simpa using hn
    · obtain ⟨k, hk, hle, hlt⟩ := ih (n := n - value.kind.width) (by omega)
      refine ⟨k + 1, Nat.succ_lt_succ hk, ?_, ?_⟩
      · rw [startOf_cons_succ]
        omega
      · rw [startOf_cons_succ, List.getElem_cons_succ]
        omega

end Scalar

/-! ### Emitting -/

theorem Writer.toList_scalars (w : Writer) (values : List Scalar) :
    (w.scalars values).buffer.toList = w.buffer.toList ++ Scalar.encodeAll values := by
  induction values generalizing w with
  | nil => simp [Writer.scalars, Scalar.encodeAll]
  | cons value rest ih =>
    have hfirst : (w.scalar value).buffer.toList = w.buffer.toList ++ value.encode := by
      simp [Writer.scalar]
    have hrest := ih (w.scalar value)
    rw [hfirst, List.append_assoc, ← Scalar.encodeAll_cons] at hrest
    exact hrest

/-! ### Reading -/

namespace Reader

theorem scalar_of_holds {r : Reader} {value : Scalar} (h : r.Holds value.encode) :
    scalar value.kind r = .ok (value, r.seek (r.position + value.encode.length)) := by
  have htake := (take_eq_ok_iff value.kind.width_pos).mpr ⟨value.length_encode, h, rfl⟩
  rw [scalar, bind_of_ok htake, ScalarKind.decode_encode, Scalar.length_encode]
  rfl

theorem scalar_of_lt {r : Reader} {kind : ScalarKind} (h : r.stop < r.position + kind.width) :
    scalar kind r = .error (.unexpectedEnd r.position) := bind_of_error (take_of_lt h) _

/-- **Values are read where they stand**, and reading goes on behind them. -/
theorem scalars_of_holds {r : Reader} {values : List Scalar}
    (h : r.Holds (Scalar.encodeAll values)) (kinds : List ScalarKind) :
    scalars (values.map Scalar.kind ++ kinds) r =
      (values ++ (scalars kinds (r.seek (r.position + (Scalar.encodeAll values).length))).1,
        (scalars kinds (r.seek (r.position + (Scalar.encodeAll values).length))).2) := by
  induction values generalizing r with
  | nil => rfl
  | cons value rest ih =>
    rw [Scalar.encodeAll_cons, holds_append] at h
    have hrest := ih h.2
    rw [seek_seek, position_seek, Nat.add_assoc] at hrest
    rw [List.map_cons, List.cons_append, scalars, scalar_of_holds h.1]
    dsimp only
    rw [hrest, Scalar.encodeAll_cons, List.length_append, List.cons_append]

/-- The first bytes of values hold the values that are whole in them. -/
theorem holds_extract_of_le {buffer : Array UInt8} {values : List Scalar} {k n : Nat}
    (h : buffer.toList = Scalar.encodeAll values) (hle : Scalar.startOf values k ≤ n) :
    (ofBuffer (buffer.extract 0 n) 0).Holds (Scalar.encodeAll (values.take k)) := by
  have hstarts : Scalar.encodeAll (values.take k) <+: buffer.toList := by
    rw [h, ← Scalar.encodeAll_take_append values k]
    exact List.prefix_append _ _
  apply holds_of_starts
  rw [Array.toList_extract, List.extract_eq_take_drop, List.drop_zero, Nat.sub_zero]
  exact List.prefix_take_iff.mpr ⟨hstarts, hle⟩

/-- Values are read back from the bytes of all of them. -/
theorem scalars_whole {buffer : Array UInt8} {values : List Scalar}
    (h : buffer.toList = Scalar.encodeAll values) :
    scalars (values.map Scalar.kind) (ofBuffer buffer 0) =
      (values, none, ofBuffer buffer buffer.size) := by
  have hholds : (ofBuffer buffer 0).Holds (Scalar.encodeAll values) := by
    rw [← h]
    exact holds_of_starts (List.prefix_refl _)
  have hread := scalars_of_holds hholds []
  rw [← h, Array.length_toList, List.append_nil] at hread
  rw [hread]
  simp [scalars, ofBuffer, window, seek]

/-- From the first `n` bytes, with `n` in the value at `k`, the values before it are read back. -/
theorem scalars_cut {buffer : Array UInt8} {values : List Scalar} {k n : Nat}
    (h : buffer.toList = Scalar.encodeAll values) (hk : k < values.length)
    (hn : n < buffer.size) (hle : Scalar.startOf values k ≤ n)
    (hlt : n < Scalar.startOf values (k + 1)) :
    scalars (values.map Scalar.kind) (ofBuffer (buffer.extract 0 n) 0) =
      (values.take k, some (.unexpectedEnd (Scalar.startOf values k)),
        ofBuffer (buffer.extract 0 n) (Scalar.startOf values k)) := by
  have hkinds : values.map Scalar.kind = (values.take k).map Scalar.kind ++
      values[k].kind :: (values.drop (k + 1)).map Scalar.kind := by
    rw [← List.map_cons, ← List.drop_eq_getElem_cons hk, ← List.map_append, List.take_append_drop]
  have hread := scalars_of_holds (holds_extract_of_le h hle)
    (values[k].kind :: (values.drop (k + 1)).map Scalar.kind)
  have hposition : (ofBuffer (buffer.extract 0 n) 0).seek
      ((ofBuffer (buffer.extract 0 n) 0).position + (Scalar.encodeAll (values.take k)).length) =
      ofBuffer (buffer.extract 0 n) (Scalar.startOf values k) := by
    simp [ofBuffer, window, seek, Scalar.startOf]
  have hstop : (ofBuffer (buffer.extract 0 n) (Scalar.startOf values k)).stop <
      Scalar.startOf values k + values[k].kind.width := by
    rw [stop_ofBuffer, Array.size_extract, ← Scalar.startOf_succ hk]
    omega
  have hfail : scalar values[k].kind (ofBuffer (buffer.extract 0 n) (Scalar.startOf values k)) =
      .error (.unexpectedEnd (Scalar.startOf values k)) := scalar_of_lt hstop
  rw [hkinds, hread, hposition, scalars, hfail, List.append_nil]

end Reader

/-- **Fields in a row** are read back as they were emitted, in a shorter buffer as far as they are
whole, and no move of a reader makes a sum that is no word. -/
theorem Reader.scalars_emitted :
    (∀ values : List Scalar,
      Reader.scalars (values.map Scalar.kind)
          (ofBuffer (Writer.empty.scalars values).buffer 0) =
        (values, none,
          ofBuffer (Writer.empty.scalars values).buffer (Writer.empty.scalars values).offset)) ∧
    (∀ (values : List Scalar) (n : Nat), n < (Writer.empty.scalars values).offset →
      ∃ k, k < values.length ∧
        (∀ i, i < values.length → (Scalar.startOf values (i + 1) ≤ n ↔ i < k)) ∧
        Reader.scalars (values.map Scalar.kind)
            (ofBuffer ((Writer.empty.scalars values).buffer.extract 0 n) 0) =
          (values.take k, some (.unexpectedEnd (Scalar.startOf values k)),
            ofBuffer ((Writer.empty.scalars values).buffer.extract 0 n)
              (Scalar.startOf values k))) ∧
    ∀ (r : WordReader) (moves : List WordMove), ∃ passages, r.passages moves = some passages ∧
      passages.map WordPassage.toPassage = r.toReader.passages (moves.map WordMove.toMove) ∧
      ∀ p ∈ passages, p.toPassage.Sound r.bytes.size := by
  have hbuffer (values : List Scalar) :
      (Writer.empty.scalars values).buffer.toList = Scalar.encodeAll values :=
    Writer.toList_scalars Writer.empty values
  refine ⟨fun values => scalars_whole (hbuffer values), fun values n hn => ?_, fun r moves => ?_⟩
  · have hlength : n < (Scalar.encodeAll values).length := by
      rw [← hbuffer, Array.length_toList]
      exact hn
    obtain ⟨k, hk, hle, hlt⟩ := Scalar.exists_startOf_le hlength
    rw [← Scalar.startOf_succ hk] at hlt
    refine ⟨k, hk, fun i hi => ⟨fun hin => ?_, fun hin => ?_⟩,
      scalars_cut (hbuffer values) hk hn hle hlt⟩
    · rcases Nat.lt_or_ge i k with hik | hik
      · exact hik
      · have hstart : Scalar.startOf values (k + 1) ≤ Scalar.startOf values (i + 1) :=
          Scalar.startOf_le_startOf (Nat.succ_le_succ hik)
        omega
    · exact Nat.le_trans (Scalar.startOf_le_startOf hin) hle
  · obtain ⟨passages, hpassages, hmap⟩ := r.exists_passages moves
    refine ⟨passages, hpassages, hmap, fun p hp => ?_⟩
    rw [← r.stop_toReader]
    apply r.toReader.sound_passages (moves.map WordMove.toMove)
    rw [← hmap]
    exact List.mem_map_of_mem hp

/-- Three values of three types; the last one is no number. -/
def threeFields : List Scalar := [.uint8 7, .int16 (-2), .float64 0x7ff8000000000001]

/-- The last of the values is cut after its first two bytes. -/
theorem Reader.scalars_threeFields :
    Reader.scalars [.uint8, .int16, .float64]
        (ofBuffer ((Writer.empty.scalars threeFields).buffer.extract 0 5) 0) =
      ([.uint8 7, .int16 (-2)], some (.unexpectedEnd 3),
        ofBuffer ((Writer.empty.scalars threeFields).buffer.extract 0 5) 3) := by
  obtain ⟨k, hk, hwhole, hread⟩ := Reader.scalars_emitted.2.1 threeFields 5 (by decide)
  obtain rfl : k = 2 := by
    have hsecond := (hwhole 1 (by decide)).mp (by decide)
    have hthird := (not_congr (hwhole 2 (by decide))).mp (by decide)
    omega
  exact hread

end LpcInspect
