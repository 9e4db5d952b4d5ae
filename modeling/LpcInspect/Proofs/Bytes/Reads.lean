import LpcInspect.Proofs.Bytes.Holds

/-!
# What a read depends on

Every read of a listing `Reads` fields: it succeeds exactly where the bytes of some field stand, and
gives the value of that field at that place. So it depends on the bytes that it takes and on their
place only. Three consequences are used for listings. Readers that are `Shifted` against each other
read the same fields and fail together, a window may end anywhere after the bytes that are read, and
a reader whose window `Extends` that of another one reads what the other one reads.
-/

namespace LpcInspect
namespace Reader

/-- A computation that succeeds exactly where the bytes of some field `i` stand, gives the value of
the field there and goes behind its bytes. -/
def Reads {α ι : Type} (m : Decode α) (bytes : ι → Bytes) (value : ι → Nat → α) : Prop :=
  ∀ ⦃r r' : Reader⦄ ⦃x : α⦄, m r = .ok (x, r') ↔
    ∃ i, r.Holds (bytes i) ∧ x = value i r.position ∧ r' = r.seek (r.position + (bytes i).length)

/-- The value of a fixed-width field does not depend on its place. -/
theorem reads_of_iff {α : Type} {m : Decode α} {bytes : α → Bytes} {width : Nat}
    (hwidth : ∀ x, (bytes x).length = width)
    (h : ∀ {r r' : Reader} {x : α},
      m r = .ok (x, r') ↔ r.Holds (bytes x) ∧ r' = r.seek (r.position + width)) :
    Reads m bytes fun x _ => x := by
  intro r r' x
  rw [h]
  constructor
  · rintro ⟨hholds, rfl⟩
    exact ⟨x, hholds, rfl, by rw [hwidth]⟩
  · rintro ⟨_, hholds, rfl, rfl⟩
    exact ⟨hholds, by rw [hwidth]⟩

theorem reads_uint16 : Reads uint16 (fun x => (Scalar.uint16 x).encode) fun x _ => x :=
  reads_of_iff (fun _ => rfl) uint16_eq_ok_iff

theorem reads_int32 : Reads int32 (fun x => (Scalar.int32 x).encode) fun x _ => x :=
  reads_of_iff (fun _ => rfl) int32_eq_ok_iff

/-- A number is read from as many bytes as the width says, if that is one of the three widths. -/
theorem reads_unsigned (width : Nat) :
    Reads (unsigned width)
      (fun field : { bytes : Bytes //
        bytes.length = width ∧ (width = 2 ∨ width = 4 ∨ width = 8) } => field.val)
      fun field _ => field.val.toNatLE := by
  intro r r' x
  unfold unsigned
  by_cases hwidth : width = 2 ∨ width = 4 ∨ width = 8
  · rw [if_pos hwidth, bind_eq_ok_iff]
    simp only [pure_eq_ok_iff, take_eq_ok_iff (show 0 < width by omega)]
    constructor
    · rintro ⟨bytes, _, ⟨hlength, hholds, rfl⟩, rfl, rfl⟩
      exact ⟨⟨bytes, hlength, hwidth⟩, hholds, rfl, by rw [hlength]⟩
    · rintro ⟨⟨bytes, hlength, _⟩, hholds, rfl, rfl⟩
      exact ⟨bytes, _, ⟨hlength, hholds, rfl⟩, rfl, by rw [hlength]⟩
  · rw [if_neg hwidth]
    constructor
    · intro h
      cases h
    · rintro ⟨⟨_, _, h⟩, _⟩
      exact absurd h hwidth

/-- What a read gives does not depend on where its window ends, if it ends after the bytes. -/
theorem Reads.of_window {α ι : Type} {m : Decode α} {bytes : ι → Bytes} {value : ι → Nat → α}
    (hm : Reads m bytes value) {code : Array UInt8} {stop stop' position : Nat} {x : α} {r : Reader}
    (h : m (window code stop position) = .ok (x, r)) (hstop : r.position ≤ stop') :
    m (window code stop' position) = .ok (x, window code stop' r.position) := by
  obtain ⟨i, hholds, rfl, rfl⟩ := hm.mp h
  exact hm.mpr ⟨i, hholds.of_window hstop, rfl, rfl⟩

/-! ### Longer windows -/

/-- The window of `s` has the bytes before `r`, and may go on after them. -/
structure Extends (s r : Reader) : Prop where
  position_eq : s.position = r.position
  stop_le : r.stop ≤ s.stop
  bytes_eq : ∀ i, r.position ≤ i → i < r.stop → s.bytes[i]? = r.bytes[i]?

theorem Extends.advance {r s : Reader} (h : s.Extends r) (count : Nat) :
    (s.seek (s.position + count)).Extends (r.seek (r.position + count)) := by
  refine ⟨congrArg (· + count) h.position_eq, h.stop_le, fun i hi => h.bytes_eq i ?_⟩
  exact Nat.le_trans (Nat.le_add_right _ _) hi

/-- A longer window holds the same bytes. -/
theorem Extends.holds {r s : Reader} (h : s.Extends r) {bytes : Bytes} (hholds : r.Holds bytes) :
    s.Holds bytes := by
  induction bytes generalizing r s with
  | nil => trivial
  | cons b rest ih =>
    obtain ⟨hlt, hb, hrest⟩ := hholds
    refine ⟨?_, ?_, ih (h.advance 1) hrest⟩
    · rw [h.position_eq]
      exact Nat.lt_of_lt_of_le hlt h.stop_le
    · rw [h.position_eq, h.bytes_eq r.position (Nat.le_refl _) hlt, hb]

/-- What is read is read alike in a longer window. -/
theorem Reads.of_extends {α ι : Type} {m : Decode α} {bytes : ι → Bytes} {value : ι → Nat → α}
    (hm : Reads m bytes value) {r s r' : Reader} (hs : s.Extends r) {x : α}
    (h : m r = .ok (x, r')) : m s = .ok (x, s.seek r'.position) := by
  obtain ⟨i, hholds, rfl, rfl⟩ := hm.mp h
  refine hm.mpr ⟨i, hs.holds hholds, by rw [hs.position_eq], ?_⟩
  rw [hs.position_eq]
  rfl

/-! ### The same bytes elsewhere -/

/-- The reader `s` has before it what `r` has before it, `k` places further on. -/
structure Shifted (k : Nat) (r s : Reader) : Prop where
  position_eq : s.position = r.position + k
  stop_eq : s.stop = r.stop + k
  bytes_eq : ∀ i, r.position ≤ i → i < r.stop → s.bytes[i + k]? = r.bytes[i]?

section Shift

variable {k : Nat} {r s : Reader}

/-- Shifted readers stay so when they go forward. -/
theorem Shifted.seek (h : Shifted k r s) {position : Nat} (hle : r.position ≤ position) :
    Shifted k (r.seek position) (s.seek (position + k)) :=
  ⟨rfl, h.stop_eq, fun i hi => h.bytes_eq i (Nat.le_trans hle hi)⟩

/-- Shifted readers stay so when both pass the same number of bytes. -/
theorem Shifted.advance (h : Shifted k r s) (count : Nat) :
    Shifted k (r.seek (r.position + count)) (s.seek (s.position + count)) := by
  rw [h.position_eq, Nat.add_right_comm]
  exact h.seek (Nat.le_add_right _ _)

/-- Shifted readers hold the same bytes. -/
theorem Shifted.holds_iff (h : Shifted k r s) {bytes : Bytes} :
    s.Holds bytes ↔ r.Holds bytes := by
  induction bytes generalizing r s with
  | nil => exact Iff.rfl
  | cons b rest ih =>
    have hposition := h.position_eq
    have hstop := h.stop_eq
    have hlt : s.position < s.stop ↔ r.position < r.stop := by omega
    rw [holds_cons, holds_cons, hlt]
    refine and_congr_right fun hpos => ?_
    rw [hposition, h.bytes_eq r.position (Nat.le_refl _) hpos, ← hposition, ih (h.advance 1)]

/-- **Shifted readers read the same field, or both fail.** The fields may be shown in two ways. -/
theorem Reads.shift {α ι : Type} {m m' : Decode α} {bytes : ι → Bytes} {value value' : ι → Nat → α}
    (hm : Reads m bytes value) (hm' : Reads m' bytes value') (h : Shifted k r s) :
    (∃ i, m r = .ok (value i r.position, r.seek (r.position + (bytes i).length)) ∧
      m' s = .ok (value' i (r.position + k), s.seek (s.position + (bytes i).length))) ∨
      ((∃ e, m r = .error e) ∧ ∃ e, m' s = .error e) := by
  cases hr : m r with
  | ok found =>
    obtain ⟨x, r'⟩ := found
    obtain ⟨i, hholds, rfl, rfl⟩ := hm.mp hr
    exact .inl ⟨i, rfl, hm'.mpr ⟨i, h.holds_iff.mpr hholds, by rw [h.position_eq], rfl⟩⟩
  | error e =>
    cases hs : m' s with
    | ok found =>
      obtain ⟨x, s'⟩ := found
      obtain ⟨i, hholds, -⟩ := hm'.mp hs
      rw [hm.mpr ⟨i, h.holds_iff.mp hholds, rfl, rfl⟩] at hr
      cases hr
    | error e' => exact .inr ⟨⟨e, rfl⟩, e', rfl⟩

end Shift
end Reader
end LpcInspect
