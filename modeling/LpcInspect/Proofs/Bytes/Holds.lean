import LpcInspect.Bytes.Reader

/-!
# Reading known bytes

`Reader.Holds r bytes` says that a reader stands before the given bytes and that all of them lie in
its window. Every read is described by it in both directions: a read gives a value exactly when the
reader holds the bytes of that value, and then it stands behind them. These equivalences turn a
computation that reads fields one after the other into the list of bytes it takes.
-/

namespace LpcInspect

namespace ScalarKind

@[simp] theorem kind_ofBits (kind : ScalarKind) (n : Nat) : (kind.ofBits n).kind = kind := by
  cases kind <;> rfl

/-- A bit pattern that fits in a type is that of a value of the type. -/
theorem toBits_ofBits (kind : ScalarKind) {n : Nat} (h : n < Bytes.capacity kind.width) :
    (kind.ofBits n).toBits = n := by
  cases kind with
  | uint8 => exact UInt8.toNat_ofNat_of_lt h
  | uint16 => exact UInt16.toNat_ofNat_of_lt h
  | int16 => exact UInt16.toNat_ofNat_of_lt h
  | uint32 => exact UInt32.toNat_ofNat_of_lt h
  | int32 => exact UInt32.toNat_ofNat_of_lt h
  | uint64 => exact UInt64.toNat_ofNat_of_lt h
  | int64 => exact UInt64.toNat_ofNat_of_lt h
  | float64 => exact UInt64.toNat_ofNat_of_lt h

/-- Bytes of the right number are those of the value they are read as. -/
theorem encode_decode (kind : ScalarKind) {bytes : Bytes} (h : bytes.length = kind.width) :
    (kind.decode bytes).encode = bytes := by
  have hlt := Bytes.toNatLE_lt bytes
  rw [h] at hlt
  rw [decode, Scalar.encode, kind_ofBits, toBits_ofBits kind hlt, ← h, Bytes.ofNatLE_toNatLE]

end ScalarKind

/-! ### Fields one after the other -/

theorem length_flatMap_const {α : Type} {field : α → Bytes} {n : Nat} {xs : List α}
    (h : ∀ x ∈ xs, (field x).length = n) : (xs.flatMap field).length = xs.length * n := by
  induction xs with
  | nil => simp
  | cons x xs ih =>
    rw [List.flatMap_cons, List.length_append, h x (List.mem_cons_self ..),
      ih fun y hy => h y (List.mem_cons_of_mem _ hy), List.length_cons, Nat.succ_mul, Nat.add_comm]

/-- If any `n` bytes are the field of a valid value, then any multiple of `n` bytes are the fields
of a list of valid values. -/
theorem exists_flatMap_eq {α : Type} {field : α → Bytes} {Valid : α → Prop} {n : Nat}
    (h : ∀ bytes : Bytes, bytes.length = n → ∃ x, Valid x ∧ field x = bytes) {count : Nat}
    {bytes : Bytes} (hlength : bytes.length = count * n) :
    ∃ xs : List α, xs.length = count ∧ (∀ x ∈ xs, Valid x) ∧ xs.flatMap field = bytes := by
  induction count generalizing bytes with
  | zero =>
    rw [Nat.zero_mul, List.length_eq_zero_iff] at hlength
    exact ⟨[], rfl, by simp, by simp [hlength]⟩
  | succ count ih =>
    rw [Nat.succ_mul] at hlength
    obtain ⟨x, hx, hfirst⟩ := h (bytes.take n) (by rw [List.length_take]; omega)
    have hrest : (bytes.drop n).length = count * n := by rw [List.length_drop]; omega
    obtain ⟨xs, hcount, hxs, hdrop⟩ := ih hrest
    refine ⟨x :: xs, by simp [hcount], ?_, ?_⟩
    · intro y hy
      rcases List.mem_cons.mp hy with rfl | hy
      · exact hx
      · exact hxs y hy
    · rw [List.flatMap_cons, hfirst, hdrop, List.take_append_drop]

namespace Reader

@[simp] theorem seek_seek (r : Reader) (p q : Nat) : (r.seek p).seek q = r.seek q := rfl

@[simp] theorem seek_position (r : Reader) : r.seek r.position = r := rfl

/-- The reader stands before the given bytes, and they lie in its window. -/
def Holds : Reader → Bytes → Prop
  | _, [] => True
  | r, b :: rest =>
    r.position < r.stop ∧ r.bytes[r.position]? = some b ∧ Holds (r.seek (r.position + 1)) rest

@[simp] theorem holds_nil (r : Reader) : r.Holds [] := trivial

theorem holds_cons (r : Reader) (b : UInt8) (rest : Bytes) :
    r.Holds (b :: rest) ↔ r.position < r.stop ∧ r.bytes[r.position]? = some b ∧
      (r.seek (r.position + 1)).Holds rest := Iff.rfl

theorem holds_append (r : Reader) (bytes more : Bytes) :
    r.Holds (bytes ++ more) ↔ r.Holds bytes ∧ (r.seek (r.position + bytes.length)).Holds more := by
  induction bytes generalizing r with
  | nil => simp
  | cons b rest ih =>
    simp only [List.cons_append, holds_cons, ih, seek_seek, position_seek, List.length_cons,
      and_assoc, Nat.add_assoc, Nat.add_comm 1]

/-- The bytes that a reader holds end in its window. -/
theorem Holds.position_add_le {r : Reader} {bytes : Bytes} (h : r.Holds bytes)
    (hpos : r.position ≤ r.stop) : r.position + bytes.length ≤ r.stop := by
  induction bytes generalizing r with
  | nil => exact hpos
  | cons b rest ih =>
    have hrest := ih h.2.2 h.1
    simp only [position_seek, stop_seek] at hrest
    simp only [List.length_cons]
    omega

/-- A reader holds bytes exactly when they are the next ones of its window. -/
theorem holds_iff_extract {r : Reader} {bytes : Bytes} (hpos : r.position ≤ r.stop) :
    r.Holds bytes ↔ r.position + bytes.length ≤ r.stop ∧
      (r.bytes.extract r.position (r.position + bytes.length)).toList = bytes := by
  induction bytes generalizing r with
  | nil => simp [hpos]
  | cons b rest ih =>
    by_cases hlt : r.position < r.stop
    · have hsize : r.position < r.bytes.size := Nat.lt_of_lt_of_le hlt r.stop_le
      have hextract : (r.bytes.extract r.position (r.position + (rest.length + 1))).toList =
          r.bytes[r.position] ::
            (r.bytes.extract (r.position + 1) (r.position + 1 + rest.length)).toList := by
        simp only [Array.toList_extract, List.extract_eq_take_drop, Nat.add_sub_cancel_left]
        rw [List.drop_eq_getElem_cons (by simpa using hsize), List.take_succ_cons]
        rfl
      rw [holds_cons, ih (Nat.succ_le_of_lt hlt), List.length_cons, hextract,
        Array.getElem?_eq_getElem hsize, Option.some.injEq, List.cons.injEq]
      simp only [position_seek, stop_seek, bytes_seek]
      constructor
      · rintro ⟨-, hb, hle, hrest⟩
        exact ⟨by omega, hb, hrest⟩
      · rintro ⟨hle, hb, hrest⟩
        exact ⟨hlt, hb, by omega, hrest⟩
    · constructor
      · intro h
        exact absurd h.1 hlt
      · rintro ⟨hle, -⟩
        simp only [List.length_cons] at hle
        omega

/-- The bytes that a reader holds are at most those left in its window. -/
theorem Holds.length_le_remaining {r : Reader} {bytes : Bytes} (h : r.Holds bytes) :
    bytes.length ≤ r.remaining := by
  cases bytes with
  | nil => exact Nat.zero_le _
  | cons b rest =>
    have hle := h.position_add_le (Nat.le_of_lt h.1)
    unfold remaining
    omega

/-- A reader holds any number of bytes that are left in its window. -/
theorem holds_extract {r : Reader} {count : Nat} (h : count ≤ r.remaining) :
    r.Holds (r.bytes.extract r.position (r.position + count)).toList ∧
      (r.bytes.extract r.position (r.position + count)).toList.length = count := by
  unfold remaining at h
  have hstop := r.stop_le
  have hlength : (r.bytes.extract r.position (r.position + count)).toList.length = count := by
    simp only [Array.length_toList, Array.size_extract]
    omega
  refine ⟨?_, hlength⟩
  by_cases hpos : r.position ≤ r.stop
  · rw [holds_iff_extract hpos, hlength]
    exact ⟨by omega, rfl⟩
  · obtain rfl : count = 0 := by omega
    rw [List.length_eq_zero_iff.mp hlength]
    trivial

/-- The bytes that a reader holds are those from its position on. -/
theorem Holds.extract_eq {r : Reader} {bytes : Bytes} (h : r.Holds bytes) :
    (r.bytes.extract r.position (r.position + bytes.length)).toList = bytes := by
  cases bytes with
  | nil => simp
  | cons b rest => exact ((holds_iff_extract (Nat.le_of_lt h.1)).mp h).2

/-- The first byte that a reader holds is the one at its position. -/
theorem Holds.head_eq {r : Reader} {bytes : Bytes} (h : r.Holds bytes) :
    ∀ b ∈ bytes.head?, b = r.bytes.getD r.position 0 := by
  cases bytes with
  | nil => simp
  | cons b rest =>
    intro c hc
    obtain rfl : b = c := Option.some.inj hc
    rw [Array.getD_eq_getD_getElem?, h.2.1]
    rfl

/-- Bytes that lie in a window also lie in any other window that is long enough. -/
theorem Holds.of_window {code : Array UInt8} {stop stop' position : Nat} {bytes : Bytes}
    (h : (window code stop position).Holds bytes) (hstop : position + bytes.length ≤ stop') :
    (window code stop' position).Holds bytes := by
  induction bytes generalizing position with
  | nil => trivial
  | cons b rest ih =>
    obtain ⟨hlt, hb, hrest⟩ := h
    rw [List.length_cons] at hstop
    have hsize : position < code.size := Nat.lt_of_lt_of_le hlt (Nat.min_le_right _ _)
    have hlt' : position < stop' := by omega
    have hnext : position + 1 + List.length rest ≤ stop' := by omega
    exact ⟨Nat.lt_min.mpr ⟨hlt', hsize⟩, hb, ih hrest hnext⟩

/-- A buffer holds its bytes. -/
theorem holds_toArray (bytes : Bytes) :
    (window bytes.toArray bytes.length 0).Holds bytes := by
  rw [holds_iff_extract (Nat.zero_le _)]
  simp [window]

/-- A buffer holds the bytes that it starts with. -/
theorem holds_of_starts {buffer : Array UInt8} {bytes : Bytes} (h : bytes <+: buffer.toList) :
    (ofBuffer buffer 0).Holds bytes := by
  obtain ⟨rest, hrest⟩ := h
  have hall := holds_toArray buffer.toList
  rw [Array.toArray_toList, Array.length_toList, ← hrest, holds_append] at hall
  exact hall.1

/-- A window holds any of its bytes. -/
theorem holds_window {buffer : Array UInt8} {stop position count : Nat}
    (hstop : position + count ≤ stop) (hsize : position + count ≤ buffer.size) :
    (window buffer stop position).Holds ((buffer.toList.drop position).take count) := by
  have hlength : ((buffer.toList.drop position).take count).length = count := by
    rw [List.length_take, List.length_drop, Array.length_toList]
    omega
  have hle : position + count ≤ (window buffer stop position).stop := Nat.le_min.mpr ⟨hstop, hsize⟩
  rw [holds_iff_extract (Nat.le_trans (Nat.le_add_right _ _) hle), hlength]
  refine ⟨hle, ?_⟩
  rw [Array.toList_extract, List.extract_eq_take_drop, Nat.add_sub_cancel_left]
  rfl

/-! ### Single reads -/

theorem bind_eq_ok_iff {α β : Type} {m : Decode α} {f : α → Decode β} {r r' : Reader} {y : β} :
    (m >>= f) r = .ok (y, r') ↔ ∃ x s, m r = .ok (x, s) ∧ f x s = .ok (y, r') := by
  cases h : m r with
  | error e => simp [Bind.bind, StateT.bind, Except.bind, h]
  | ok found =>
    obtain ⟨x, s⟩ := found
    constructor
    · intro hf
      exact ⟨x, s, rfl, by simpa [Bind.bind, StateT.bind, Except.bind, h] using hf⟩
    · rintro ⟨x', s', hok, hf⟩
      cases hok
      simpa [Bind.bind, StateT.bind, Except.bind, h] using hf

theorem pure_eq_ok_iff {α : Type} {x y : α} {r r' : Reader} :
    (pure x : Decode α) r = .ok (y, r') ↔ x = y ∧ r = r' := by
  have hpure : (pure x : Decode α) r = .ok (x, r) := rfl
  rw [hpure, Except.ok.injEq, Prod.mk.injEq]

theorem take_eq_ok_iff {count : Nat} (hcount : 0 < count) {r r' : Reader} {bytes : Bytes} :
    take count r = .ok (bytes, r') ↔
      bytes.length = count ∧ r.Holds bytes ∧ r' = r.seek (r.position + count) := by
  unfold take
  by_cases hle : r.position + count ≤ r.stop
  · have hpos : r.position ≤ r.stop := by omega
    have hsize := r.stop_le
    rw [if_pos hle, Except.ok.injEq, Prod.mk.injEq, holds_iff_extract hpos]
    constructor
    · rintro ⟨rfl, rfl⟩
      have hlength : (r.bytes.extract r.position (r.position + count)).toList.length = count := by
        simp only [Array.length_toList, Array.size_extract]
        omega
      rw [hlength]
      exact ⟨rfl, ⟨hle, rfl⟩, rfl⟩
    · rintro ⟨rfl, ⟨-, hbytes⟩, rfl⟩
      exact ⟨hbytes, rfl⟩
  · rw [if_neg hle]
    constructor
    · intro h
      cases h
    · rintro ⟨rfl, hholds, -⟩
      cases bytes with
      | nil => cases hcount
      | cons b rest =>
        have := hholds.position_add_le (Nat.le_of_lt hholds.1)
        omega

theorem skip_eq_ok_iff {count : Nat} (hcount : 0 < count) {r r' : Reader} {u : Unit} :
    skip count r = .ok (u, r') ↔
      ∃ bytes : Bytes, bytes.length = count ∧ r.Holds bytes ∧ r' = r.seek (r.position + count) := by
  have htake : (∃ bytes, take count r = .ok (bytes, r')) ↔ skip count r = .ok (u, r') := by
    unfold take skip remaining
    by_cases hle : r.position + count ≤ r.stop
    · rw [if_pos hle, if_pos (by omega)]
      simp
    · rw [if_neg hle, if_neg (by omega)]
      simp
  rw [← htake]
  simp only [take_eq_ok_iff hcount]

/-- A field of a type is read exactly where the bytes of a value stand. The value is given by
`ofBits` from the bit pattern, and `toScalar` names its type. -/
theorem field_eq_ok_iff {α : Type} {ofBits : Nat → α} (kind : ScalarKind) (toScalar : α → Scalar)
    (hbits : ∀ n, toScalar (ofBits n) = kind.ofBits n)
    (hinj : ∀ x y, toScalar x = toScalar y → x = y) (hkind : ∀ x, (toScalar x).kind = kind)
    {r r' : Reader} {x : α} :
    (do return ofBits (← take kind.width).toNatLE : Decode α) r = .ok (x, r') ↔
      r.Holds (toScalar x).encode ∧ r' = r.seek (r.position + kind.width) := by
  have hwidth : 0 < kind.width := by cases kind <;> decide
  rw [bind_eq_ok_iff]
  simp only [pure_eq_ok_iff, take_eq_ok_iff hwidth]
  constructor
  · rintro ⟨bytes, _, ⟨hlength, hholds, rfl⟩, rfl, rfl⟩
    refine ⟨?_, rfl⟩
    rwa [hbits, show kind.ofBits bytes.toNatLE = kind.decode bytes from rfl,
      kind.encode_decode hlength]
  · rintro ⟨hholds, rfl⟩
    refine ⟨(toScalar x).encode, _, ⟨?_, hholds, rfl⟩, ?_, rfl⟩
    · rw [Scalar.length_encode, hkind]
    · apply hinj
      have hdecode := ScalarKind.decode_encode (toScalar x)
      rwa [hkind, ScalarKind.decode, ← hbits] at hdecode

section Fields

variable {r r' : Reader}

theorem uint8_eq_ok_iff {x : UInt8} :
    uint8 r = .ok (x, r') ↔ r.Holds [x] ∧ r' = r.seek (r.position + 1) := by
  have hencode : (Scalar.uint8 x).encode = [x] := by
    simp [Scalar.encode, Scalar.kind, ScalarKind.width, Scalar.toBits]
  rw [← hencode]
  exact field_eq_ok_iff .uint8 .uint8 (fun _ => rfl) (fun _ _ => Scalar.uint8.inj) fun _ => rfl

theorem uint16_eq_ok_iff {x : UInt16} :
    uint16 r = .ok (x, r') ↔ r.Holds (Scalar.uint16 x).encode ∧ r' = r.seek (r.position + 2) :=
  field_eq_ok_iff .uint16 .uint16 (fun _ => rfl) (fun _ _ => Scalar.uint16.inj) fun _ => rfl

theorem int16_eq_ok_iff {x : Int16} :
    int16 r = .ok (x, r') ↔ r.Holds (Scalar.int16 x).encode ∧ r' = r.seek (r.position + 2) :=
  field_eq_ok_iff .int16 .int16 (fun _ => rfl) (fun _ _ => Scalar.int16.inj) fun _ => rfl

theorem int32_eq_ok_iff {x : Int32} :
    int32 r = .ok (x, r') ↔ r.Holds (Scalar.int32 x).encode ∧ r' = r.seek (r.position + 4) :=
  field_eq_ok_iff .int32 .int32 (fun _ => rfl) (fun _ _ => Scalar.int32.inj) fun _ => rfl

theorem uint64_eq_ok_iff {x : UInt64} :
    uint64 r = .ok (x, r') ↔ r.Holds (Scalar.uint64 x).encode ∧ r' = r.seek (r.position + 8) :=
  field_eq_ok_iff .uint64 .uint64 (fun _ => rfl) (fun _ _ => Scalar.uint64.inj) fun _ => rfl

theorem int64_eq_ok_iff {x : Int64} :
    int64 r = .ok (x, r') ↔ r.Holds (Scalar.int64 x).encode ∧ r' = r.seek (r.position + 8) :=
  field_eq_ok_iff .int64 .int64 (fun _ => rfl) (fun _ _ => Scalar.int64.inj) fun _ => rfl

end Fields

theorem uint8s_eq_ok_iff {count : Nat} {r r' : Reader} {bytes : List UInt8} :
    uint8s count r = .ok (bytes, r') ↔
      bytes.length = count ∧ r.Holds bytes ∧ r' = r.seek (r.position + count) := by
  induction count generalizing r r' bytes with
  | zero =>
    simp only [uint8s, pure_eq_ok_iff, List.length_eq_zero_iff, Nat.add_zero, seek_position]
    constructor
    · rintro ⟨rfl, rfl⟩
      exact ⟨rfl, trivial, rfl⟩
    · rintro ⟨rfl, -, rfl⟩
      exact ⟨rfl, rfl⟩
  | succ count ih =>
    simp only [uint8s, bind_eq_ok_iff, pure_eq_ok_iff, uint8_eq_ok_iff, ih]
    constructor
    · rintro ⟨b, _, ⟨hb, rfl⟩, rest, _, ⟨hlength, hrest, rfl⟩, rfl, rfl⟩
      refine ⟨by simp [hlength], ⟨hb.1, hb.2.1, hrest⟩, ?_⟩
      simp only [seek_seek, position_seek, Nat.add_assoc, Nat.add_comm 1]
    · rintro ⟨hlength, hholds, rfl⟩
      cases bytes with
      | nil => cases hlength
      | cons b rest =>
        refine ⟨b, _, ⟨⟨hholds.1, hholds.2.1, trivial⟩, rfl⟩, rest, _,
          ⟨by simpa using hlength, hholds.2.2, rfl⟩, rfl, ?_⟩
        simp only [seek_seek, position_seek, Nat.add_assoc, Nat.add_comm 1]

/-! ### Reading back

What a computation that succeeds has read first. -/

section Inversion

variable {α : Type} {r r' : Reader} {y : α}

theorem holds_of_bind_uint8 {f : UInt8 → Decode α} (h : (uint8 >>= f) r = .ok (y, r')) :
    ∃ x, r.Holds [x] ∧ f x (r.seek (r.position + [x].length)) = .ok (y, r') := by
  obtain ⟨x, s, hx, hf⟩ := bind_eq_ok_iff.mp h
  obtain ⟨hholds, rfl⟩ := uint8_eq_ok_iff.mp hx
  exact ⟨x, hholds, hf⟩

theorem holds_of_bind_uint16 {f : UInt16 → Decode α} (h : (uint16 >>= f) r = .ok (y, r')) :
    ∃ x, r.Holds (Scalar.uint16 x).encode ∧
      f x (r.seek (r.position + (Scalar.uint16 x).encode.length)) = .ok (y, r') := by
  obtain ⟨x, s, hx, hf⟩ := bind_eq_ok_iff.mp h
  obtain ⟨hholds, rfl⟩ := uint16_eq_ok_iff.mp hx
  exact ⟨x, hholds, hf⟩

theorem holds_of_bind_int32 {f : Int32 → Decode α} (h : (int32 >>= f) r = .ok (y, r')) :
    ∃ x, r.Holds (Scalar.int32 x).encode ∧
      f x (r.seek (r.position + (Scalar.int32 x).encode.length)) = .ok (y, r') := by
  obtain ⟨x, s, hx, hf⟩ := bind_eq_ok_iff.mp h
  obtain ⟨hholds, rfl⟩ := int32_eq_ok_iff.mp hx
  exact ⟨x, hholds, hf⟩

theorem holds_of_bind_skip {count : Nat} (hcount : 0 < count) {f : Unit → Decode α}
    (h : (skip count >>= f) r = .ok (y, r')) :
    ∃ bytes : Bytes, bytes.length = count ∧ r.Holds bytes := by
  obtain ⟨_, s, hskip, -⟩ := bind_eq_ok_iff.mp h
  obtain ⟨bytes, hlength, hholds, -⟩ := (skip_eq_ok_iff hcount).mp hskip
  exact ⟨bytes, hlength, hholds⟩

end Inversion

/-! ### Reading on

The same facts in the form in which a computation is run on known bytes, one field after the other.
-/

section Run

variable {r : Reader}

theorem bind_of_ok {α β : Type} {m : Decode α} {s : Reader} {x : α} (h : m r = .ok (x, s))
    (f : α → Decode β) : (m >>= f) r = f x s := by
  simp [Bind.bind, StateT.bind, Except.bind, h]

theorem offset_eq_ok (r : Reader) : offset r = .ok (r.position, r) := rfl

theorem uint8_of_holds {x : UInt8} (h : r.Holds [x]) :
    uint8 r = .ok (x, r.seek (r.position + [x].length)) := uint8_eq_ok_iff.mpr ⟨h, rfl⟩

theorem uint16_of_holds {x : UInt16} (h : r.Holds (Scalar.uint16 x).encode) :
    uint16 r = .ok (x, r.seek (r.position + (Scalar.uint16 x).encode.length)) :=
  uint16_eq_ok_iff.mpr ⟨h, rfl⟩

theorem int32_of_holds {x : Int32} (h : r.Holds (Scalar.int32 x).encode) :
    int32 r = .ok (x, r.seek (r.position + (Scalar.int32 x).encode.length)) :=
  int32_eq_ok_iff.mpr ⟨h, rfl⟩

theorem skip_of_holds {bytes : Bytes} (count : Nat) (hcount : 0 < count)
    (hlength : bytes.length = count) (h : r.Holds bytes) :
    skip count r = .ok ((), r.seek (r.position + bytes.length)) :=
  (skip_eq_ok_iff hcount).mpr ⟨bytes, hlength, h, by rw [hlength]⟩

theorem uint8s_of_holds {bytes : Bytes} (h : r.Holds bytes) :
    uint8s bytes.length r = .ok (bytes, r.seek (r.position + bytes.length)) :=
  uint8s_eq_ok_iff.mpr ⟨rfl, h, rfl⟩

/-- A number that fits in a width is read from its bytes. -/
theorem unsigned_ofNatLE {width n : Nat} (hwidth : width = 2 ∨ width = 4 ∨ width = 8)
    (hn : n < Bytes.capacity width) (h : r.Holds (Bytes.ofNatLE width n)) :
    unsigned width r = .ok (n, r.seek (r.position + width)) := by
  have htake : take width r = .ok (Bytes.ofNatLE width n, r.seek (r.position + width)) :=
    (take_eq_ok_iff (by omega)).mpr ⟨Bytes.length_ofNatLE width n, h, rfl⟩
  rw [unsigned, if_pos hwidth, bind_of_ok htake, Bytes.toNatLE_ofNatLE_of_lt hn]
  rfl

/-- A key of eight bytes is read as its bit pattern. -/
theorem unsigned_of_holds {key : Scalar} (hwidth : key.kind.width = 8)
    (h : r.Holds key.encode) :
    unsigned 8 r = .ok (key.toBits, r.seek (r.position + key.encode.length)) := by
  have hbits := key.toBits_lt
  rw [Scalar.encode, hwidth] at h
  rw [hwidth] at hbits
  rw [Scalar.length_encode, hwidth]
  exact unsigned_ofNatLE (by decide) hbits h

end Run

/-! ### Reads that fail

A field that does not end in the window is not read, and the error names the position of the field.
A number of an unsupported width is not read in any window.
-/

section Failure

variable {r : Reader}

theorem bind_of_error {α β : Type} {m : Decode α} {e : ReadError} (h : m r = .error e)
    (f : α → Decode β) : (m >>= f) r = .error e := by
  simp [Bind.bind, StateT.bind, Except.bind, h]

theorem take_of_lt {count : Nat} (h : r.stop < r.position + count) :
    take count r = .error (.unexpectedEnd r.position) := if_neg (Nat.not_le.mpr h)

theorem uint16_of_lt (h : r.stop < r.position + 2) :
    uint16 r = .error (.unexpectedEnd r.position) := bind_of_error (take_of_lt h) _

theorem int32_of_lt (h : r.stop < r.position + 4) :
    int32 r = .error (.unexpectedEnd r.position) := bind_of_error (take_of_lt h) _

theorem unsigned_of_lt {width : Nat} (hwidth : width = 2 ∨ width = 4 ∨ width = 8)
    (h : r.stop < r.position + width) :
    unsigned width r = .error (.unexpectedEnd r.position) := by
  rw [unsigned, if_pos hwidth]
  exact bind_of_error (take_of_lt h) _

theorem unsigned_of_unsupported {width : Nat} (hwidth : ¬(width = 2 ∨ width = 4 ∨ width = 8)) :
    unsigned width r = .error (.unsupportedWidth width) := by
  rw [unsigned, if_neg hwidth]
  rfl

end Failure

end Reader
end LpcInspect
