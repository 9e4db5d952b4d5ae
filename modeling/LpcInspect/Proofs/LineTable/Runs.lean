import LpcInspect.LineTable.Blob
import LpcInspect.LineTable.Decode
import LpcInspect.Proofs.Bytes.Holds

/-!
# Reading the runs of a line table

The two parts of an encoded line table are runs of lines, of four bytes each, and runs of code
bytes, of one byte more than the width of a line. The loops that read them are described on the
bytes that stand before the reader: where the bytes of some runs stand, these runs are read, and
where a run of code bytes is cut off, its line is not. Conversely any bytes of the right number are
those of some runs, so the description covers every table. `LineBlob.table` is the line table that
is read from the runs of a `LineBlob`.
-/

namespace LpcInspect

namespace LineBlob

/-- The contents of a line table that an encoding can hold: a width that is supported, and lines
that fit in it. -/
structure Encodable (b : LineBlob) : Prop where
  width : b.width = 2 ∨ b.width = 4
  lines : ∀ run ∈ b.addresses, run.2.toNat < Bytes.capacity b.width

/-- The number of bytes of an encoding, which its header holds as far as it fits in two bytes. -/
def size (b : LineBlob) : Nat := 4 + 4 * b.files.length + (1 + b.width) * b.addresses.length

/-- A run of lines with the name of its file. -/
def fileSegment (p : Program) (run : UInt16 × UInt16) : FileSegment :=
  ⟨run.1, run.2, LineTable.fileName p run.2⟩

/-- The number of code bytes of some runs. -/
def spanTotal : List (UInt8 × UInt32) → Nat
  | [] => 0
  | run :: rest => run.1.toNat + spanTotal rest

/-- Runs of code bytes with their addresses, the first one at `start`. -/
def addressSegments (start : Nat) : List (UInt8 × UInt32) → List AddressSegment
  | [] => []
  | run :: rest => ⟨start, run.1, run.2⟩ :: addressSegments (start + run.1.toNat) rest

/-- The line table with the given contents, for a program that names the files. -/
def table (b : LineBlob) (p : Program) : LineTable :=
  ⟨b.files.map (fileSegment p), (addressSegments 0 b.addresses).toArray⟩

@[simp] theorem length_addressSegments (start : Nat) (runs : List (UInt8 × UInt32)) :
    (addressSegments start runs).length = runs.length := by
  induction runs generalizing start with
  | nil => rfl
  | cons run rest ih => simp [addressSegments, ih]

/-- Runs with addresses still are the runs. -/
theorem map_addressSegments (start : Nat) (runs : List (UInt8 × UInt32)) :
    (addressSegments start runs).map (fun s => (s.span, s.line)) = runs := by
  induction runs generalizing start with
  | nil => rfl
  | cons run rest ih => simp [addressSegments, ih]

/-- A run starts after the code bytes of the runs before it. -/
theorem getElem?_addressSegments (start : Nat) (runs : List (UInt8 × UInt32)) (k : Nat) :
    (addressSegments start runs)[k]? =
      runs[k]?.map fun run => ⟨start + spanTotal (runs.take k), run.1, run.2⟩ := by
  induction runs generalizing start k with
  | nil => simp [addressSegments]
  | cons run rest ih =>
    cases k with
    | zero => simp [addressSegments, spanTotal]
    | succ k => simp [addressSegments, spanTotal, ih, Nat.add_assoc]

/-! ### The bytes of runs -/

theorem length_fileBytes (run : UInt16 × UInt16) : (fileBytes run).length = 4 := rfl

theorem length_files (runs : List (UInt16 × UInt16)) :
    (runs.flatMap fileBytes).length = 4 * runs.length := by
  rw [length_flatMap_const fun run _ => length_fileBytes run, Nat.mul_comm]

section Width

variable {width : Nat} (hwidth : width = 2 ∨ width = 4)

include hwidth

theorem length_addressBytes (run : UInt8 × UInt32) :
    (addressBytes width run).length = 1 + width := by
  rcases hwidth with rfl | rfl <;> rfl

theorem length_addresses (runs : List (UInt8 × UInt32)) :
    (runs.flatMap (addressBytes width)).length = (1 + width) * runs.length := by
  rw [length_flatMap_const fun run _ => length_addressBytes hwidth run, Nat.mul_comm]

/-- A line that fits is written in as many bytes as the width says. -/
theorem addressBytes_eq {run : UInt8 × UInt32} (h : run.2.toNat < Bytes.capacity width) :
    addressBytes width run = run.1 :: Bytes.ofNatLE width run.2.toNat := by
  have hspan : (Scalar.uint8 run.1).encode = [run.1] := by
    simp [Scalar.encode, Scalar.kind, ScalarKind.width, Scalar.toBits]
  rw [addressBytes, hspan, List.singleton_append]
  rcases hwidth with rfl | rfl
  · have hline : run.2.toUInt16.toNat = run.2.toNat := by
      rw [UInt32.toNat_toUInt16]
      exact Nat.mod_eq_of_lt h
    rw [if_neg (by decide), Scalar.encode, Scalar.toBits, hline]
    rfl
  · rw [if_pos rfl]
    rfl

/-- Every byte followed by a line is a run. -/
theorem exists_addressBytes {bytes : Bytes} (h : bytes.length = 1 + width) :
    ∃ run : UInt8 × UInt32,
      run.2.toNat < Bytes.capacity width ∧ addressBytes width run = bytes := by
  cases bytes with
  | nil =>
    simp only [List.length_nil] at h
    omega
  | cons span line =>
    have hlength : line.length = width := by
      rw [List.length_cons] at h
      omega
    have hlt := Bytes.toNatLE_lt line
    rw [hlength] at hlt
    have hcapacity : Bytes.capacity width ≤ 4294967296 := by rcases hwidth with rfl | rfl <;> decide
    have hline : (UInt32.ofNat (Bytes.toNatLE line)).toNat = Bytes.toNatLE line :=
      UInt32.toNat_ofNat_of_lt (Nat.lt_of_lt_of_le hlt hcapacity)
    rw [← hline] at hlt
    refine ⟨(span, UInt32.ofNat (Bytes.toNatLE line)), hlt, ?_⟩
    rw [addressBytes_eq hwidth hlt, hline, ← hlength, Bytes.ofNatLE_toNatLE]

end Width

/-- Every two words are a run of lines. -/
theorem exists_fileBytes {bytes : Bytes} (h : bytes.length = 4) :
    ∃ run : UInt16 × UInt16, True ∧ fileBytes run = bytes := by
  have hfirst : (bytes.take 2).length = ScalarKind.uint16.width := by
    rw [List.length_take, h]
    rfl
  have hsecond : (bytes.drop 2).length = ScalarKind.uint16.width := by
    rw [List.length_drop, h]
    rfl
  refine ⟨(UInt16.ofNat (Bytes.toNatLE (bytes.take 2)),
    UInt16.ofNat (Bytes.toNatLE (bytes.drop 2))), trivial, ?_⟩
  calc fileBytes _
    _ = bytes.take 2 ++ bytes.drop 2 :=
      congr (congrArg _ (ScalarKind.uint16.encode_decode hfirst))
        (ScalarKind.uint16.encode_decode hsecond)
    _ = bytes := List.take_append_drop 2 bytes

section

variable {b : LineBlob} (hwidth : b.width = 2 ∨ b.width = 4)

include hwidth

theorem length_body : 4 + b.body.length = b.size := by
  rw [body, List.length_append, length_files, length_addresses hwidth, size, Nat.add_assoc]

theorem length_encode : b.encode.length = b.size := by
  rw [← length_body hwidth, encode, List.length_append, List.length_append]
  rfl

end

end LineBlob

/-! ### Reading runs -/

namespace LineTable

open LineBlob

variable {r : Reader}

/-- Runs of lines are read where their bytes stand. -/
theorem readFiles_of_holds (p : Program) {runs : List (UInt16 × UInt16)}
    (h : r.Holds (runs.flatMap fileBytes)) :
    readFiles p runs.length r =
      .ok (runs.map (fileSegment p), r.seek (r.position + 4 * runs.length)) := by
  induction runs generalizing r with
  | nil => rfl
  | cons run rest ih =>
    rw [List.flatMap_cons, Reader.holds_append, length_fileBytes, fileBytes,
      Reader.holds_append] at h
    obtain ⟨⟨hlines, hfile⟩, hrest⟩ := h
    have hnext : (r.seek (r.position + 4)).position + 4 * rest.length =
        r.position + 4 * (rest.length + 1) := by
      rw [Reader.position_seek]
      omega
    have htail := ih hrest
    rw [hnext] at htail
    rw [List.length_cons, readFiles, Reader.bind_of_ok (Reader.uint16_of_holds hlines),
      Reader.bind_of_ok (Reader.uint16_of_holds hfile)]
    exact Reader.bind_of_ok htail _

theorem get_eq_ok (r : Reader) : (get : Decode Reader) r = .ok (r, r) := rfl

/-- At the end of the window no more runs are read. -/
theorem readAddresses_of_end (h : r.stop ≤ r.position) (width bound start : Nat)
    (found : List AddressSegment) :
    readAddresses width bound start found r = .ok (found.reverse, r) := by
  cases bound with
  | zero => rfl
  | succ bound =>
    have hmore : ¬r.hasMore = true := by
      rw [Reader.hasMore, decide_eq_true_eq]
      omega
    rw [readAddresses, Reader.bind_of_ok (get_eq_ok r), if_neg hmore]
    rfl

section Width

variable {width : Nat} (hwidth : width = 2 ∨ width = 4)

include hwidth

/-- **One run of code bytes** is read where its bytes stand, and the loop goes on behind it. -/
theorem readAddresses_step {run : UInt8 × UInt32} (hline : run.2.toNat < Bytes.capacity width)
    (h : r.Holds (addressBytes width run)) (bound start : Nat) (found : List AddressSegment) :
    readAddresses width (bound + 1) start found r =
      readAddresses width bound (start + run.1.toNat) (⟨start, run.1, run.2⟩ :: found)
        (r.seek (r.position + (1 + width))) := by
  rw [addressBytes_eq hwidth hline] at h
  have hmore : r.hasMore = true := decide_eq_true h.1
  have hspan : Reader.uint8 r = .ok (run.1, r.seek (r.position + 1)) :=
    Reader.uint8_eq_ok_iff.mpr ⟨⟨h.1, h.2.1, trivial⟩, rfl⟩
  have hread := Reader.unsigned_ofNatLE (by omega) hline h.2.2
  rw [readAddresses, Reader.bind_of_ok (get_eq_ok r), if_pos hmore, Reader.bind_of_ok hspan,
    Reader.bind_of_ok hread, UInt32.ofNat_toNat, Reader.seek_seek, Reader.position_seek,
    Nat.add_assoc]

/-- **Runs of code bytes** are read where their bytes stand, and the loop goes on behind them. -/
theorem readAddresses_of_holds {runs : List (UInt8 × UInt32)}
    (hlines : ∀ run ∈ runs, run.2.toNat < Bytes.capacity width)
    (h : r.Holds (runs.flatMap (addressBytes width))) (bound start : Nat)
    (found : List AddressSegment) :
    readAddresses width (bound + runs.length) start found r =
      readAddresses width bound (start + spanTotal runs)
        ((addressSegments start runs).reverse ++ found)
        (r.seek (r.position + (1 + width) * runs.length)) := by
  induction runs generalizing r start found with
  | nil => rfl
  | cons run rest ih =>
    rw [List.flatMap_cons, Reader.holds_append, length_addressBytes hwidth] at h
    obtain ⟨hline, hrest⟩ := List.forall_mem_cons.mp hlines
    have hnext : r.position + (1 + width) + (1 + width) * rest.length =
        r.position + (1 + width) * (rest.length + 1) := by
      rw [Nat.mul_succ]
      omega
    rw [List.length_cons, ← Nat.add_assoc, readAddresses_step hwidth hline h.1, ih hrest h.2,
      Reader.seek_seek, Reader.position_seek, hnext, spanTotal, addressSegments, List.reverse_cons,
      List.append_assoc, List.singleton_append, Nat.add_assoc]

/-- A run that the end of the window cuts off has no line. -/
theorem readAddresses_of_cut (hmore : r.position < r.stop)
    (hcut : r.stop < r.position + (1 + width)) (bound start : Nat) (found : List AddressSegment) :
    readAddresses width (bound + 1) start found r = .error (.unexpectedEnd (r.position + 1)) := by
  have hsize : r.position < r.bytes.size := Nat.lt_of_lt_of_le hmore r.stop_le
  have hhas : r.hasMore = true := decide_eq_true hmore
  have hspan : Reader.uint8 r = .ok (r.bytes[r.position], r.seek (r.position + 1)) :=
    Reader.uint8_eq_ok_iff.mpr ⟨⟨hmore, Array.getElem?_eq_getElem hsize, trivial⟩, rfl⟩
  have hline : (r.seek (r.position + 1)).stop < (r.seek (r.position + 1)).position + width := by
    rw [Reader.stop_seek, Reader.position_seek]
    omega
  rw [readAddresses, Reader.bind_of_ok (get_eq_ok r), if_pos hhas, Reader.bind_of_ok hspan]
  exact Reader.bind_of_error (Reader.unsigned_of_lt (by omega) hline) _

/-- A window that is made of runs is read as these runs. -/
theorem readAddresses_whole {runs : List (UInt8 × UInt32)} {bound : Nat}
    (hlines : ∀ run ∈ runs, run.2.toNat < Bytes.capacity width)
    (h : r.Holds (runs.flatMap (addressBytes width)))
    (hstop : r.stop = r.position + (1 + width) * runs.length) (hbound : runs.length ≤ bound) :
    readAddresses width bound 0 [] r = .ok (addressSegments 0 runs, r.seek r.stop) := by
  obtain ⟨rest, rfl⟩ := Nat.exists_eq_add_of_le' hbound
  rw [readAddresses_of_holds hwidth hlines h, ← hstop, readAddresses_of_end (Nat.le_refl _),
    List.append_nil, List.reverse_reverse]

/-- A window that is made of runs and part of a run fails at the line of the last one. -/
theorem readAddresses_part {runs : List (UInt8 × UInt32)} {bound : Nat}
    (hlines : ∀ run ∈ runs, run.2.toNat < Bytes.capacity width)
    (h : r.Holds (runs.flatMap (addressBytes width)))
    (hmore : r.position + (1 + width) * runs.length < r.stop)
    (hcut : r.stop < r.position + (1 + width) * runs.length + (1 + width))
    (hbound : runs.length < bound) :
    readAddresses width bound 0 [] r =
      .error (.unexpectedEnd (r.position + (1 + width) * runs.length + 1)) := by
  obtain ⟨rest, rfl⟩ := Nat.exists_eq_add_of_le' hbound
  rw [Nat.add_succ, ← Nat.succ_add, readAddresses_of_holds hwidth hlines h]
  exact readAddresses_of_cut hwidth hmore hcut _ _ _

end Width

end LineTable
end LpcInspect
