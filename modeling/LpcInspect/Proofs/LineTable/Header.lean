import LpcInspect.Proofs.LineTable.Runs

/-!
# The header of a line table

The header of a table states the size of the table and where its second part starts. Each check of
the header is a case of `LineTable.decode`, and behind them the two parts are read. A table that
starts with an encoding passes the checks and is read as what was encoded, whatever stands behind
the encoding: `LineTable.decode_of_starts`.
-/

namespace LpcInspect
namespace LineTable

open LineBlob

/-- The number of bytes that the header of a table states. -/
def statedSize (blob : Array UInt8) : Nat := Bytes.toNatLE (blob.toList.take 2)

/-- The position of the second part that the header of a table states. -/
def statedStart (blob : Array UInt8) : Nat := 2 * Bytes.toNatLE ((blob.toList.drop 2).take 2)

/-- The second part starts after the header and in the table, and the table is not cut off. -/
structure HeaderFits (blob : Array UInt8) : Prop where
  start : headerSize ≤ statedStart blob
  order : statedStart blob ≤ statedSize blob
  size : statedSize blob ≤ blob.size

theorem not_headerFits_iff {blob : Array UInt8} :
    ¬HeaderFits blob ↔ statedStart blob < headerSize ∨ statedSize blob < statedStart blob ∨
      blob.size < statedSize blob := by
  constructor
  · intro h
    exact Decidable.byContradiction fun hnot => h ⟨by omega, by omega, by omega⟩
  · rintro h ⟨hstart, horder, hsize⟩
    omega

/-! ### Reading the header -/

theorem result_of_ok {α : Type} {action : Decode α} {r r' : Reader} {x : α}
    (h : action r = .ok (x, r')) : result action r = .ok x := by
  rw [result, h]

theorem result_of_error {α : Type} {action : Decode α} {r : Reader} {e : ReadError}
    (h : action r = .error e) : result action r = .error (.truncated e) := by
  rw [result, h]

section Header

variable {blob : Array UInt8}

/-- Two bytes are the word that they are read as. -/
theorem word_of_length {bytes : Bytes} (h : bytes.length = 2) :
    (Scalar.uint16 (UInt16.ofNat (Bytes.toNatLE bytes))).encode = bytes ∧
      (UInt16.ofNat (Bytes.toNatLE bytes)).toNat = Bytes.toNatLE bytes := by
  have hlt := Bytes.toNatLE_lt bytes
  rw [h] at hlt
  exact ⟨ScalarKind.uint16.encode_decode h, UInt16.toNat_ofNat_of_lt hlt⟩

section Whole

variable (h : headerSize ≤ blob.size)

include h

theorem length_firstWord : (blob.toList.take 2).length = 2 := by
  rw [List.length_take, Array.length_toList]
  simp only [headerSize] at h
  omega

theorem length_secondWord : ((blob.toList.drop 2).take 2).length = 2 := by
  rw [List.length_take, List.length_drop, Array.length_toList]
  simp only [headerSize] at h
  omega

theorem statedSize_lt : statedSize blob < 65536 := by
  have hlt := Bytes.toNatLE_lt (blob.toList.take 2)
  rwa [length_firstWord h] at hlt

theorem readHeader_of_le :
    result readHeader (Reader.ofBuffer blob 0) = .ok (statedSize blob, statedStart blob) := by
  obtain ⟨hsize, hsizeNat⟩ := word_of_length (length_firstWord h)
  obtain ⟨hstart, hstartNat⟩ := word_of_length (length_secondWord h)
  have hstarts : blob.toList.take 2 ++ (blob.toList.drop 2).take 2 <+: blob.toList := by
    rw [← List.take_add]
    exact List.take_prefix _ _
  have hholds := Reader.holds_of_starts hstarts
  rw [← hsize, ← hstart, Reader.holds_append] at hholds
  apply result_of_ok
  rw [readHeader, Reader.bind_of_ok (Reader.uint16_of_holds hholds.1),
    Reader.bind_of_ok (Reader.uint16_of_holds hholds.2), hsizeNat, hstartNat]
  rfl

end Whole

theorem readHeader_of_lt (h : blob.size < headerSize) :
    result readHeader (Reader.ofBuffer blob 0) =
      .error (.truncated (.unexpectedEnd (if blob.size < 2 then 0 else 2))) := by
  have hstop : (Reader.ofBuffer blob 0).stop = blob.size := Nat.min_self _
  apply result_of_error
  by_cases hfirst : blob.size < 2
  · rw [if_pos hfirst, readHeader]
    exact Reader.bind_of_error (Reader.uint16_of_lt (by rw [hstop]; exact hfirst)) _
  · have hlength : (blob.toList.take 2).length = 2 := by
      rw [List.length_take, Array.length_toList]
      omega
    have hstarts : blob.toList.take 2 <+: blob.toList := List.take_prefix _ _
    have hholds := Reader.holds_of_starts hstarts
    rw [← (word_of_length hlength).1] at hholds
    rw [if_neg hfirst, readHeader, Reader.bind_of_ok (Reader.uint16_of_holds hholds)]
    refine Reader.bind_of_error (Reader.uint16_of_lt ?_) _
    rw [Reader.stop_seek, hstop]
    exact h

end Header

/-! ### The checks of the header -/

section Checks

variable {p : Program} {blob : Array UInt8} {width : Nat} (hp : p.lineInfo = some blob)
  (hwidth : width = 2 ∨ width = 4)

include hp hwidth

theorem decode_of_short (h : blob.size < headerSize) :
    decode p width = .error (.truncated (.unexpectedEnd (if blob.size < 2 then 0 else 2))) := by
  rw [decode, hp]
  dsimp only
  rw [if_neg (not_not_intro hwidth), readHeader_of_lt h]
  rfl

variable (hheader : headerSize ≤ blob.size)

include hheader

/-- What is done with a header that is whole. -/
theorem decode_of_header :
    decode p width =
      if statedStart blob < headerSize ∨ statedSize blob < statedStart blob ∨
          blob.size < statedSize blob then
        .error (.badHeader (statedSize blob) (statedStart blob) blob.size)
      else if (statedStart blob - headerSize) % 4 ≠ 0 then
        .error (.fileSection (statedStart blob - headerSize))
      else do
        let files ← result (readFiles p ((statedStart blob - headerSize) / 4))
          (Reader.ofBuffer blob headerSize)
        let addresses ← result (readAddresses width (statedSize blob - statedStart blob) 0 [])
          (Reader.window blob (statedSize blob) (statedStart blob))
        return ⟨files, addresses.toArray⟩ := by
  rw [decode, hp]
  dsimp only
  rw [if_neg (not_not_intro hwidth), readHeader_of_le hheader]
  rfl

theorem decode_of_not_fits (h : ¬HeaderFits blob) :
    decode p width = .error (.badHeader (statedSize blob) (statedStart blob) blob.size) := by
  rw [decode_of_header hp hwidth hheader, if_pos (not_headerFits_iff.mp h)]

variable (hfits : HeaderFits blob)

include hfits

theorem decode_of_fileSection (h : ¬4 ∣ statedStart blob - headerSize) :
    decode p width = .error (.fileSection (statedStart blob - headerSize)) := by
  rw [decode_of_header hp hwidth hheader, if_neg fun hbad => not_headerFits_iff.mpr hbad hfits,
    if_pos fun hmod => h (Nat.dvd_of_mod_eq_zero hmod)]

theorem decode_of_files (h : 4 ∣ statedStart blob - headerSize) :
    decode p width = do
      let files ← result (readFiles p ((statedStart blob - headerSize) / 4))
        (Reader.ofBuffer blob headerSize)
      let addresses ← result (readAddresses width (statedSize blob - statedStart blob) 0 [])
        (Reader.window blob (statedSize blob) (statedStart blob))
      return ⟨files, addresses.toArray⟩ := by
  rw [decode_of_header hp hwidth hheader, if_neg fun hbad => not_headerFits_iff.mpr hbad hfits,
    if_neg (not_not_intro (Nat.mod_eq_zero_of_dvd h))]

end Checks

/-! ### Tables that start with an encoding -/

section Prefix

variable {p : Program} {b : LineBlob} {blob : Array UInt8}

/-- The header of a table that starts with an encoding is the one that was written. -/
theorem stated_of_starts (hwidth : b.width = 2 ∨ b.width = 4) (hstarts : b.encode <+: blob.toList) :
    statedSize blob = b.size % 65536 ∧
      statedStart blob = 2 * ((4 + 4 * b.files.length) / 2 % 65536) := by
  have hlength (n : Nat) : (Scalar.uint16 (UInt16.ofNat n)).encode.length = 2 := rfl
  have hword (n : Nat) (rest : Bytes) :
      Bytes.toNatLE (((Scalar.uint16 (UInt16.ofNat n)).encode ++ rest).take 2) = n % 65536 := by
    rw [List.take_left' (hlength n), Scalar.encode,
      Bytes.toNatLE_ofNatLE_of_lt (Scalar.toBits_lt _)]
    exact UInt16.toNat_ofNat'
  obtain ⟨tail, htail⟩ := hstarts
  rw [statedSize, statedStart, ← htail, encode, length_body hwidth, List.append_assoc,
    List.append_assoc]
  refine ⟨hword _ _, ?_⟩
  rw [List.drop_left' (hlength _), hword]

/-- Behind the header stand the runs of the two parts. -/
theorem holds_of_starts (hstarts : b.encode <+: blob.toList) :
    (Reader.ofBuffer blob headerSize).Holds (b.files.flatMap fileBytes) ∧
      (Reader.ofBuffer blob (4 + 4 * b.files.length)).Holds
        (b.addresses.flatMap (addressBytes b.width)) := by
  have hholds := Reader.holds_of_starts hstarts
  rw [encode, Reader.holds_append] at hholds
  have hbody : (Reader.ofBuffer blob headerSize).Holds b.body := hholds.2
  rw [body, Reader.holds_append, length_files] at hbody
  exact hbody

/-- **A table that starts with an encoding** is read as what was encoded. -/
theorem decode_of_starts (hb : b.Encodable) (hsize : b.size < 65536)
    (hstarts : b.encode <+: blob.toList) (hp : p.lineInfo = some blob) :
    decode p b.width = .ok (b.table p) := by
  have hsizes : b.size = 4 + 4 * b.files.length + (1 + b.width) * b.addresses.length := rfl
  have hheader : headerSize = 4 := rfl
  have hle : b.size ≤ blob.size := by
    have := hstarts.length_le
    rwa [length_encode hb.width, Array.length_toList] at this
  obtain ⟨hstated, hhalf⟩ := stated_of_starts hb.width hstarts
  have hstart : statedStart blob = 4 + 4 * b.files.length := by omega
  rw [Nat.mod_eq_of_lt hsize] at hstated
  have hfits : HeaderFits blob := ⟨by omega, by omega, by omega⟩
  have hdvd : 4 ∣ statedStart blob - headerSize := by
    rw [hstart]
    exact ⟨b.files.length, Nat.add_sub_cancel_left ..⟩
  have hcount : (4 + 4 * b.files.length - headerSize) / 4 = b.files.length := by omega
  obtain ⟨hfiles, haddresses⟩ := holds_of_starts hstarts
  -- The runs of code bytes end where the window does.
  have hwindow : (Reader.window blob b.size (4 + 4 * b.files.length)).Holds
      (b.addresses.flatMap (addressBytes b.width)) :=
    haddresses.of_window (Nat.le_of_eq (by rw [length_addresses hb.width, hsizes]))
  have hstop : (Reader.window blob b.size (4 + 4 * b.files.length)).stop = b.size :=
    Nat.min_eq_left hle
  have hbound : b.addresses.length ≤ b.size - (4 + 4 * b.files.length) := by
    rw [hsizes, Nat.add_sub_cancel_left]
    exact Nat.le_mul_of_pos_left _ (by omega)
  rw [decode_of_files hp hb.width (by omega) hfits hdvd, hstated, hstart, hcount,
    result_of_ok (readFiles_of_holds p hfiles),
    result_of_ok (readAddresses_whole hb.width hb.lines hwindow hstop hbound)]
  rfl

end Prefix

end LineTable
end LpcInspect
