import LpcInspect.Proofs.LineTable.Header

/-!
# Which line tables are accepted

`LineTable.Regular` says in numbers that the header of a table fits it and that the two parts are
whole numbers of runs, and `LineTable.Refused` which check fails first if they do not. The bridge
between the numbers and the runs is that a regular table starts with the encoding of some runs,
`Regular.exists_encode`, which then are the runs that are read. So a table is accepted exactly when
it is regular, and its runs written again are the bytes that its header states.
-/

namespace LpcInspect
namespace LineTable

open LineBlob

/-- A table with a header that fits, and with whole runs in both parts. -/
structure Regular (blob : Array UInt8) (width : Nat) : Prop where
  supported : width = 2 ∨ width = 4
  header : headerSize ≤ blob.size
  fits : HeaderFits blob
  files : 4 ∣ statedStart blob - headerSize
  addresses : 1 + width ∣ statedSize blob - statedStart blob

/-- The first check that the line table of a program fails, with its error. Each case says that the
checks of the cases before it are passed. -/
inductive Refused (p : Program) (width : Nat) : LineInfoError → Prop where
  | missing (hp : p.lineInfo = none) : Refused p width .missing
  | width {blob : Array UInt8} (hp : p.lineInfo = some blob) (hwidth : ¬(width = 2 ∨ width = 4)) :
    Refused p width (.unsupportedWidth width)
  /-- The first word of the header that is not whole is the one that is not read. -/
  | header {blob : Array UInt8} (hp : p.lineInfo = some blob) (hwidth : width = 2 ∨ width = 4)
      (hheader : blob.size < headerSize) :
    Refused p width (.truncated (.unexpectedEnd (if blob.size < 2 then 0 else 2)))
  | badHeader {blob : Array UInt8} (hp : p.lineInfo = some blob) (hwidth : width = 2 ∨ width = 4)
      (hheader : headerSize ≤ blob.size) (hfits : ¬HeaderFits blob) :
    Refused p width (.badHeader (statedSize blob) (statedStart blob) blob.size)
  | fileSection {blob : Array UInt8} (hp : p.lineInfo = some blob) (hwidth : width = 2 ∨ width = 4)
      (hheader : headerSize ≤ blob.size) (hfits : HeaderFits blob)
      (hfiles : ¬4 ∣ statedStart blob - headerSize) :
    Refused p width (.fileSection (statedStart blob - headerSize))
  /-- The last run has its first byte and not all of its line. -/
  | addressSection {blob : Array UInt8} (hp : p.lineInfo = some blob)
      (hwidth : width = 2 ∨ width = 4) (hheader : headerSize ≤ blob.size) (hfits : HeaderFits blob)
      (hfiles : 4 ∣ statedStart blob - headerSize)
      (haddresses : ¬1 + width ∣ statedSize blob - statedStart blob) :
    Refused p width (.truncated (.unexpectedEnd (statedStart blob +
      (1 + width) * ((statedSize blob - statedStart blob) / (1 + width)) + 1)))

/-- The contents of a line table without file names and addresses. -/
def contents (t : LineTable) (width : Nat) : LineBlob :=
  ⟨width, t.files.map fun s => (s.lineCount, s.fileIndex),
    t.addresses.toList.map fun s => (s.span, s.line)⟩

/-- Every table is regular or fails a first check. -/
theorem regular_or_refused (p : Program) (width : Nat) :
    (∃ blob, p.lineInfo = some blob ∧ Regular blob width) ∨ ∃ e, Refused p width e := by
  cases hp : p.lineInfo with
  | none => exact .inr ⟨_, .missing hp⟩
  | some blob =>
    by_cases hwidth : width = 2 ∨ width = 4
    · by_cases hheader : headerSize ≤ blob.size
      · by_cases hfits : HeaderFits blob
        · by_cases hfiles : 4 ∣ statedStart blob - headerSize
          · by_cases haddresses : 1 + width ∣ statedSize blob - statedStart blob
            · exact .inl ⟨blob, rfl, hwidth, hheader, hfits, hfiles, haddresses⟩
            · exact .inr ⟨_, .addressSection hp hwidth hheader hfits hfiles haddresses⟩
          · exact .inr ⟨_, .fileSection hp hwidth hheader hfits hfiles⟩
        · exact .inr ⟨_, .badHeader hp hwidth hheader hfits⟩
      · exact .inr ⟨_, .header hp hwidth (Nat.lt_of_not_le hheader)⟩
    · exact .inr ⟨_, .width hp hwidth⟩

/-! ### Regular tables -/

section Regular

variable {p : Program} {blob : Array UInt8} {width : Nat}

/-- Whole runs of code bytes in a part of a table. -/
theorem exists_addresses (hwidth : width = 2 ∨ width = 4) (start count : Nat)
    (h : start + (1 + width) * count ≤ blob.size) :
    ∃ runs : List (UInt8 × UInt32), runs.length = count ∧
      (∀ run ∈ runs, run.2.toNat < Bytes.capacity width) ∧
      runs.flatMap (addressBytes width) =
        (blob.toList.drop start).take ((1 + width) * count) := by
  apply exists_flatMap_eq fun bytes => exists_addressBytes hwidth
  rw [List.length_take, List.length_drop, Array.length_toList, Nat.mul_comm count]
  omega

/-- Whole runs of lines between the header and the second part. -/
theorem exists_files (hfits : HeaderFits blob) (hfiles : 4 ∣ statedStart blob - headerSize) :
    ∃ runs : List (UInt16 × UInt16), statedStart blob = 4 + 4 * runs.length ∧
      runs.flatMap fileBytes =
        (blob.toList.drop headerSize).take (statedStart blob - headerSize) := by
  obtain ⟨count, hcount⟩ := hfiles
  have hlength : ((blob.toList.drop headerSize).take (statedStart blob - headerSize)).length =
      count * 4 := by
    rw [List.length_take, List.length_drop, Array.length_toList, hcount, Nat.mul_comm]
    have := hfits.start
    have := hfits.order
    have := hfits.size
    omega
  obtain ⟨runs, hruns, -, hbytes⟩ := exists_flatMap_eq (fun bytes => exists_fileBytes) hlength
  refine ⟨runs, ?_, hbytes⟩
  have := hfits.start
  simp only [headerSize] at hcount this
  omega

/-- A table up to its end, cut after each word of the header and between its parts. -/
theorem take_eq_sections {start stop : Nat} (hstart : headerSize ≤ start) (hstop : start ≤ stop)
    (bytes : Bytes) :
    bytes.take stop = bytes.take 2 ++ (bytes.drop 2).take 2 ++
      ((bytes.drop headerSize).take (start - headerSize) ++
        (bytes.drop start).take (stop - start)) := by
  have hheader : bytes.take (2 + 2) = bytes.take 2 ++ (bytes.drop 2).take 2 := List.take_add
  calc bytes.take stop
    _ = bytes.take (headerSize + ((start - headerSize) + (stop - start))) := by congr 1; omega
    _ = bytes.take (2 + 2) ++ ((bytes.drop headerSize).take (start - headerSize) ++
          ((bytes.drop headerSize).drop (start - headerSize)).take (stop - start)) := by
      rw [List.take_add, List.take_add]
      rfl
    _ = _ := by rw [hheader, List.drop_drop, Nat.add_sub_cancel' hstart]

/-- **A regular table starts with an encoding** of the size that its header states. -/
theorem Regular.exists_encode (h : Regular blob width) :
    ∃ b : LineBlob, b.width = width ∧ b.Encodable ∧
      statedStart blob = 4 + 4 * b.files.length ∧ statedSize blob = b.size ∧
      b.encode = blob.toList.take (statedSize blob) := by
  have horder := h.fits.order
  have hfit := h.fits.size
  obtain ⟨files, hstart, hfiles⟩ := exists_files h.fits h.files
  obtain ⟨count, hcount⟩ := h.addresses
  obtain ⟨addresses, hlength, hlines, haddresses⟩ :=
    exists_addresses h.supported (statedStart blob) count (by omega : _ ≤ blob.size)
  have hsize : statedSize blob = (LineBlob.mk width files addresses).size := by
    rw [LineBlob.size, hlength]
    dsimp only
    omega
  refine ⟨⟨width, files, addresses⟩, rfl, ⟨h.supported, hlines⟩, hstart, hsize, ?_⟩
  have hfirst := (word_of_length (length_firstWord h.header)).1
  have hsecond := (word_of_length (length_secondWord h.header)).1
  have hhalf : (4 + 4 * files.length) / 2 = Bytes.toNatLE ((blob.toList.drop 2).take 2) := by
    rw [← hstart, statedStart, Nat.mul_div_cancel_left _ (by decide)]
  rw [encode, length_body h.supported, ← hsize, hhalf, hsecond, body, hfiles, haddresses, ← hcount,
    take_eq_sections h.fits.start horder, statedSize, hfirst]

/-- A part of whole runs and part of a run is cut off at the line of the last one. -/
theorem decode_of_addressSection (hp : p.lineInfo = some blob) (hwidth : width = 2 ∨ width = 4)
    (hheader : headerSize ≤ blob.size) (hfits : HeaderFits blob)
    (hfiles : 4 ∣ statedStart blob - headerSize)
    (haddresses : ¬1 + width ∣ statedSize blob - statedStart blob) :
    decode p width = .error (.truncated (.unexpectedEnd (statedStart blob +
      (1 + width) * ((statedSize blob - statedStart blob) / (1 + width)) + 1))) := by
  have horder := hfits.order
  have hfit := hfits.size
  have hrest : 0 < (statedSize blob - statedStart blob) % (1 + width) :=
    Nat.pos_of_ne_zero fun hzero => haddresses (Nat.dvd_of_mod_eq_zero hzero)
  have hlt := Nat.mod_lt (statedSize blob - statedStart blob) (show 0 < 1 + width by omega)
  have hdiv := Nat.div_add_mod (statedSize blob - statedStart blob) (1 + width)
  generalize (statedSize blob - statedStart blob) / (1 + width) = count at hdiv ⊢
  generalize (statedSize blob - statedStart blob) % (1 + width) = rest at hrest hlt hdiv
  obtain ⟨files, hstart, hfileBytes⟩ := exists_files hfits hfiles
  obtain ⟨runs, rfl, hlines, hrunBytes⟩ :=
    exists_addresses hwidth (statedStart blob) count (by omega : _ ≤ blob.size)
  have hholds : (Reader.ofBuffer blob headerSize).Holds (files.flatMap fileBytes) := by
    rw [hfileBytes]
    exact Reader.holds_window (by omega) (by omega)
  have hwindow : (Reader.window blob (statedSize blob) (statedStart blob)).Holds
      (runs.flatMap (addressBytes width)) := by
    rw [hrunBytes]
    exact Reader.holds_window (by omega) (by omega)
  have hstop : (Reader.window blob (statedSize blob) (statedStart blob)).stop = statedSize blob :=
    Nat.min_eq_left hfit
  have hposition : (Reader.window blob (statedSize blob) (statedStart blob)).position =
      statedStart blob := rfl
  have hbound : runs.length < statedSize blob - statedStart blob := by
    have := Nat.le_mul_of_pos_left runs.length (show 0 < 1 + width by omega)
    omega
  have hcount : (statedStart blob - headerSize) / 4 = files.length := by
    simp only [headerSize]
    omega
  rw [decode_of_files hp hwidth hheader hfits hfiles, hcount,
    result_of_ok (readFiles_of_holds p hholds),
    result_of_error (readAddresses_part hwidth hlines hwindow (by omega) (by omega) hbound)]
  rfl

/-- A table that fails a check is refused with the error of that check. -/
theorem decode_of_refused {e : LineInfoError} (h : Refused p width e) :
    decode p width = .error e := by
  cases h with
  | missing hp => rw [decode, hp]
  | width hp hwidth =>
    rw [decode, hp]
    exact if_pos hwidth
  | header hp hwidth hheader => exact decode_of_short hp hwidth hheader
  | badHeader hp hwidth hheader hfits => exact decode_of_not_fits hp hwidth hheader hfits
  | fileSection hp hwidth hheader hfits hfiles =>
    exact decode_of_fileSection hp hwidth hheader hfits hfiles
  | addressSection hp hwidth hheader hfits hfiles haddresses =>
    exact decode_of_addressSection hp hwidth hheader hfits hfiles haddresses

/-- A regular table is read as the runs that it starts with. -/
theorem decode_of_regular (hp : p.lineInfo = some blob) (h : Regular blob width) :
    ∃ b : LineBlob, b.width = width ∧ b.Encodable ∧ b.size < 65536 ∧
      statedStart blob = 4 + 4 * b.files.length ∧ statedSize blob = b.size ∧
      b.encode = blob.toList.take (statedSize blob) ∧ decode p width = .ok (b.table p) := by
  obtain ⟨b, rfl, hb, hstart, hsize, hencode⟩ := h.exists_encode
  have hlt : b.size < 65536 := hsize ▸ statedSize_lt h.header
  have hstarts : b.encode <+: blob.toList := hencode ▸ List.take_prefix _ _
  exact ⟨b, rfl, hb, hlt, hstart, hsize, hencode, decode_of_starts hb hlt hstarts hp⟩

/-- A table is refused exactly with the error of the first check that it fails. -/
theorem decode_eq_error_iff {e : LineInfoError} :
    decode p width = .error e ↔ Refused p width e := by
  refine ⟨fun h => ?_, decode_of_refused⟩
  rcases regular_or_refused p width with ⟨blob, hp, hregular⟩ | ⟨e', hrefused⟩
  · obtain ⟨b, -, -, -, -, -, -, hok⟩ := decode_of_regular hp hregular
    rw [hok] at h
    cases h
  · have he := decode_of_refused hrefused
    rw [h] at he
    cases he
    exact hrefused

/-- A table that is accepted is there and regular. -/
theorem exists_regular_of_decode {t : LineTable} (h : decode p width = .ok t) :
    ∃ blob, p.lineInfo = some blob ∧ Regular blob width := by
  rcases regular_or_refused p width with hregular | ⟨e, hrefused⟩
  · exact hregular
  · rw [decode_of_refused hrefused] at h
    cases h

theorem regular_of_decode {t : LineTable} (hp : p.lineInfo = some blob)
    (h : decode p width = .ok t) : Regular blob width := by
  obtain ⟨blob', hp', hregular⟩ := exists_regular_of_decode h
  rw [hp] at hp'
  cases hp'
  exact hregular

end Regular

/-! ### The bytes that matter -/

section Local

variable {p : Program} {blob blob' : Array UInt8} {width : Nat}

theorem take_of_forall {n : Nat} (h : ∀ i < n, blob'[i]? = blob[i]?) :
    blob'.toList.take n = blob.toList.take n := by
  apply List.ext_getElem?
  intro i
  by_cases hi : i < n
  · rw [List.getElem?_take_of_lt hi, List.getElem?_take_of_lt hi, Array.getElem?_toList,
      Array.getElem?_toList, h i hi]
  · rw [List.getElem?_take_eq_none (Nat.le_of_not_lt hi),
      List.getElem?_take_eq_none (Nat.le_of_not_lt hi)]

theorem min_size_of_take {n : Nat} (h : blob'.toList.take n = blob.toList.take n) :
    min n blob'.size = min n blob.size := by
  have hlength := congrArg List.length h
  rwa [List.length_take, List.length_take, Array.length_toList, Array.length_toList] at hlength

section Same

variable (hhead : blob'.toList.take headerSize = blob.toList.take headerSize)

include hhead

theorem statedSize_congr : statedSize blob' = statedSize blob := by
  have htake := congrArg (List.take 2) hhead
  rw [List.take_take, List.take_take] at htake
  exact congrArg Bytes.toNatLE htake

theorem statedStart_congr : statedStart blob' = statedStart blob := by
  have hdrop := congrArg (List.drop 2) hhead
  rw [List.drop_take, List.drop_take] at hdrop
  exact congrArg (2 * Bytes.toNatLE ·) hdrop

variable (hbody : blob'.toList.take (statedSize blob) = blob.toList.take (statedSize blob))

include hbody

theorem HeaderFits.congr (h : HeaderFits blob) : HeaderFits blob' := by
  have hsize := min_size_of_take hbody
  have hfit := h.size
  have hstated := statedSize_congr hhead
  refine ⟨?_, ?_, by omega⟩
  · rw [statedStart_congr hhead]
    exact h.start
  · rw [statedStart_congr hhead, hstated]
    exact h.order

/-- **Only the bytes of a table count**: its header, and the bytes that the header states. The size
of what the table is stored in is looked at only if the header does not fit. -/
theorem decode_congr (hp : p.lineInfo = some blob)
    (hsize : blob'.size = blob.size ∨ HeaderFits blob) :
    decode { p with lineInfo := some blob' } width = decode p width := by
  cases hdecode : decode p width with
  | ok t =>
    have hregular := regular_of_decode hp hdecode
    obtain ⟨b, rfl, hb, hlt, -, -, hencode, hok⟩ := decode_of_regular hp hregular
    have hstarts : b.encode <+: blob'.toList := by
      rw [hencode, ← hbody]
      exact List.take_prefix _ _
    rw [hdecode] at hok
    cases hok
    exact decode_of_starts hb hlt hstarts rfl
  | error e =>
    have hstated := statedSize_congr hhead
    have hstart := statedStart_congr hhead
    have hmin := min_size_of_take hhead
    apply decode_of_refused
    cases decode_eq_error_iff.mp hdecode with
    | missing hnone =>
      rw [hp] at hnone
      cases hnone
    | width _ hwidth => exact .width rfl hwidth
    | header hsome hwidth hheader =>
      obtain rfl := Option.some.inj (hp.symm.trans hsome)
      have hsize : blob'.size = blob.size := by omega
      rw [← hsize]
      exact .header rfl hwidth (hsize ▸ hheader)
    | badHeader hsome hwidth hheader hfits =>
      obtain rfl := Option.some.inj (hp.symm.trans hsome)
      have hsize : blob'.size = blob.size := hsize.resolve_right hfits
      have hfits' : ¬HeaderFits blob' := fun h =>
        hfits (h.congr hhead.symm (hstated.symm ▸ hbody.symm))
      rw [← hstated, ← hstart, ← hsize]
      exact .badHeader rfl hwidth (hsize ▸ hheader) hfits'
    | fileSection hsome hwidth hheader hfits hfiles =>
      obtain rfl := Option.some.inj (hp.symm.trans hsome)
      rw [← hstart] at hfiles ⊢
      exact .fileSection rfl hwidth (by omega) (hfits.congr hhead hbody) hfiles
    | addressSection hsome hwidth hheader hfits hfiles haddresses =>
      obtain rfl := Option.some.inj (hp.symm.trans hsome)
      rw [← hstart] at hfiles haddresses ⊢
      rw [← hstated] at haddresses ⊢
      exact .addressSection rfl hwidth (by omega) (hfits.congr hhead hbody) hfiles haddresses

end Same

end Local

/-! ### What is accepted, and what is read -/

/-- Decoding adds file names and addresses to the contents of a table, and nothing else. -/
theorem contents_table (b : LineBlob) (p : Program) : (b.table p).contents b.width = b := by
  have hfiles : (b.files.map (fileSegment p)).map (fun s => (s.lineCount, s.fileIndex)) =
      b.files := by
    rw [List.map_map]
    exact List.map_id _
  simp only [contents, table, hfiles, map_addressSegments]

/-- **A table is accepted exactly when it is regular**, and otherwise the first check that fails
gives the error. No byte behind the stated size has an effect. -/
theorem decode_acceptance (p : Program) (width : Nat) :
    ((∃ t, decode p width = .ok t) ↔ ∃ blob, p.lineInfo = some blob ∧ Regular blob width) ∧
    (∀ e, decode p width = .error e ↔ Refused p width e) ∧
    (∀ blob t, p.lineInfo = some blob → decode p width = .ok t →
      t.files.length = (statedStart blob - headerSize) / 4 ∧
      t.addresses.size = (statedSize blob - statedStart blob) / (1 + width) ∧
      (t.contents width).encode = blob.toList.take (statedSize blob)) ∧
    (∀ blob blob', p.lineInfo = some blob →
      (∀ i, i < headerSize ∨ i < statedSize blob → blob'[i]? = blob[i]?) →
      blob'.size = blob.size ∨ HeaderFits blob →
      decode { p with lineInfo := some blob' } width = decode p width) := by
  refine ⟨⟨?_, ?_⟩, fun e => decode_eq_error_iff, ?_, ?_⟩
  · rintro ⟨t, ht⟩
    exact exists_regular_of_decode ht
  · rintro ⟨blob, hp, hregular⟩
    obtain ⟨b, -, -, -, -, -, -, hok⟩ := decode_of_regular hp hregular
    exact ⟨_, hok⟩
  · intro blob t hp ht
    obtain ⟨b, rfl, hb, -, hstart, hsize, hencode, hok⟩ :=
      decode_of_regular hp (regular_of_decode hp ht)
    rw [ht] at hok
    cases hok
    refine ⟨?_, ?_, ?_⟩
    · rw [hstart, table, List.length_map, headerSize]
      omega
    · rw [hstart, hsize, table, LineBlob.size, Nat.add_sub_cancel_left,
        Nat.mul_div_cancel_left _ (by omega)]
      simp
    · rw [contents_table, hencode]
  · intro blob blob' hp hsame hsize
    exact decode_congr (take_of_forall fun i hi => hsame i (.inl hi))
      (take_of_forall fun i hi => hsame i (.inr hi)) hp hsize

/-- A program with a table of one run of code bytes and a byte behind it. -/
def trailing : Program := { lineInfo := some #[7, 0, 2, 0, 3, 9, 0, 255] }

theorem decode_trailing :
    ∃ t, decode trailing 2 = .ok t ∧ t.files.length = 0 ∧ t.addresses.size = 1 ∧
      (t.contents 2).encode = [7, 0, 2, 0, 3, 9, 0] ∧
      decode { trailing with lineInfo := some #[7, 0, 2, 0, 3, 9, 0] } 2 = .ok t := by
  have hfits : HeaderFits #[7, 0, 2, 0, 3, 9, 0, 255] := ⟨by decide, by decide, by decide⟩
  obtain ⟨haccepted, -, hread, hlocal⟩ := decode_acceptance trailing 2
  obtain ⟨t, ht⟩ := haccepted.mpr ⟨_, rfl, by decide, by decide, hfits, by decide, by decide⟩
  obtain ⟨hfiles, haddresses, hencode⟩ := hread _ t rfl ht
  have hsame : ∀ i < 7, (#[7, 0, 2, 0, 3, 9, 0] : Array UInt8)[i]? =
      (#[7, 0, 2, 0, 3, 9, 0, 255] : Array UInt8)[i]? := by decide
  refine ⟨t, ht, hfiles, haddresses, hencode, ?_⟩
  rw [← ht]
  refine hlocal _ _ rfl (fun i hi => hsame i ?_) (.inr hfits)
  rcases hi with hi | hi
  · exact Nat.lt_of_lt_of_le hi (by decide)
  · exact Nat.lt_of_lt_of_le hi (by decide)

end LineTable
end LpcInspect
