import LpcInspect.Proofs.LineTable.Acceptance

/-!
# Line tables that are written and read

A table that fits in 65535 bytes is read as it was written. The header of a larger one wraps around.
Most of these tables are refused, since the parts that the header then states are no whole numbers
of runs or lie in the wrong order. `LineTable.decode_encode_lossless` says exactly when a larger
table can pass for a smaller one: both words of the header go round whole numbers of times only from
32768 runs of lines or 65536 runs of code bytes on.
-/

namespace LpcInspect
namespace LineTable

open LineBlob

/-- The name under which a file is shown: the string that it counts to from one, or a
placeholder. -/
def shownName (strings : List Bytes) (file : Nat) : Bytes :=
  if h : 0 < file ∧ file ≤ strings.length then strings[file - 1]
  else Utf8.encode ("<out of range " ++ toString file ++ ">")

theorem fileName_eq_shownName (p : Program) (file : UInt16) :
    fileName p file = shownName p.strings file.toNat := by
  unfold fileName
  generalize file.toNat = n
  cases n with
  | zero => rfl
  | succ i =>
    by_cases hi : i + 1 ≤ p.strings.length
    · simp [shownName, Program.string?, hi, List.getElem?_eq_getElem (Nat.lt_of_succ_le hi)]
    · have hnone : p.strings.length ≤ i := Nat.le_of_lt_succ (Nat.lt_of_not_le hi)
      simp [shownName, Program.string?, hi, List.getElem?_eq_none hnone]

/-- A size that wraps leaves no whole number of runs: the size of a run is prime to 65536, so it
would divide the number of turns, and 65536 the number of runs that are lost. -/
theorem count_of_mod {n a a' width : Nat} (hwidth : width = 2 ∨ width = 4) (ha : a < 65536)
    (h : n + (1 + width) * a' = (n + (1 + width) * a) % 65536) : a' = a := by
  have hcoprime : Nat.Coprime (1 + width) 65536 := by rcases hwidth with rfl | rfl <;> decide
  have hturns := Nat.div_add_mod (n + (1 + width) * a) 65536
  rw [← h] at hturns
  generalize (n + (1 + width) * a) / 65536 = turns at hturns
  have hruns : (1 + width) * a = 65536 * turns + (1 + width) * a' := by omega
  have hdvd : 1 + width ∣ 65536 * turns :=
    (Nat.dvd_add_left (Nat.dvd_mul_right _ a')).mp (hruns ▸ Nat.dvd_mul_right _ a)
  obtain ⟨k, rfl⟩ := hcoprime.dvd_of_dvd_mul_left hdvd
  have hlost : (1 + width) * a = (1 + width) * (65536 * k + a') := by
    rw [hruns, Nat.mul_add, Nat.mul_left_comm]
  have := Nat.eq_of_mul_eq_mul_left (by omega) hlost
  omega

section Written

variable {p : Program} {b : LineBlob} (hp : p.lineInfo = some b.encode.toArray) (hb : b.Encodable)

include hp hb

/-- A table that fits in what the header can state is read as it was written. -/
theorem decode_encode_of_lt (hsize : b.size < 65536) : decode p b.width = .ok (b.table p) :=
  decode_of_starts hb hsize (List.prefix_refl _) hp

/-- What is read of a written table has the numbers of runs that the wrapped header states. -/
theorem exists_wrapped {t : LineTable} (h : decode p b.width = .ok t) :
    ∃ b' : LineBlob, b'.width = b.width ∧ t = b'.table p ∧ b'.size = b.size % 65536 ∧
      2 + 2 * b'.files.length = (2 + 2 * b.files.length) % 65536 := by
  obtain ⟨b', hwidth, -, -, hstart, hsize, -, hok⟩ := decode_of_regular hp (regular_of_decode hp h)
  obtain ⟨hsize', hstart'⟩ :=
    stated_of_starts hb.width (show b.encode <+: b.encode.toArray.toList from List.prefix_refl _)
  rw [h] at hok
  exact ⟨b', hwidth, Except.ok.inj hok, by omega, by omega⟩

end Written

/-- **Written tables are read back** if they have at most 65535 bytes, each run of code bytes at the
address where the runs before it end. -/
theorem decode_encode_segments (p : Program) (b : LineBlob)
    (hp : p.lineInfo = some b.encode.toArray) (hwidth : b.width = 2 ∨ b.width = 4)
    (hlines : ∀ run ∈ b.addresses, run.2.toNat < Bytes.capacity b.width)
    (hsize : 4 + 4 * b.files.length + (1 + b.width) * b.addresses.length ≤ 65535) :
    ∃ t, decode p b.width = .ok t ∧
      t.files = b.files.map (fun run =>
        (⟨run.1, run.2, shownName p.strings run.2.toNat⟩ : FileSegment)) ∧
      ∀ k : Nat, t.addresses[k]? = b.addresses[k]?.map fun run =>
        (⟨spanTotal (b.addresses.take k), run.1, run.2⟩ : AddressSegment) := by
  refine ⟨b.table p, decode_encode_of_lt hp ⟨hwidth, hlines⟩ (Nat.lt_succ_of_le hsize), ?_, ?_⟩
  · exact List.map_congr_left fun run _ =>
      congrArg (FileSegment.mk run.1 run.2) (fileName_eq_shownName p run.2)
  · intro k
    rw [table, List.getElem?_toArray, getElem?_addressSegments]
    simp only [Nat.zero_add]

/-- A table that takes all of the 65535 bytes. -/
def fullTable : LineBlob := ⟨2, [(7, 1), (7, 3)], List.replicate 21841 (1, 65535)⟩

theorem decode_fullTable :
    4 + 4 * fullTable.files.length + (1 + fullTable.width) * fullTable.addresses.length = 65535 ∧
      ∃ t, decode { strings := [[114, 46, 99]], lineInfo := some fullTable.encode.toArray } 2 =
          .ok t ∧
        t.files = [⟨7, 1, [114, 46, 99]⟩, ⟨7, 3, Utf8.encode "<out of range 3>"⟩] ∧
        ∀ k : Nat, t.addresses[k]? = fullTable.addresses[k]?.map fun run =>
          ⟨spanTotal (fullTable.addresses.take k), run.1, run.2⟩ := by
  have hcount : fullTable.addresses.length = 21841 := List.length_replicate
  have hsize : 4 + 4 * fullTable.files.length +
      (1 + fullTable.width) * fullTable.addresses.length = 65535 := by
    rw [hcount]
    rfl
  have hlines : ∀ run ∈ fullTable.addresses, run.2.toNat < Bytes.capacity fullTable.width := by
    intro run hrun
    obtain rfl := List.eq_of_mem_replicate hrun
    decide
  obtain ⟨t, hdecode, hfiles, haddresses⟩ := decode_encode_segments
    { strings := [[114, 46, 99]], lineInfo := some fullTable.encode.toArray } fullTable rfl
    (.inl rfl) hlines (Nat.le_of_eq hsize)
  refine ⟨hsize, t, hdecode, ?_, haddresses⟩
  rw [hfiles]
  rfl

/-- **Larger tables are refused, or read back too**, with fewer than 32768 runs of lines and 65536
runs of code bytes. From there on, a table that is accepted has lost runs. -/
theorem decode_encode_lossless (p : Program) (b : LineBlob)
    (hp : p.lineInfo = some b.encode.toArray) (hwidth : b.width = 2 ∨ b.width = 4)
    (hlines : ∀ run ∈ b.addresses, run.2.toNat < Bytes.capacity b.width) :
    (b.files.length < 32768 ∧ b.addresses.length < 65536 →
      (∃ e, decode p b.width = .error e) ∨ decode p b.width = .ok (b.table p)) ∧
    (¬(b.files.length < 32768 ∧ b.addresses.length < 65536) →
      ∀ t, decode p b.width = .ok t → t.contents b.width ≠ b) := by
  have hb : b.Encodable := ⟨hwidth, hlines⟩
  have hsize : b.size = 4 + 4 * b.files.length + (1 + b.width) * b.addresses.length := rfl
  constructor
  · intro hcount
    cases h : decode p b.width with
    | error e => exact .inl ⟨e, rfl⟩
    | ok t =>
      obtain ⟨b', hwidth', -, hsize', hfiles⟩ := exists_wrapped hp hb h
      have hfiles : b'.files.length = b.files.length := by omega
      have haddresses : b'.addresses.length = b.addresses.length := by
        rw [LineBlob.size, hwidth', hfiles] at hsize'
        exact count_of_mod hwidth hcount.2 hsize'
      have hlt : b.size < 65536 := by
        rw [LineBlob.size, hwidth', hfiles, haddresses, ← hsize] at hsize'
        omega
      rw [← h, decode_encode_of_lt hp hb hlt]
      exact .inr rfl
  · intro hcount t h hcontents
    obtain ⟨b', hwidth', rfl, hsize', -⟩ := exists_wrapped hp hb h
    rw [← hwidth', contents_table] at hcontents
    subst hcontents
    have hlt : b'.size < 65536 := by omega
    rcases hwidth with hw | hw <;> rw [hw] at hsize <;> omega

/-- A table with too many runs of code bytes for its header. -/
def wrappedTable : LineBlob := ⟨2, [], List.replicate 21845 (1, 1)⟩

theorem decode_wrappedTable :
    wrappedTable.size = 65539 ∧
      ((∃ e, decode { lineInfo := some wrappedTable.encode.toArray } 2 = .error e) ∨
        decode { lineInfo := some wrappedTable.encode.toArray } 2 =
          .ok (wrappedTable.table { lineInfo := some wrappedTable.encode.toArray })) := by
  have hlines : ∀ run ∈ wrappedTable.addresses,
      run.2.toNat < Bytes.capacity wrappedTable.width := by
    intro run hrun
    obtain rfl := List.eq_of_mem_replicate hrun
    decide
  have hcount : wrappedTable.addresses.length = 21845 := List.length_replicate
  constructor
  · rw [LineBlob.size, hcount]
    rfl
  · refine (decode_encode_lossless _ wrappedTable rfl (.inl rfl) hlines).1 ⟨by decide, ?_⟩
    rw [hcount]
    decide

/-- A table with so many runs of lines that both words of its header wrap. -/
def emptiedTable : LineBlob := ⟨2, List.replicate 32768 (1, 1), []⟩

/-- A program with that table. -/
def emptied : Program :=
  { strings := [[114, 46, 99]], lineInfo := some emptiedTable.encode.toArray }

/-- All 32768 runs are lost without an error. -/
theorem decode_emptied :
    emptiedTable.files.length = 32768 ∧ decode emptied 2 = .ok ⟨[], #[]⟩ := by
  have hcount : emptiedTable.files.length = 32768 := List.length_replicate
  have hbody : 4 + emptiedTable.body.length = 131076 := by
    rw [length_body (.inl rfl), LineBlob.size, hcount]
    rfl
  have hheader : (Scalar.uint16 (UInt16.ofNat 131076)).encode ++
      (Scalar.uint16 (UInt16.ofNat ((4 + 4 * 32768) / 2))).encode = [4, 0, 2, 0] := by decide
  have hempty : (LineBlob.mk 2 [] []).encode = [4, 0, 2, 0] := by decide
  have hstarts : (LineBlob.mk 2 [] []).encode <+: emptiedTable.encode.toArray.toList := by
    rw [hempty, List.toList_toArray, encode, hbody, hcount, hheader]
    exact List.prefix_append _ _
  have hb : (LineBlob.mk 2 [] []).Encodable := ⟨.inl rfl, by simp⟩
  have hsize : (LineBlob.mk 2 [] []).size < 65536 := by decide
  have hp : emptied.lineInfo = some emptiedTable.encode.toArray := rfl
  have hread := decode_of_starts hb hsize hstarts hp
  exact ⟨hcount, hread⟩

end LineTable
end LpcInspect
