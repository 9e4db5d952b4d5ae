import LpcInspect.Proofs.LineTable.Acceptance

/-!
# The lines of files

The runs of lines of a table say for each absolute line which file it comes from: `owners` lists the
run of every line, each run as often as it has lines. A line of a file is then a count, of the
absolute lines up to it that come from the same file, `fileLine?_eq_map_owner?`. So the lines of a
file are numbered without a gap through all its runs.

The last part does the same walk in numbers of four bytes, where a sum that is too large is an
error. A table that can be decoded has too few runs for that, `checkedFileLine?_of_decode`.
-/

namespace LpcInspect
namespace LineTable

open LineBlob

/-! ### The run of each absolute line -/

/-- The number of lines of some runs. -/
def lineTotal : List FileSegment → Nat
  | [] => 0
  | segment :: rest => segment.lineCount.toNat + lineTotal rest

/-- The run of each absolute line, in the order of the lines. -/
def owners (files : List FileSegment) : List FileSegment :=
  files.flatMap fun segment => List.replicate segment.lineCount.toNat segment

/-- The run of an absolute line. Lines are counted from one. -/
def owner? (t : LineTable) : Nat → Option FileSegment
  | 0 => none
  | line + 1 => (owners t.files)[line]?

/-- Whether an absolute line comes from a file. -/
def isFrom (t : LineTable) (fileIndex : UInt16) (line : Nat) : Bool :=
  (t.owner? line).any (·.fileIndex == fileIndex)

theorem owners_cons (segment : FileSegment) (rest : List FileSegment) :
    owners (segment :: rest) = List.replicate segment.lineCount.toNat segment ++ owners rest :=
  List.flatMap_cons

theorem owners_append (files more : List FileSegment) :
    owners (files ++ more) = owners files ++ owners more := List.flatMap_append

@[simp] theorem length_owners (files : List FileSegment) :
    (owners files).length = lineTotal files := by
  induction files with
  | nil => rfl
  | cons segment rest ih => simp [owners_cons, lineTotal, ih]

/-- A file has as many absolute lines as there are in its runs. -/
theorem countP_owners (fileIndex : UInt16) (files : List FileSegment) :
    (owners files).countP (·.fileIndex == fileIndex) = linesOf fileIndex files := by
  induction files with
  | nil => rfl
  | cons segment rest ih =>
    rw [owners_cons, List.countP_append, List.countP_replicate, ih, linesOf]
    simp

theorem lineTotal_append (files more : List FileSegment) :
    lineTotal (files ++ more) = lineTotal files + lineTotal more := by
  rw [← length_owners, owners_append, List.length_append, length_owners, length_owners]

theorem linesOf_append (fileIndex : UInt16) (files more : List FileSegment) :
    linesOf fileIndex (files ++ more) = linesOf fileIndex files + linesOf fileIndex more := by
  rw [← countP_owners, owners_append, List.countP_append, countP_owners, countP_owners]

theorem linesOf_le_lineTotal (fileIndex : UInt16) (files : List FileSegment) :
    linesOf fileIndex files ≤ lineTotal files := by
  rw [← countP_owners, ← length_owners]
  exact List.countP_le_length

@[simp] theorem lineTotal_reverse (files : List FileSegment) :
    lineTotal files.reverse = lineTotal files := by
  induction files with
  | nil => rfl
  | cons segment rest ih =>
    rw [List.reverse_cons, lineTotal_append, ih]
    simp [lineTotal, Nat.add_comm]

@[simp] theorem linesOf_reverse (fileIndex : UInt16) (files : List FileSegment) :
    linesOf fileIndex files.reverse = linesOf fileIndex files := by
  induction files with
  | nil => rfl
  | cons segment rest ih =>
    rw [List.reverse_cons, linesOf_append, ih]
    simp [linesOf, Nat.add_comm]

theorem owner?_eq_none_iff {t : LineTable} {line : Nat} :
    t.owner? line = none ↔ line = 0 ∨ lineTotal t.files < line := by
  cases line with
  | zero => simp [owner?]
  | succ line =>
    rw [owner?, List.getElem?_eq_none_iff, length_owners]
    omega

/-- The lines of a run follow those of all the runs before it. -/
theorem getElem?_owners_iff {files : List FileSegment} {i : Nat} {segment : FileSegment} :
    (owners files)[i]? = some segment ↔ ∃ before rest, files = before ++ segment :: rest ∧
      lineTotal before ≤ i ∧ i < lineTotal before + segment.lineCount.toNat := by
  constructor
  · intro h
    induction files generalizing i with
    | nil => cases h
    | cons first rest ih =>
      rw [owners_cons] at h
      by_cases hi : i < first.lineCount.toNat
      · rw [List.getElem?_append_left (by simpa using hi), List.getElem?_replicate,
          if_pos hi] at h
        obtain rfl := Option.some.inj h
        exact ⟨[], rest, rfl, Nat.zero_le i, by rwa [lineTotal, Nat.zero_add]⟩
      · rw [List.getElem?_append_right (by simpa using hi), List.length_replicate] at h
        obtain ⟨before, after, rfl, hle, hlt⟩ := ih h
        exact ⟨first :: before, after, rfl, by rw [lineTotal]; omega, by rw [lineTotal]; omega⟩
  · rintro ⟨before, rest, rfl, hle, hlt⟩
    rw [owners_append, owners_cons, List.getElem?_append_right (by simpa using hle),
      List.getElem?_append_left (by simp; omega), List.getElem?_replicate,
      if_pos (by rw [length_owners]; omega)]

theorem owner?_eq_some_iff {t : LineTable} {line : Nat} {segment : FileSegment} :
    t.owner? line = some segment ↔ ∃ before rest, t.files = before ++ segment :: rest ∧
      lineTotal before < line ∧ line ≤ lineTotal before + segment.lineCount.toNat := by
  cases line with
  | zero => simp [owner?]
  | succ line =>
    rw [owner?, getElem?_owners_iff]
    simp only [Nat.lt_succ_iff, Nat.succ_le_iff]

/-! ### Lines of files are counts -/

/-- The walk over the runs finds no line before the one it starts at. -/
theorem fileLineIn?_of_lt {absolute first : Nat} (h : absolute < first)
    (before rest : List FileSegment) : fileLineIn? absolute before first rest = none := by
  induction rest generalizing before first with
  | nil => rfl
  | cons segment rest ih =>
    rw [fileLineIn?, if_neg (by omega)]
    exact ih (by omega) _

/-- **The walk over the runs** finds the run of a line, and counts the lines of its file in all
runs up to the line. -/
theorem fileLineIn?_eq {absolute : Nat} (before rest : List FileSegment)
    (h : lineTotal before < absolute) :
    fileLineIn? absolute before (lineTotal before + 1) rest =
      (owners rest)[absolute - lineTotal before - 1]?.map fun segment =>
        ⟨segment.fileName, ((owners (before.reverse ++ rest)).take absolute).countP
          (·.fileIndex == segment.fileIndex)⟩ := by
  induction rest generalizing before with
  | nil => rfl
  | cons segment rest ih =>
    rw [fileLineIn?, owners_cons]
    by_cases hin : absolute < lineTotal before + 1 + segment.lineCount.toNat
    · -- All lines of the runs before, then the first lines of this one.
      have htake : (owners (before.reverse ++ segment :: rest)).take absolute =
          owners before.reverse ++ List.replicate (absolute - lineTotal before) segment := by
        rw [owners_append, owners_cons, List.take_append, List.take_append, length_owners,
          lineTotal_reverse, List.take_of_length_le (by simp; omega), List.take_replicate,
          List.length_replicate, Nat.min_eq_left (by omega),
          Nat.sub_eq_zero_of_le (by omega : _ ≤ segment.lineCount.toNat), List.take_zero,
          List.append_nil]
      rw [if_pos ⟨h, hin⟩, htake, List.getElem?_append_left (by simp; omega),
        List.getElem?_replicate, if_pos (by omega), Option.map_some, List.countP_append,
        countP_owners, linesOf_reverse, List.countP_replicate, if_pos (beq_self_eq_true _)]
      congr 2
      omega
    · have hlater := ih (segment :: before) (by rw [lineTotal]; omega)
      have hfirst : lineTotal before + 1 + segment.lineCount.toNat =
          lineTotal (segment :: before) + 1 := by rw [lineTotal]; omega
      have hindex : absolute - lineTotal before - 1 - segment.lineCount.toNat =
          absolute - lineTotal (segment :: before) - 1 := by rw [lineTotal]; omega
      rw [List.reverse_cons, List.append_assoc, List.singleton_append] at hlater
      rw [if_neg (by omega), List.getElem?_append_right (by simp; omega), List.length_replicate,
        hfirst, hindex, hlater]

theorem countP_isFrom (t : LineTable) (fileIndex : UInt16) (line : Nat) :
    (List.range' 1 line).countP (t.isFrom fileIndex) =
      ((owners t.files).take line).countP (·.fileIndex == fileIndex) := by
  induction line with
  | zero => rfl
  | succ line ih =>
    rw [List.range'_1_concat, List.countP_append, ih, List.take_add_one, List.countP_append,
      Nat.add_comm 1 line]
    cases h : (owners t.files)[line]? <;> simp [isFrom, owner?, h]

theorem fileLine?_eq_map_owner? (t : LineTable) (line : Nat) :
    t.fileLine? line = (t.owner? line).map fun segment =>
      ⟨segment.fileName, (List.range' 1 line).countP (t.isFrom segment.fileIndex)⟩ := by
  simp only [countP_isFrom]
  cases line with
  | zero => exact fileLineIn?_of_lt Nat.zero_lt_one [] t.files
  | succ line => exact fileLineIn?_eq [] t.files (Nat.succ_pos line)

/-- Numbers with a property, each replaced by how many there are up to it, are counted through. -/
theorem map_countP_filter (p : Nat → Bool) (n : Nat) :
    ((List.range' 1 n).filter p).map (fun k => (List.range' 1 k).countP p) =
      List.range' 1 ((List.range' 1 n).countP p) := by
  induction n with
  | zero => rfl
  | succ n ih =>
    have hrange : List.range' 1 (n + 1) = List.range' 1 n ++ [n + 1] := by
      rw [List.range'_1_concat, Nat.add_comm 1 n]
    rw [hrange, List.filter_append, List.map_append, ih, List.countP_append]
    cases hp : p (n + 1) with
    | false => simp [hp]
    | true => simp [hp, hrange, List.range'_1_concat, Nat.add_comm 1]

/-- The absolute lines of a file, in order, are its lines from the first to the last. -/
theorem map_fileLine?_isFrom (t : LineTable) (fileIndex : UInt16) :
    ((List.range' 1 (lineTotal t.files)).filter (t.isFrom fileIndex)).map
        (fun line => (t.fileLine? line).map (·.line)) =
      (List.range' 1 (linesOf fileIndex t.files)).map some := by
  have htotal : (List.range' 1 (lineTotal t.files)).countP (t.isFrom fileIndex) =
      linesOf fileIndex t.files := by
    rw [countP_isFrom, List.take_of_length_le (Nat.le_of_eq (length_owners _)), countP_owners]
  rw [← htotal, ← map_countP_filter, List.map_map]
  apply List.map_congr_left
  intro line hline
  have hfrom : t.isFrom fileIndex line = true := (List.mem_filter.mp hline).2
  rw [isFrom] at hfrom
  cases howner : t.owner? line with
  | none => simp [howner] at hfrom
  | some segment =>
    have hfile : segment.fileIndex = fileIndex := by simpa [howner] using hfrom
    rw [fileLine?_eq_map_owner?, howner, ← hfile]
    rfl

/-! ### Numbers of four bytes -/

/-- The sum of two numbers of four bytes, if it has four bytes too. -/
def checkedAdd (a b : UInt32) : Option UInt32 :=
  if a.toNat + b.toNat < UInt32.size then some (a + b) else none

/-- `linesOf` in numbers of four bytes: the numbers of lines are added to a sum one by one. -/
def checkedLinesOf (fileIndex : UInt16) (sum : UInt32) : List FileSegment → Option UInt32
  | [] => some sum
  | segment :: rest =>
    if segment.fileIndex = fileIndex then do
      let sum ← checkedAdd sum segment.lineCount.toUInt32
      checkedLinesOf fileIndex sum rest
    else checkedLinesOf fileIndex sum rest

/-- `fileLineIn?` in numbers of four bytes, with the runs before the first line in order. -/
def checkedFileLineIn? (absolute : UInt32) (before : List FileSegment) (first : UInt32) :
    List FileSegment → Option (Option Location)
  | [] => some none
  | segment :: rest => do
    let next ← checkedAdd first segment.lineCount.toUInt32
    if first ≤ absolute ∧ absolute < next then
      let earlier ← checkedLinesOf segment.fileIndex 0 before
      let position ← checkedAdd (absolute - first) 1
      let line ← checkedAdd position earlier
      return some ⟨segment.fileName, line.toNat⟩
    else checkedFileLineIn? absolute (before ++ [segment]) next rest

/-- `fileLine?` in numbers of four bytes. It is `none` if one of the sums is too large. -/
def checkedFileLine? (t : LineTable) (absolute : UInt32) : Option (Option Location) :=
  checkedFileLineIn? absolute [] 1 t.files

theorem checkedAdd_of_lt {a b : UInt32} {n : Nat} (hb : b.toNat = n)
    (h : a.toNat + n < UInt32.size) : ∃ c, checkedAdd a b = some c ∧ c.toNat = a.toNat + n := by
  subst hb
  refine ⟨a + b, if_pos h, ?_⟩
  rw [UInt32.toNat_add, Nat.mod_eq_of_lt h]

theorem checkedLinesOf_of_lt (fileIndex : UInt16) (sum : UInt32) (files : List FileSegment)
    (h : sum.toNat + linesOf fileIndex files < UInt32.size) :
    ∃ result, checkedLinesOf fileIndex sum files = some result ∧
      result.toNat = sum.toNat + linesOf fileIndex files := by
  induction files generalizing sum with
  | nil => exact ⟨sum, rfl, rfl⟩
  | cons segment rest ih =>
    rw [linesOf] at h ⊢
    rw [checkedLinesOf]
    by_cases hfile : segment.fileIndex = fileIndex
    · simp only [if_pos hfile] at h ⊢
      obtain ⟨next, hnext, hvalue⟩ := checkedAdd_of_lt (a := sum)
        (UInt16.toNat_toUInt32 segment.lineCount) (by omega)
      obtain ⟨result, hresult, hsum⟩ := ih next (by omega)
      exact ⟨result, by rw [hnext]; exact hresult, by omega⟩
    · simp only [if_neg hfile, Nat.zero_add] at h ⊢
      exact ih sum h

/-- No sum of the walk is larger than the number of all lines and one. -/
theorem checkedFileLineIn?_eq (absolute : UInt32) {first : UInt32} (before rest : List FileSegment)
    (hfirst : first.toNat = lineTotal before + 1)
    (h : lineTotal (before ++ rest) + 1 < UInt32.size) :
    checkedFileLineIn? absolute before first rest =
      some (fileLineIn? absolute.toNat before.reverse first.toNat rest) := by
  induction rest generalizing before first with
  | nil => rfl
  | cons segment rest ih =>
    have htotal : lineTotal (before ++ segment :: rest) =
        lineTotal before + segment.lineCount.toNat + lineTotal rest := by
      rw [lineTotal_append, lineTotal, Nat.add_assoc]
    obtain ⟨next, hnext, hvalue⟩ := checkedAdd_of_lt (a := first)
      (UInt16.toNat_toUInt32 segment.lineCount) (by omega)
    rw [checkedFileLineIn?, hnext, Option.bind_eq_bind, Option.bind_some, fileLineIn?, ← hvalue]
    simp only [UInt32.le_iff_toNat_le, UInt32.lt_iff_toNat_lt]
    by_cases hin : first.toNat ≤ absolute.toNat ∧ absolute.toNat < next.toNat
    · have hlines := linesOf_le_lineTotal segment.fileIndex before
      have hdistance := UInt32.toNat_sub_of_le _ _ (UInt32.le_iff_toNat_le.mpr hin.1)
      obtain ⟨earlier, hearlier, hsum⟩ := checkedLinesOf_of_lt segment.fileIndex 0 before
        (by rw [UInt32.toNat_zero]; omega)
      rw [UInt32.toNat_zero, Nat.zero_add] at hsum
      obtain ⟨position, hposition, hcount⟩ := checkedAdd_of_lt (a := absolute - first) (b := 1)
        (n := 1) rfl (by omega)
      obtain ⟨line, hline, hresult⟩ := checkedAdd_of_lt (a := position) hsum (by omega)
      rw [if_pos hin, if_pos hin, hearlier, linesOf_reverse, ← hdistance, ← hcount, ← hresult]
      simp [hposition, hline]
    · have hreverse : (before ++ [segment]).reverse = segment :: before.reverse := by simp
      rw [if_neg hin, if_neg hin, ← hreverse]
      apply ih
      · rw [hvalue, hfirst, lineTotal_append, lineTotal, lineTotal]
        omega
      · rwa [List.append_assoc]

theorem lineTotal_le (files : List FileSegment) : lineTotal files ≤ 65535 * files.length := by
  induction files with
  | nil => exact Nat.le_refl 0
  | cons segment rest ih =>
    have hcount : segment.lineCount.toNat < 65536 := segment.lineCount.toNat_lt
    rw [lineTotal, List.length_cons]
    omega

/-- The stated size of a table has two bytes, which leaves room for less than 16383 runs. -/
theorem length_files_of_decode {p : Program} {width : Nat} {t : LineTable}
    (h : decode p width = .ok t) : t.files.length < 16383 := by
  obtain ⟨blob, hp, hregular⟩ := exists_regular_of_decode h
  obtain ⟨b, -, -, hsize, -, -, -, hok⟩ := decode_of_regular hp hregular
  rw [h] at hok
  cases hok
  rw [LineBlob.size] at hsize
  rw [table, List.length_map]
  omega

theorem checkedFileLine?_of_decode {p : Program} {width : Nat} {t : LineTable}
    (h : decode p width = .ok t) (absolute : UInt32) :
    t.checkedFileLine? absolute = some (t.fileLine? absolute.toNat) := by
  have hlength := length_files_of_decode h
  have hlines := lineTotal_le t.files
  have hsize : UInt32.size = 4294967296 := rfl
  exact checkedFileLineIn?_eq absolute [] t.files rfl (by rw [List.nil_append]; omega)

/-! ### The numbering -/

/-- **The lines of files.** The absolute lines of a file are numbered one, two, three and so on
through all its runs, and an absolute line that no run reaches has no number. -/
theorem fileLine?_numbering (t : LineTable) :
    (∀ line, t.fileLine? line = none ↔ line = 0 ∨ lineTotal t.files < line) ∧
    (∀ line segment, t.owner? line = some segment ↔
      ∃ before rest, t.files = before ++ segment :: rest ∧
        lineTotal before < line ∧ line ≤ lineTotal before + segment.lineCount.toNat) ∧
    (∀ line, t.fileLine? line = (t.owner? line).map fun segment =>
      ⟨segment.fileName, (List.range' 1 line).countP (t.isFrom segment.fileIndex)⟩) ∧
    (∀ fileIndex, ((List.range' 1 (lineTotal t.files)).filter (t.isFrom fileIndex)).map
        (fun line => (t.fileLine? line).map (·.line)) =
      (List.range' 1 (linesOf fileIndex t.files)).map some) ∧
    (∀ p width, decode p width = .ok t → ∀ absolute : UInt32,
      t.checkedFileLine? absolute = some (t.fileLine? absolute.toNat)) := by
  refine ⟨fun line => ?_, fun _ _ => owner?_eq_some_iff, t.fileLine?_eq_map_owner?,
    t.map_fileLine?_isFrom, fun _ _ => checkedFileLine?_of_decode⟩
  rw [fileLine?_eq_map_owner?, Option.map_eq_none_iff, owner?_eq_none_iff]

/-- A program with a file of three lines, an empty file, one of two lines, and four more lines of
the first file. -/
def resumed : Program :=
  { strings := [[114, 46, 99], [115, 46, 104]]
    lineInfo := some #[20, 0, 10, 0, 3, 0, 1, 0, 0, 0, 2, 0, 2, 0, 2, 0, 4, 0, 1, 0] }

theorem fileLine?_resumed :
    ∃ t, decode resumed 2 = .ok t ∧ t.checkedFileLine? 6 = some (some ⟨[114, 46, 99], 4⟩) ∧
      t.fileLine? 9 = some ⟨[114, 46, 99], 7⟩ ∧ t.fileLine? 10 = none := by
  have hdecode : decode resumed 2 = .ok ⟨[⟨3, 1, [114, 46, 99]⟩, ⟨0, 2, [115, 46, 104]⟩,
      ⟨2, 2, [115, 46, 104]⟩, ⟨4, 1, [114, 46, 99]⟩], #[]⟩ := rfl
  obtain ⟨hnone, -, hcount, -, hchecked⟩ := fileLine?_numbering _
  refine ⟨_, hdecode, ?_, ?_, (hnone 10).mpr (.inr (by decide))⟩
  · rw [hchecked _ _ hdecode]
    rfl
  · rw [hcount]
    rfl

end LineTable
end LpcInspect
