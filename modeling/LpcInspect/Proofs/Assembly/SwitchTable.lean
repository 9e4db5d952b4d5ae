import LpcInspect.Proofs.Assembly.CodeTree

/-!
# Switch tables are listed as they were written

Where the bytes of a table stand, its records are the entries of the table, for each of the three
layouts. A table whose offsets fit in their fields is found by the header that names it.
-/

namespace LpcInspect

namespace SwitchTable

open Reader

/-- The slots of a direct table are read one after the other, then the least key at its end. -/
theorem slotRecords_of_holds (t : SwitchTable) (slots : List UInt16) (minimum : Int32) (slot : Nat)
    {r : Reader}
    (h : r.Holds (slots.flatMap (fun s => (Scalar.uint16 s).encode) ++
      (Scalar.int32 minimum).encode))
    (hstop : r.position + 2 * slots.length + minimumSize = t.stop) :
    t.slotRecords slots.length slot r =
      (slots.zipIdx slot).map (fun s =>
        Record.switchEntry ⟨.slot s.2, .address (t.base + s.1.toNat)⟩) ++
        [.switchMinimum minimum] := by
  induction slots generalizing slot r with
  | nil =>
    have hseek : r.seek (t.stop - minimumSize) = r := by
      rw [← hstop, Nat.add_sub_cancel]
      rfl
    rw [List.length_nil, slotRecords, minimumRecords, hseek, int32_of_holds h]
    rfl
  | cons first rest ih =>
    rw [List.flatMap_cons, List.append_assoc, holds_append] at h
    have hrest := ih (slot + 1) h.2 (by
      simp only [position_seek, Scalar.length_encode, Scalar.kind, ScalarKind.width,
        List.length_cons] at hstop ⊢
      omega)
    rw [List.length_cons, slotRecords, uint16_of_holds h.1]
    simp only [hrest, List.zipIdx_cons, List.map_cons, List.cons_append]

/-- The pairs of a table are read one after the other up to its end. -/
theorem pairRecords_of_holds (t : SwitchTable) (p : Program) (pairs : List (Scalar × UInt16))
    (hwidth : ∀ pair ∈ pairs, pair.1.kind.width = 8) (bound : Nat) (hbound : pairs.length ≤ bound)
    {r : Reader} (h : r.Holds (pairs.flatMap TableFields.pairBytes))
    (hstop : r.position + (pairs.flatMap TableFields.pairBytes).length = t.stop) :
    t.pairRecords p 8 bound r =
      pairs.map fun pair => .switchEntry ⟨t.key p 8 pair.1.toBits, t.pairTarget pair.2⟩ := by
  induction pairs generalizing bound r with
  | nil =>
    cases bound with
    | zero => rfl
    | succ bound =>
      rw [pairRecords, if_neg]
      · rfl
      · simp at hstop
        omega
  | cons pair rest ih =>
    obtain ⟨bound, rfl⟩ : ∃ n, bound = n + 1 := ⟨bound - 1, by simp at hbound; omega⟩
    have hpair : pair.1.kind.width = 8 := hwidth pair (List.mem_cons_self ..)
    rw [List.flatMap_cons, TableFields.pairBytes, List.append_assoc, holds_append,
      holds_append] at h
    obtain ⟨hkey, htarget, hrest⟩ := h
    rw [List.flatMap_cons, List.length_append, TableFields.pairBytes, List.length_append,
      Scalar.length_encode, hpair] at hstop
    have htail := ih (fun q hq => hwidth q (List.mem_cons_of_mem _ hq)) bound
      (Nat.le_of_succ_le_succ hbound) hrest (by
        simp only [position_seek, Scalar.length_encode, hpair] at hstop ⊢
        omega)
    rw [pairRecords, if_pos (by omega), unsigned_of_holds hpair hkey]
    simp only [uint16_of_holds htarget, htail, List.map_cons]

/-- Eight bytes stand for the number that they are written from. -/
theorem signedValue_int64 (key : Int64) : signedValue 8 (Scalar.int64 key).toBits = key.toInt := by
  have hcapacity : Bytes.capacity 8 = 2 ^ 64 := rfl
  rw [signedValue, hcapacity]
  exact (BitVec.toInt_eq_toNat_cond key.toBitVec).symm

end SwitchTable

namespace TableFields

/-- The keys of a table of pairs take eight bytes each. -/
theorem width_of_mem_pairs (t : TableFields) : ∀ pair ∈ t.pairs, pair.1.kind.width = 8 := by
  intro pair hpair
  cases t with
  | direct => cases hpair
  | integer | string =>
    obtain ⟨_, -, rfl⟩ := List.mem_map.mp hpair
    rfl

theorem length_flatMap_pairBytes (t : TableFields) :
    (t.pairs.flatMap pairBytes).length = t.pairs.length * 10 := by
  apply length_flatMap_const
  intro pair hpair
  rw [pairBytes, List.length_append, Scalar.length_encode, t.width_of_mem_pairs pair hpair]
  rfl

/-- The layout that the type byte of a table selects. -/
def layout : TableFields → SwitchLayout
  | .direct _ _ => .direct
  | .integer _ _ _ => .integer
  | .string _ _ _ => .string

theorem ofType_tableType (t : TableFields) : SwitchLayout.ofType t.tableType = t.layout := by
  cases t with
  | direct => rfl
  | integer tableType pairs htype =>
    rw [TableFields.tableType, SwitchLayout.ofType, if_neg htype.2, if_pos htype.1]
    rfl
  | string tableType pairs htype =>
    have hne : tableType ≠ 0xfe := by
      rintro rfl
      exact absurd htype (by decide)
    rw [TableFields.tableType, SwitchLayout.ofType, if_neg hne, if_neg (UInt8.not_le.mpr htype)]
    rfl

/-- The key of a string table stands for a string of the program, or for the number zero. -/
theorem key_string (p : Program) (offset start stop : Nat) (key : UInt64) :
    SwitchTable.key ⟨offset, .string, start, stop⟩ p 8 (Scalar.uint64 key).toBits =
      stringKey p key := by
  by_cases hzero : key = 0
  · rw [stringKey, if_pos hzero, hzero]
    rfl
  · obtain ⟨n, hn⟩ : ∃ n, key.toNat = n + 1 :=
      Nat.exists_eq_succ_of_ne_zero fun h => hzero (UInt64.toNat_inj.mp h)
    rw [stringKey, if_neg hzero, Scalar.toBits, hn]
    rfl

/-- **A table is shown as its entries** where its bytes stand. -/
theorem records_of_holds (t : TableFields) (p : Program) {code : Array UInt8} (offset : Nat)
    {start stop : Nat} (hstop : start + t.bytes.length = stop)
    (h : (Reader.window code stop start).Holds t.bytes) :
    SwitchTable.records ⟨offset, t.layout, start, stop⟩ code p 8 =
      .switchTable offset :: t.entries p (offset + 1) := by
  have hsize : stop - start = t.bytes.length := by omega
  -- A pair takes ten bytes, so a table has no more pairs than bytes.
  have hpairs (hbytes : t.bytes = t.pairs.flatMap pairBytes) :=
    SwitchTable.pairRecords_of_holds ⟨offset, t.layout, start, stop⟩ p t.pairs t.width_of_mem_pairs
      (stop - start) (by rw [hsize, hbytes, length_flatMap_pairBytes]; omega) (hbytes ▸ h)
      (hbytes ▸ hstop)
  cases t with
  | direct slots minimum =>
    have hslots : (slots.flatMap fun s => (Scalar.uint16 s).encode).length = slots.length * 2 :=
      length_flatMap_const fun _ _ => rfl
    have hlength : (direct slots minimum).bytes.length = slots.length * 2 + 4 := by
      rw [bytes, List.length_append, hslots]
      rfl
    rw [hlength] at hstop
    have hcount : (stop - SwitchTable.minimumSize - start) / 2 = slots.length := by
      simp only [SwitchTable.minimumSize]
      omega
    have hrecords := SwitchTable.slotRecords_of_holds ⟨offset, .direct, start, stop⟩ slots minimum 0
      h (by simp only [Reader.window, SwitchTable.minimumSize]; omega)
    rw [SwitchTable.records, layout]
    dsimp only
    rw [SwitchTable.directRecords, if_pos (by simp only [SwitchTable.minimumSize]; omega)]
    dsimp only
    rw [hcount, hrecords]
    rfl
  | integer tableType pairs htype =>
    refine (congrArg (Record.switchTable offset :: ·) (hpairs rfl)).trans ?_
    rw [TableFields.pairs, List.map_map, entries]
    refine congrArg _ (List.map_congr_left fun pair _ => ?_)
    exact congrArg (fun key => Record.switchEntry ⟨key, pairTarget (offset + 1) pair.2⟩)
      (congrArg SwitchKey.integer (SwitchTable.signedValue_int64 pair.1))
  | string tableType pairs htype =>
    refine (congrArg (Record.switchTable offset :: ·) (hpairs rfl)).trans ?_
    rw [TableFields.pairs, List.map_map, entries]
    refine congrArg _ (List.map_congr_left fun pair _ => ?_)
    exact congrArg (fun key => Record.switchEntry ⟨key, pairTarget (offset + 1) pair.2⟩)
      (key_string p offset start stop pair.1)

/-- A table is at least as long as its layout asks for. -/
theorem leastSize_le (t : TableFields) : SwitchTable.leastSize t.layout ≤ t.bytes.length := by
  cases t with
  | direct slots minimum =>
    rw [bytes, List.length_append]
    exact Nat.le_add_left _ _
  | integer | string => exact Nat.zero_le _

end TableFields

/-! ### Headers -/

namespace CodeTree

section Header

variable {fallback : UInt16} {bodySize : Nat} {table : TableFields}
  (hfits : 7 + bodySize + table.bytes.length < 65536)

include hfits

theorem toNat_tableStart : (header fallback bodySize table).tableStart.toNat = 7 + bodySize :=
  UInt16.toNat_ofNat_of_lt (Nat.lt_of_le_of_lt (Nat.le_add_right _ _) hfits)

theorem toNat_tableEnd :
    (header fallback bodySize table).tableEnd.toNat = 7 + bodySize + table.bytes.length :=
  UInt16.toNat_ofNat_of_lt hfits

/-- A table whose offsets fit is found where it is. -/
theorem locate?_header (fallback : UInt16) {position stop : Nat}
    (hstop : position + 1 + (7 + bodySize + table.bytes.length) ≤ stop) :
    SwitchTable.locate? position (header fallback bodySize table).tableType
        (header fallback bodySize table).tableStart (header fallback bodySize table).tableEnd stop =
      some ⟨position, table.layout, position + 1 + (7 + bodySize),
        position + 1 + (7 + bodySize + table.bytes.length)⟩ := by
  have hlayout : SwitchLayout.ofType (header fallback bodySize table).tableType = table.layout :=
    table.ofType_tableType
  have hleast := table.leastSize_le
  simp only [SwitchTable.locate?, hlayout, toNat_tableStart hfits, toNat_tableEnd hfits]
  rw [if_pos ⟨Nat.le_add_right _ _, by omega, hstop⟩]

end Header

end CodeTree
end LpcInspect
