import LpcInspect.Listing.SwitchTable
import LpcInspect.Proofs.Bytes.Holds

/-!
# The records of switch tables

The code may end anywhere in a table. What is shown of the table is given here by the places of its
fields in the code: a table of pairs shows all pairs that are whole in what the code has of it, and
a direct table all such slots, and the least key if none of its bytes is missing. In both loops one
field is read at its place, `pairRecords_step` and `slotRecords_step`, and the rest follows along
the loop. Every table that is not whole ends with one diagnostic, at the field that is cut off.
-/

namespace LpcInspect

namespace Bytes

/-- The number in the `width` bytes from a position on, the least significant byte first. -/
def numberAt (code : Array UInt8) (position width : Nat) : Nat :=
  toNatLE (code.extract position (position + width)).toList

theorem numberAt_lt {code : Array UInt8} {position width : Nat}
    (h : position + width ≤ code.size) : numberAt code position width < capacity width := by
  have hlength : (code.extract position (position + width)).toList.length = width := by
    simp only [Array.length_toList, Array.size_extract]
    omega
  have hlt := toNatLE_lt (code.extract position (position + width)).toList
  rwa [hlength] at hlt

/-- Bytes behind a number do not change it. -/
theorem numberAt_append {code : Array UInt8} {position width : Nat}
    (h : position + width ≤ code.size) (more : Array UInt8) :
    numberAt (code ++ more) position width = numberAt code position width := by
  have hextract : (code ++ more).extract position (position + width) =
      code.extract position (position + width) := by
    rw [Array.extract_append, Nat.sub_eq_zero_of_le h, Nat.sub_eq_zero_of_le (by omega)]
    simp
  rw [numberAt, hextract, numberAt]

theorem capacity_eq_two_pow (width : Nat) : capacity width = Nat.pow 2 (8 * width) := by
  induction width with
  | zero => rfl
  | succ width ih =>
    rw [capacity_succ, ih, Nat.mul_comm]
    exact (Nat.pow_add 2 (8 * width) 8).symm

end Bytes

namespace Reader

open Bytes

variable {r : Reader}

theorem take_of_le {count : Nat} (h : r.position + count ≤ r.stop) :
    take count r = .ok ((r.bytes.extract r.position (r.position + count)).toList,
      r.seek (r.position + count)) := if_pos h

theorem uint16_of_le (h : r.position + 2 ≤ r.stop) :
    uint16 r = .ok (UInt16.ofNat (numberAt r.bytes r.position 2), r.seek (r.position + 2)) :=
  bind_of_ok (take_of_le h) _

theorem int32_of_le (h : r.position + 4 ≤ r.stop) :
    int32 r = .ok ((UInt32.ofNat (numberAt r.bytes r.position 4)).toInt32,
      r.seek (r.position + 4)) :=
  bind_of_ok (take_of_le h) _

theorem unsigned_of_le {width : Nat} (hwidth : width = 2 ∨ width = 4 ∨ width = 8)
    (h : r.position + width ≤ r.stop) :
    unsigned width r = .ok (numberAt r.bytes r.position width, r.seek (r.position + width)) := by
  rw [unsigned, if_pos hwidth]
  exact bind_of_ok (take_of_le h) _

end Reader

namespace SwitchTable

open Bytes Reader

/-- The number of bytes of a table that stand in some code. -/
def available (t : SwitchTable) (code : Array UInt8) : Nat := min t.stop code.size - t.start

/-- The key that a number of `width` bytes stands for in a table of pairs: in a table of strings a
string that is counted from one, and otherwise a number with a sign. -/
def pairKey (layout : SwitchLayout) (strings : List Bytes) (width raw : Nat) : SwitchKey :=
  if layout = .integer ∨ raw = 0 then .integer (BitVec.ofNat (8 * width) raw).toInt
  else
    match strings[raw - 1]? with
    | some value => .string value
    | none => .missingString raw

/-- The entry of the pair at a position. -/
def pairAt (t : SwitchTable) (p : Program) (code : Array UInt8) (width position : Nat) :
    SwitchEntry where
  key := pairKey t.layout p.strings width (numberAt code position width)
  target :=
    if numberAt code (position + width) 2 = 1 then .rangeStart
    else .address (t.base + numberAt code (position + width) 2)

/-- Sign extension keeps the number that the bits stand for. -/
theorem signedValue_eq_toInt {width raw : Nat} (h : raw < capacity width) :
    signedValue width raw = (BitVec.ofNat (8 * width) raw).toInt := by
  have hcapacity : 2 ^ (8 * width) = capacity width := (capacity_eq_two_pow width).symm
  rw [BitVec.toInt_eq_toNat_cond, BitVec.toNat_ofNat, hcapacity, Nat.mod_eq_of_lt h, signedValue]

theorem key_eq_pairKey {t : SwitchTable} (hlayout : t.layout ≠ .direct) (p : Program)
    {width raw : Nat} (h : raw < capacity width) :
    t.key p width raw = pairKey t.layout p.strings width raw := by
  unfold key pairKey
  rw [← signedValue_eq_toInt h]
  cases ht : t.layout with
  | direct => exact absurd ht hlayout
  | integer => simp
  | string =>
    cases raw with
    | zero => simp
    | succ index =>
      have hstored : p.strings[index]? = p.string? index := rfl
      cases hvalue : p.string? index <;> simp [hstored, hvalue]

theorem pairTarget_eq (t : SwitchTable) {offset : Nat} (h : offset < capacity 2) :
    t.pairTarget (UInt16.ofNat offset) =
      if offset = 1 then .rangeStart else .address (t.base + offset) := by
  have htoNat : (UInt16.ofNat offset).toNat = offset := UInt16.toNat_ofNat_of_lt h
  have hmark : UInt16.ofNat offset = rangeMark ↔ offset = 1 := by
    rw [← UInt16.toNat_inj, htoNat]
    rfl
  simp only [pairTarget, hmark, htoNat]

/-- What follows the whole pairs of a table, where `rest` bytes are left: a diagnostic if the table
goes on. It stands behind the key if that is whole. -/
def pairRest (t : SwitchTable) (width position rest : Nat) : List Record :=
  if position < t.stop then [malformedAt (position + if width ≤ rest then width else 0)] else []

section Pairs

variable {t : SwitchTable} {code : Array UInt8} {width position bound : Nat}

/-- No key has another width than two, four or eight bytes. -/
theorem pairRecords_of_unsupported (hwidth : ¬(width = 2 ∨ width = 4 ∨ width = 8)) (p : Program)
    (hbound : t.stop - position ≤ bound) :
    t.pairRecords p width bound (window code t.stop position) =
      if position < t.stop then [malformedAt position] else [] := by
  have hposition : (window code t.stop position).position = position := rfl
  cases bound with
  | zero => rw [pairRecords, if_neg (by omega)]
  | succ bound =>
    rw [pairRecords, unsigned_of_unsupported hwidth, hposition]

variable (hwidth : width = 2 ∨ width = 4 ∨ width = 8)

include hwidth

theorem unsigned_window (h : position + width ≤ min t.stop code.size) :
    unsigned width (window code t.stop position) =
      .ok (numberAt code position width, window code t.stop (position + width)) :=
  unsigned_of_le hwidth h

/-- **One pair** is read where it stands in the code, and the loop goes on behind it. -/
theorem pairRecords_step (hlayout : t.layout ≠ .direct) (p : Program)
    (h : position + (width + 2) ≤ min t.stop code.size) :
    t.pairRecords p width (bound + 1) (window code t.stop position) =
      .switchEntry (t.pairAt p code width position) ::
        t.pairRecords p width bound (window code t.stop (position + (width + 2))) := by
  have htarget : uint16 (window code t.stop (position + width)) =
      .ok (UInt16.ofNat (numberAt code (position + width) 2),
        window code t.stop (position + (width + 2))) :=
    uint16_of_le (show position + width + 2 ≤ min t.stop code.size by omega)
  have hposition : (window code t.stop position).position < t.stop :=
    show position < t.stop by omega
  rw [pairRecords, if_pos hposition, unsigned_window hwidth (by omega)]
  simp only [htarget]
  rw [key_eq_pairKey hlayout p (numberAt_lt (by omega)), pairTarget_eq t (numberAt_lt (by omega))]
  rfl

/-- A pair that is not whole ends the table. -/
theorem pairRecords_of_cut (p : Program) (h : min t.stop code.size < position + (width + 2)) :
    t.pairRecords p width (bound + 1) (window code t.stop position) =
      t.pairRest width position (min t.stop code.size - position) := by
  have hposition : (window code t.stop position).position = position := rfl
  rw [pairRecords, pairRest, hposition]
  by_cases hkey : width ≤ min t.stop code.size - position
  · have htarget : uint16 (window code t.stop (position + width)) =
        .error (.unexpectedEnd (position + width)) :=
      uint16_of_lt (show min t.stop code.size < position + width + 2 by omega)
    rw [unsigned_window hwidth (by omega), if_pos hkey]
    simp only [htarget]
    rfl
  · have hcut : unsigned width (window code t.stop position) = .error (.unexpectedEnd position) :=
      unsigned_of_lt hwidth (show min t.stop code.size < position + width by omega)
    rw [hcut, if_neg hkey]
    rfl

/-- **The pairs of a table** from a position on: those that are whole, and what follows them. -/
theorem pairRecords_window (hlayout : t.layout ≠ .direct) (p : Program)
    (hbound : t.stop - position ≤ bound) :
    t.pairRecords p width bound (window code t.stop position) =
      (List.range' position ((min t.stop code.size - position) / (width + 2)) (width + 2)).map
        (fun q => .switchEntry (t.pairAt p code width q)) ++
      t.pairRest width
        (position + (min t.stop code.size - position) / (width + 2) * (width + 2))
        ((min t.stop code.size - position) % (width + 2)) := by
  induction bound generalizing position with
  | zero =>
    have hempty : min t.stop code.size - position = 0 := by omega
    rw [hempty, Nat.zero_div, pairRecords, pairRest, if_neg (by omega)]
    rfl
  | succ bound ih =>
    by_cases hwhole : position + (width + 2) ≤ min t.stop code.size
    · obtain ⟨rest, hrest⟩ : ∃ rest, min t.stop code.size - position = rest + (width + 2) :=
        ⟨min t.stop code.size - position - (width + 2), by omega⟩
      have hnext : min t.stop code.size - (position + (width + 2)) = rest := by omega
      have hplace : position + (width + 2) + rest / (width + 2) * (width + 2) =
          position + (rest / (width + 2) + 1) * (width + 2) := by
        rw [Nat.succ_mul]
        omega
      rw [pairRecords_step hwidth hlayout p hwhole, ih (by omega), hnext, hrest,
        Nat.add_div_right _ (by omega), Nat.add_mod_right, hplace, List.range'_succ, List.map_cons,
        List.cons_append]
    · have hcut : min t.stop code.size - position < width + 2 := by omega
      rw [pairRecords_of_cut hwidth p (by omega), Nat.div_eq_of_lt hcut, Nat.mod_eq_of_lt hcut,
        Nat.zero_mul, Nat.add_zero]
      rfl

end Pairs

/-- **Tables of pairs.** As many pairs are shown as are whole in what the code has of the table, and
a diagnostic if the table goes on behind them. -/
theorem records_pairs (t : SwitchTable) (hlayout : t.layout ≠ .direct) (code : Array UInt8)
    (p : Program) (width : Nat) :
    (width = 2 ∨ width = 4 ∨ width = 8 →
      t.records code p width =
        [.switchTable t.offset] ++
        (List.range' t.start (t.available code / (width + 2)) (width + 2)).map
          (fun position => .switchEntry (t.pairAt p code width position)) ++
        (if t.start + t.available code / (width + 2) * (width + 2) < t.stop then
          [.diagnostic (t.start + t.available code / (width + 2) * (width + 2) +
            if width ≤ t.available code % (width + 2) then width else 0) .malformedSwitch]
        else [])) ∧
    (¬(width = 2 ∨ width = 4 ∨ width = 8) →
      t.records code p width =
        [.switchTable t.offset] ++
        if t.start < t.stop then [.diagnostic t.start .malformedSwitch] else []) := by
  have hrecords : t.records code p width = .switchTable t.offset ::
      t.pairRecords p width (t.stop - t.start) (window code t.stop t.start) := by
    unfold records
    cases ht : t.layout with
    | direct => exact absurd ht hlayout
    | integer | string => rfl
  constructor
  · intro hwidth
    rw [hrecords, pairRecords_window hwidth hlayout p (Nat.le_refl _)]
    rfl
  · intro hwidth
    rw [hrecords, pairRecords_of_unsupported hwidth p (Nat.le_refl _)]
    rfl

/-- The code of a table of strings with two pairs, and with the key and half of the target of a
third one. -/
def cutPairs : Array UInt8 := #[0, 0, 0, 0, 0, 0, 0, 0, 1, 0, 9, 0, 0, 0, 1, 0, 5, 0, 7]

theorem records_cutPairs :
    records ⟨0, .string, 8, 20⟩ cutPairs { strings := [[110]] } 2 =
      [.switchTable 0, .switchEntry ⟨.string [110], .address 10⟩,
        .switchEntry ⟨.integer 0, .rangeStart⟩, .diagnostic 18 .malformedSwitch] := by
  have hlayout : SwitchLayout.string ≠ .direct := by decide
  rw [(records_pairs ⟨0, .string, 8, 20⟩ hlayout cutPairs { strings := [[110]] } 2).1 (.inl rfl)]
  decide

/-! ### Direct tables -/

/-- The record of a slot of a direct table. -/
def slotAt (t : SwitchTable) (code : Array UInt8) (slot : Nat) : Record :=
  .switchEntry ⟨.slot slot, .address (t.base + numberAt code (t.start + 2 * slot) 2)⟩

/-- A slot is the same if more bytes stand behind it. -/
theorem slotAt_append (t : SwitchTable) {code : Array UInt8} {slot : Nat}
    (h : t.start + 2 * slot + 2 ≤ code.size) (more : Array UInt8) :
    t.slotAt (code ++ more) slot = t.slotAt code slot := by
  rw [slotAt, numberAt_append h, slotAt]

section Direct

variable {t : SwitchTable} {code : Array UInt8}

/-- **One slot** is read where it stands in the code, and the loop goes on behind it. -/
theorem slotRecords_step (count : Nat) {slot : Nat}
    (h : t.start + 2 * slot + 2 ≤ min t.stop code.size) :
    t.slotRecords (count + 1) slot (window code t.stop (t.start + 2 * slot)) =
      t.slotAt code slot ::
        t.slotRecords count (slot + 1) (window code t.stop (t.start + 2 * (slot + 1))) := by
  have hread : uint16 (window code t.stop (t.start + 2 * slot)) =
      .ok (UInt16.ofNat (numberAt code (t.start + 2 * slot) 2),
        window code t.stop (t.start + 2 * (slot + 1))) := uint16_of_le h
  have hoffset : (UInt16.ofNat (numberAt code (t.start + 2 * slot) 2)).toNat =
      numberAt code (t.start + 2 * slot) 2 := UInt16.toNat_ofNat_of_lt (numberAt_lt (by omega))
  rw [slotRecords, hread]
  simp only [slotAt, hoffset]

/-- **The slots of a table** from one of them on: those that are whole, then the least key if all of
them are. -/
theorem slotRecords_window (count slot : Nat) :
    t.slotRecords count slot (window code t.stop (t.start + 2 * slot)) =
      (List.range' slot (min count ((min t.stop code.size - (t.start + 2 * slot)) / 2))).map
        (t.slotAt code) ++
      if count ≤ (min t.stop code.size - (t.start + 2 * slot)) / 2 then
        minimumRecords (window code t.stop (t.stop - minimumSize))
      else
        [malformedAt
          (t.start + 2 * (slot + (min t.stop code.size - (t.start + 2 * slot)) / 2))] := by
  induction count generalizing slot with
  | zero =>
    rw [Nat.zero_min, if_pos (Nat.zero_le _)]
    rfl
  | succ count ih =>
    by_cases hwhole : t.start + 2 * slot + 2 ≤ min t.stop code.size
    · have hrest : (min t.stop code.size - (t.start + 2 * slot)) / 2 =
          (min t.stop code.size - (t.start + 2 * (slot + 1))) / 2 + 1 := by omega
      rw [slotRecords_step count hwhole, ih, hrest, Nat.add_min_add_right, List.range'_succ,
        List.map_cons, List.cons_append]
      simp only [Nat.add_le_add_iff_right, Nat.add_assoc, Nat.add_comm 1]
    · have hnone : (min t.stop code.size - (t.start + 2 * slot)) / 2 = 0 := by omega
      have hread : uint16 (window code t.stop (t.start + 2 * slot)) =
          .error (.unexpectedEnd (t.start + 2 * slot)) :=
        uint16_of_lt (show min t.stop code.size < t.start + 2 * slot + 2 by omega)
      rw [hnone, Nat.min_zero, if_neg (Nat.not_succ_le_zero count), slotRecords, hread]
      rfl

end Direct

/-- A located direct table has room for the least key. -/
theorem minimumSize_le_of_locate? {offset windowEnd : Nat} {tableType : UInt8}
    {tableStart tableEnd : UInt16} {t : SwitchTable}
    (h : locate? offset tableType tableStart tableEnd windowEnd = some t)
    (hlayout : t.layout = .direct) : t.start + minimumSize ≤ t.stop := by
  simp only [locate?] at h
  split at h
  · next hb =>
    cases h
    rw [show SwitchLayout.ofType tableType = .direct from hlayout] at hb
    have hleast : leastSize .direct = minimumSize := rfl
    simp only
    omega
  · cases h

/-- **Direct tables.** All slots and the least key are shown if the code has the whole table, and
otherwise the slots that are whole and a diagnostic at the first field that is cut off. -/
theorem records_direct {offset windowEnd : Nat} {tableType : UInt8} {tableStart tableEnd : UInt16}
    {t : SwitchTable} (hlocate : locate? offset tableType tableStart tableEnd windowEnd = some t)
    (hlayout : t.layout = .direct) (code : Array UInt8) (p : Program) (width : Nat) :
    let count := (t.stop - t.start - 4) / 2
    let whole := min count ((code.size - t.start) / 2)
    t.start + 2 * count + (t.stop - t.start) % 2 = t.stop - 4 ∧
    (t.stop ≤ code.size →
      t.records code p width =
        [.switchTable t.offset] ++ (List.range count).map (t.slotAt code) ++
          [.switchMinimum (UInt32.ofNat (numberAt code (t.stop - 4) 4)).toInt32]) ∧
    (code.size < t.stop → ∀ more,
      t.records code p width =
        [.switchTable t.offset] ++ ((List.range count).map (t.slotAt (code ++ more))).take whole ++
          [.diagnostic (if whole < count then t.start + 2 * whole else t.stop - 4)
            .malformedSwitch]) := by
  have hsize : t.start + minimumSize ≤ t.stop := minimumSize_le_of_locate? hlocate hlayout
  have hminimum : minimumSize = 4 := rfl
  intro count whole
  have hrecords : t.records code p width = .switchTable t.offset ::
      t.slotRecords count 0 (window code t.stop (t.start + 2 * 0)) := by
    rw [records, hlayout]
    dsimp only
    rw [directRecords, if_pos hsize, Nat.sub_right_comm]
    rfl
  rw [hrecords, slotRecords_window, ← List.range_eq_range', Nat.mul_zero, Nat.add_zero,
    Nat.zero_add]
  refine ⟨by omega, ?_, ?_⟩
  · intro hcode
    have hread : int32 (window code t.stop (t.stop - minimumSize)) =
        .ok ((UInt32.ofNat (numberAt code (t.stop - 4) 4)).toInt32,
          window code t.stop (t.stop - 4 + 4)) :=
      int32_of_le (show t.stop - 4 + 4 ≤ min t.stop code.size by omega)
    have hcount : count ≤ (min t.stop code.size - t.start) / 2 := by omega
    rw [if_pos hcount, Nat.min_eq_left hcount, minimumRecords, hread]
    rfl
  · intro hcode more
    have hread : int32 (window code t.stop (t.stop - minimumSize)) =
        .error (.unexpectedEnd (t.stop - 4)) :=
      int32_of_lt (show min t.stop code.size < t.stop - 4 + 4 by omega)
    have hslots : ((List.range count).map (t.slotAt (code ++ more))).take whole =
        (List.range whole).map (t.slotAt code) := by
      rw [← List.map_take, List.take_range, Nat.min_eq_left (Nat.min_le_left _ _)]
      refine List.map_congr_left fun slot hslot => t.slotAt_append ?_ more
      have := List.mem_range.mp hslot
      omega
    rw [hslots, Nat.min_eq_right (Nat.le_of_lt hcode)]
    by_cases hcount : count ≤ (code.size - t.start) / 2
    · have hwhole : ¬whole < count := by omega
      rw [if_pos hcount, if_neg hwhole, minimumRecords, hread]
      rfl
    · have hwhole : (code.size - t.start) / 2 = whole := by omega
      rw [if_neg hcount, if_pos (by omega), hwhole, Nat.min_eq_right (by omega)]
      rfl

/-- The code of a direct table with one slot, a byte that is not read, and the least key. -/
def oddSlots : Array UInt8 := #[0, 0, 0, 0, 0, 0, 0, 0, 5, 0, 77, 254, 255, 255, 255]

theorem records_oddSlots :
    locate? 0 0xfe 7 14 15 = some ⟨0, .direct, 8, 15⟩ ∧
    records ⟨0, .direct, 8, 15⟩ oddSlots {} 8 =
      [.switchTable 0, .switchEntry ⟨.slot 0, .address 6⟩, .switchMinimum (-2)] ∧
    records ⟨0, .direct, 8, 15⟩ (oddSlots.take 14) {} 8 =
      [.switchTable 0, .switchEntry ⟨.slot 0, .address 6⟩, .diagnostic 11 .malformedSwitch] := by
  have hlocate : locate? 0 0xfe 7 14 15 = some ⟨0, .direct, 8, 15⟩ := by decide
  refine ⟨hlocate, ?_, ?_⟩
  · rw [(records_direct hlocate rfl oddSlots {} 8).2.1 (by decide)]
    decide
  · rw [(records_direct hlocate rfl (oddSlots.take 14) {} 8).2.2 (by decide) #[]]
    decide

end SwitchTable
end LpcInspect
