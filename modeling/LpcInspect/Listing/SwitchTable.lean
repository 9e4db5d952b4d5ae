import LpcInspect.Bytes.Reader
import LpcInspect.Listing.Record
import LpcInspect.Program.Basic

/-!
# Switch tables

A switch is an opcode, a header of seven bytes, a body and a table, one after the other. All
offsets of a switch count from the byte after its opcode. A direct table has a target for each of
some consecutive keys and then the least key; the other tables are pairs of a key and a target.
-/

namespace LpcInspect

/-- The layout of a switch table. -/
inductive SwitchLayout where
  /-- Targets of consecutive keys. -/
  | direct
  /-- Pairs of a number and a target. -/
  | integer
  /-- Pairs of a string, counted from one, and a target. -/
  | string
  deriving DecidableEq, Repr

/-- The layout that a type byte selects. -/
def SwitchLayout.ofType (tableType : UInt8) : SwitchLayout :=
  if tableType = 0xfe then .direct else if 0xf0 ≤ tableType then .integer else .string

/-- The place of a switch and its table, in absolute addresses. -/
structure SwitchTable where
  /-- The address of the opcode. -/
  offset : Nat
  layout : SwitchLayout
  /-- The first byte of the table, where the body ends. -/
  start : Nat
  /-- The first byte after the table. -/
  stop : Nat
  deriving DecidableEq, Repr

namespace SwitchTable

/-- The number of bytes of the header after the opcode. -/
def headerSize : Nat := 7

/-- The number of bytes of the least key in a direct table. -/
def minimumSize : Nat := 4

/-- The offset that marks the first key of a range. -/
def rangeMark : UInt16 := 1

/-- The address from which the offsets of a switch count. -/
def base (t : SwitchTable) : Nat := t.offset + 1

/-- The first byte of the body. -/
def bodyStart (t : SwitchTable) : Nat := t.base + headerSize

/-- The least number of bytes of a table. -/
def leastSize : SwitchLayout → Nat
  | .direct => minimumSize
  | .integer | .string => 0

/-- The table of a switch, if it lies after the header and inside of the window. -/
def locate? (offset : Nat) (tableType : UInt8) (tableStart tableEnd : UInt16) (windowEnd : Nat) :
    Option SwitchTable :=
  let layout := SwitchLayout.ofType tableType
  if headerSize ≤ tableStart.toNat ∧ tableStart.toNat + leastSize layout ≤ tableEnd.toNat ∧
      offset + 1 + tableEnd.toNat ≤ windowEnd then
    some ⟨offset, layout, offset + 1 + tableStart.toNat, offset + 1 + tableEnd.toNat⟩
  else none

/-- The number that `width` bytes stand for in two's complement. -/
def signedValue (width raw : Nat) : Int :=
  if 2 * raw < Bytes.capacity width then raw else raw - Bytes.capacity width

/-- The key that a number stands for. In a table of strings, zero is a number. -/
def key (t : SwitchTable) (p : Program) (width raw : Nat) : SwitchKey :=
  match t.layout, raw with
  | .string, index + 1 =>
    match p.string? index with
    | some value => .string value
    | none => .missingString (index + 1)
  | _, raw => .integer (signedValue width raw)

/-- The target that an offset of a pair stands for. -/
def pairTarget (t : SwitchTable) (offset : UInt16) : SwitchTarget :=
  if offset = rangeMark then .rangeStart else .address (t.base + offset.toNat)

/-- The record of a table that ends inside of a field. -/
def malformedAt (position : Nat) : Record := .diagnostic position .malformedSwitch

/-- The record of the least key. -/
def minimumRecords (r : Reader) : List Record :=
  match Reader.int32 r with
  | .ok (value, _) => [.switchMinimum value]
  | .error _ => [malformedAt r.position]

/-- The records of a number of targets, the first one at a place, and of the least key. -/
def slotRecords (t : SwitchTable) : Nat → Nat → Reader → List Record
  | 0, _, r => minimumRecords (r.seek (t.stop - minimumSize))
  | count + 1, slot, r =>
    match Reader.uint16 r with
    | .ok (offset, next) =>
      .switchEntry ⟨.slot slot, .address (t.base + offset.toNat)⟩ ::
        t.slotRecords count (slot + 1) next
    | .error _ => [malformedAt r.position]

/-- The records of a direct table. -/
def directRecords (t : SwitchTable) (r : Reader) : List Record :=
  if t.start + minimumSize ≤ t.stop then
    t.slotRecords ((t.stop - minimumSize - t.start) / 2) 0 r
  else [malformedAt t.start]

/-- The records of a table of pairs, at most `bound` of them. -/
def pairRecords (t : SwitchTable) (p : Program) (width : Nat) : Nat → Reader → List Record
  | 0, _ => []
  | bound + 1, r =>
    if r.position < t.stop then
      match Reader.unsigned width r with
      | .ok (raw, afterKey) =>
        match Reader.uint16 afterKey with
        | .ok (offset, next) =>
          .switchEntry ⟨t.key p width raw, t.pairTarget offset⟩ :: t.pairRecords p width bound next
        | .error _ => [malformedAt afterKey.position]
      | .error _ => [malformedAt r.position]
    else []

/-- The records of a table in some code, which may end before the table does. -/
def records (t : SwitchTable) (code : Array UInt8) (p : Program) (width : Nat) : List Record :=
  let r := Reader.window code t.stop t.start
  .switchTable t.offset ::
    match t.layout with
    | .direct => t.directRecords r
    | .integer | .string => t.pairRecords p width (t.stop - t.start) r

/-- A located table lies between the header and the end of the window. -/
theorem bounds_of_locate? {offset windowEnd : Nat} {tableType : UInt8}
    {tableStart tableEnd : UInt16} {t : SwitchTable}
    (h : locate? offset tableType tableStart tableEnd windowEnd = some t) :
    t.offset = offset ∧ t.bodyStart ≤ t.start ∧ t.start ≤ t.stop ∧ t.stop ≤ windowEnd := by
  simp only [locate?] at h
  split at h
  · next hb =>
    cases h
    simp only [headerSize] at hb
    refine ⟨rfl, ?_, ?_, hb.2.2⟩ <;> simp only [bodyStart, base, headerSize] <;> omega
  · cases h

end SwitchTable
end LpcInspect
