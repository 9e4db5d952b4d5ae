import LpcInspect.Bytes.Reader
import LpcInspect.LineTable.Basic
import LpcInspect.Program.Basic

/-!
# Decoding line tables

The header is examined before any run is read, and the runs of code bytes are read within the size
that the header gives.
-/

namespace LpcInspect

/-- Why a program has no usable line table. -/
inductive LineInfoError where
  /-- There is none. -/
  | missing
  /-- The header does not fit the table. -/
  | badHeader (total addressSection size : Nat)
  /-- The first part is not a whole number of runs. -/
  | fileSection (size : Nat)
  /-- The table ends inside of a field. -/
  | truncated (error : ReadError)
  /-- Absolute lines are neither two nor four bytes wide. -/
  | unsupportedWidth (width : Nat)
  deriving DecidableEq, Repr

/-- The text of a line table error. -/
def LineInfoError.message : LineInfoError → String
  | .missing => "Failed to load line numbers"
  | .badHeader total addressSection size =>
    "Inconsistent line header: " ++ toString total ++ " total bytes, address section at " ++
      toString addressSection ++ ", blob is " ++ toString size ++ " bytes"
  | .fileSection size =>
    "File section of " ++ toString size ++ " bytes is not a whole number of segments"
  | .truncated error => "Truncated line blob: " ++ error.message
  | .unsupportedWidth width => "Unsupported line address width " ++ toString width

namespace LineTable

/-- The number of bytes of the header. -/
def headerSize : Nat := 4

/-- The name of a file, or a placeholder for a file that is not in the string table. -/
def fileName (p : Program) (fileIndex : UInt16) : Bytes :=
  let stored := match fileIndex.toNat with
    | 0 => none
    | i + 1 => p.string? i
  stored.getD (Utf8.encode ("<out of range " ++ toString fileIndex.toNat ++ ">"))

/-- Read a number of runs of lines. -/
def readFiles (p : Program) : Nat → Decode (List FileSegment)
  | 0 => return []
  | count + 1 => do
    let lineCount ← Reader.uint16
    let fileIndex ← Reader.uint16
    let rest ← readFiles p count
    return ⟨lineCount, fileIndex, fileName p fileIndex⟩ :: rest

/-- Read runs of code bytes up to the end of the window, at most `bound` of them. The next run
starts at the address `start`, and `found` has the runs so far, the last one first. -/
def readAddresses (width : Nat) : Nat → Nat → List AddressSegment → Decode (List AddressSegment)
  | 0, _, found => return found.reverse
  | bound + 1, start, found => do
    if (← get).hasMore then
      let span ← Reader.uint8
      let line ← Reader.unsigned width
      readAddresses width bound (start + span.toNat) (⟨start, span, UInt32.ofNat line⟩ :: found)
    else return found.reverse

/-- Read the two words of a header. -/
def readHeader : Decode (Nat × Nat) := do
  let total ← Reader.uint16
  let words ← Reader.uint16
  return (total.toNat, 2 * words.toNat)

/-- Run a read and give its result without the reader. -/
def result {α : Type} (action : Decode α) (r : Reader) : Except LineInfoError α :=
  match action r with
  | .ok (value, _) => .ok value
  | .error e => .error (.truncated e)

/-- Decode the line table of a program with absolute lines of the given width. -/
def decode (p : Program) (width : Nat) : Except LineInfoError LineTable :=
  match p.lineInfo with
  | none => .error .missing
  | some blob => do
    if ¬(width = 2 ∨ width = 4) then throw (.unsupportedWidth width)
    let (total, addressSection) ← result readHeader (Reader.ofBuffer blob 0)
    if addressSection < headerSize ∨ total < addressSection ∨ blob.size < total then
      throw (.badHeader total addressSection blob.size)
    if (addressSection - headerSize) % 4 ≠ 0 then
      throw (.fileSection (addressSection - headerSize))
    let files ← result (readFiles p ((addressSection - headerSize) / 4))
      (Reader.ofBuffer blob headerSize)
    let addresses ← result (readAddresses width (total - addressSection) 0 [])
      (Reader.window blob total addressSection)
    return ⟨files, addresses.toArray⟩

end LineTable
end LpcInspect
