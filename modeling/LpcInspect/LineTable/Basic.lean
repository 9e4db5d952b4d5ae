import LpcInspect.Bisect
import LpcInspect.Text.Numeral
import LpcInspect.Text.Span

/-!
# Line tables

A compiler numbers the lines of a source file and of all the files it includes in one sequence of
absolute lines. A line table has two parts: runs of absolute lines that come from one file, and runs
of code bytes that come from one absolute line. Both are cumulative.
-/

namespace LpcInspect

/-- A run of absolute lines from one file. -/
structure FileSegment where
  /-- The number of lines. -/
  lineCount : UInt16
  /-- The file, as a position in the string table counted from one. -/
  fileIndex : UInt16
  fileName : Bytes
  deriving DecidableEq, Repr

/-- A run of code bytes from one absolute line. -/
structure AddressSegment where
  /-- The address of the first byte. -/
  start : Nat
  /-- The number of bytes. -/
  span : UInt8
  /-- The absolute line. -/
  line : UInt32
  deriving DecidableEq, Repr

/-- A line of a source file. -/
structure Location where
  file : Bytes
  line : Nat
  deriving DecidableEq, Repr

namespace Location

/-- The bytes of a file name and of its line, divided by a colon. -/
def raw (l : Location) : Bytes := l.file ++ Utf8.encode (":" ++ toString l.line)

/-- The text of a file name, with the replacement character for bytes that are not text, and of its
line. -/
def display (l : Location) : String := Utf8.lossy l.file ++ ":" ++ toString l.line

/-- The file name and the line, divided by a colon. -/
def spans (l : Location) : List Span := [.bytes l.file, .text (":" ++ toString l.line)]

theorem raw_eq (l : Location) : l.raw = Span.rawAll l.spans := by
  simp [raw, spans, Span.raw]

theorem display_eq (l : Location) : l.display = Span.displayAll l.spans := by
  simp [display, spans, Span.display, String.append_assoc]

end Location

/-- The line table of a program. -/
structure LineTable where
  files : List FileSegment
  addresses : Array AddressSegment
  deriving DecidableEq, Repr

namespace LineTable

/-- The absolute line of the code byte at an address. -/
def absoluteLine? (t : LineTable) (address : Nat) : Option UInt32 :=
  match lastHolding? t.addresses.size fun i => t.addresses[i]?.any (·.start ≤ address) with
  | none => none
  | some k => t.addresses[k]?.bind fun segment =>
    if address < segment.start + segment.span.toNat then some segment.line else none

/-- The number of lines in the runs of one file. -/
def linesOf (fileIndex : UInt16) : List FileSegment → Nat
  | [] => 0
  | segment :: rest =>
    (if segment.fileIndex = fileIndex then segment.lineCount.toNat else 0) + linesOf fileIndex rest

/-- The place of an absolute line in the files, where `before` has the runs already passed and
`first` is the first absolute line of the run that comes next. -/
def fileLineIn? (absolute : Nat) (before : List FileSegment) (first : Nat) :
    List FileSegment → Option Location
  | [] => none
  | segment :: rest =>
    if first ≤ absolute ∧ absolute < first + segment.lineCount.toNat then
      some ⟨segment.fileName, absolute - first + 1 + linesOf segment.fileIndex before⟩
    else fileLineIn? absolute (segment :: before) (first + segment.lineCount.toNat) rest

/-- The file and the line in it of an absolute line. The lines of a file are counted through all its
runs, so that a file goes on where it left off after an included file. -/
def fileLine? (t : LineTable) (absolute : Nat) : Option Location :=
  fileLineIn? absolute [] 1 t.files

/-- The source line of the instruction at an address. -/
def locate? (t : LineTable) (address : Nat) : Option Location :=
  (t.absoluteLine? address).bind fun absolute => t.fileLine? absolute.toNat

/-- The line of a run of absolute lines. -/
def fileSpans (s : FileSegment) : List Span :=
  [.text (toString s.lineCount.toNat ++ " lines from " ++ toString s.fileIndex.toNat ++ " ["),
    .bytes s.fileName, .text "]"]

/-- The line of a run of code bytes; an empty run ends before it starts, unless it starts at
zero. -/
def addressSpans (s : AddressSegment) : List Span :=
  [.text (addressNumeral s.start ++ "-" ++ addressNumeral (s.start + s.span.toNat - 1) ++ ": " ++
    toString s.line.toNat)]

/-- The lines of both tables. -/
def lines (t : LineTable) : List (List Span) :=
  [[], [.text "absolute line -> (file, line) table:"]] ++ t.files.map fileSpans ++
    [[], [.text "address -> absolute line table:"]] ++ t.addresses.toList.map addressSpans

end LineTable
end LpcInspect
