import LpcInspect.Json.Record

/-!
# Settings

The settings of a listing say how wide some fields are and how deep switches may nest. The settings
of a report say which parts follow the symbol tables.
-/

namespace LpcInspect

/-- The layout of line tables and switch tables, and the greatest depth of switches. -/
structure DecoderSettings where
  /-- The number of bytes of an absolute line. -/
  lineAddressWidth : Nat := 2
  /-- The number of bytes of a key in a switch table. -/
  switchKeyWidth : Nat := 8
  /-- The depth of the innermost switch whose body is listed. -/
  maxSwitchDepth : Nat := 32
  deriving DecidableEq, Repr

/-- Why settings cannot be used. -/
inductive SettingsError where
  | lineAddressWidth (width : Nat)
  | switchKeyWidth (width : Nat)
  | switchDepth
  deriving DecidableEq, Repr

/-- The text of a settings error. -/
def SettingsError.message : SettingsError → String
  | .lineAddressWidth width =>
    "Unsupported line address width " ++ toString width ++ " (expected 2 or 4)"
  | .switchKeyWidth width =>
    "Unsupported switch key width " ++ toString width ++ " (expected 2, 4 or 8)"
  | .switchDepth => "max_switch_depth must be at least 1"

/-- The parts of a report that follow the symbol tables. -/
structure ReportOptions where
  /-- The listing of the whole program. -/
  disassemble : Bool := false
  /-- The line table. -/
  lineNumbers : Bool := false
  deriving DecidableEq, Repr

/-- A number that fits in sixty-four bits. -/
def Json.word? (value : Json) : Option Nat := value.below? UInt64.size

namespace DecoderSettings

/-- The first setting that cannot be used. -/
def error? (s : DecoderSettings) : Option SettingsError :=
  if ¬(s.lineAddressWidth = 2 ∨ s.lineAddressWidth = 4) then
    some (.lineAddressWidth s.lineAddressWidth)
  else if ¬(s.switchKeyWidth = 2 ∨ s.switchKeyWidth = 4 ∨ s.switchKeyWidth = 8) then
    some (.switchKeyWidth s.switchKeyWidth)
  else if s.maxSwitchDepth = 0 then some .switchDepth
  else none

/-- The names of the settings, in order. -/
def fieldNames : List String := ["line_address_width", "switch_key_width", "max_switch_depth"]

/-- Read settings from JSON; all may be missing. -/
def ofJson? (value : Json) : Option DecoderSettings := do
  let [lineAddressWidth, switchKeyWidth, maxSwitchDepth] ← value.fields? 1 fieldNames | none
  let standard : DecoderSettings := {}
  return {
    lineAddressWidth := ← Json.optional standard.lineAddressWidth Json.word? lineAddressWidth
    switchKeyWidth := ← Json.optional standard.switchKeyWidth Json.word? switchKeyWidth
    maxSwitchDepth := ← Json.optional standard.maxSwitchDepth Json.word? maxSwitchDepth }

end DecoderSettings

namespace ReportOptions

/-- The symbol tables only. -/
def tablesOnly : ReportOptions := {}

/-- All parts. -/
def full : ReportOptions := ⟨true, true⟩

/-- The names of the options, in order. -/
def fieldNames : List String := ["disassemble", "line_numbers"]

/-- Read options from JSON; all may be missing. -/
def ofJson? (value : Json) : Option ReportOptions := do
  let [disassemble, lineNumbers] ← value.fields? 1 fieldNames | none
  return {
    disassemble := ← Json.optional false Json.bool? disassemble
    lineNumbers := ← Json.optional false Json.bool? lineNumbers }

end ReportOptions
end LpcInspect
