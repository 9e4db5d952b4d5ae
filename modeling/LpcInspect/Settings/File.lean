import LpcInspect.Opcode.Table
import LpcInspect.Settings.Basic
import LpcInspect.Toml.Parser

/-!
# The settings file

A settings file is a TOML document with three sections, all of whose keys may be missing. A section
is a table, or an array of its values in order. Other keys and sections are ignored.
-/

namespace LpcInspect

/-- The names of built-in functions. -/
structure BuiltinNames where
  efuns : List String := []
  simulEfuns : List String := []
  deriving DecidableEq, Repr

/-- The standard instruction set with these names. -/
def BuiltinNames.table (names : BuiltinNames) : OpcodeTable :=
  OpcodeTable.standard names.efuns names.simulEfuns

/-- All settings. -/
structure Settings where
  decoder : DecoderSettings := {}
  report : ReportOptions := {}
  names : BuiltinNames := {}
  deriving DecidableEq, Repr

/-- Why a settings file cannot be used. -/
inductive SettingsFileError where
  /-- It is no TOML document, or a value has the wrong type. -/
  | malformed
  /-- A setting of the decoder cannot be used. -/
  | decoder (error : SettingsError)
  deriving DecidableEq, Repr

/-- The text of a settings file error. -/
def SettingsFileError.message : SettingsFileError → String
  | .malformed => "Failed to parse config"
  | .decoder error => "Invalid [decoder] section: " ++ error.message

namespace Toml

/-- The values of a section for some keys. A date has none of them. -/
def fields? (names : List String) : Toml → Option (List (Option Toml))
  | .table _ entries => some (names.map fun name => find? name entries)
  | .array items => some (names.zipIdx.map fun (_, i) => items[i]?)
  | .tables items => some (names.zipIdx.map fun (_, i) => items[i]?)
  | .datetime => some (names.map fun _ => none)
  | _ => none

/-- A value that may be missing. -/
def optional {α : Type} (default : α) (read? : Toml → Option α) : Option Toml → Option α
  | none => some default
  | some value => read? value

/-- A number that is not negative. -/
def natural? : Toml → Option Nat
  | .integer value => if 0 ≤ value then some value.toNat else none
  | _ => none

/-- A truth value. -/
def bool? : Toml → Option Bool
  | .bool value => some value
  | _ => none

/-- A string. -/
def string? : Toml → Option String
  | .string text => some text
  | _ => none

/-- An array of strings. -/
def strings? : Toml → Option (List String)
  | .array items => items.mapM string?
  | .tables items => items.mapM string?
  | _ => none

end Toml

/-- Read the settings of the decoder. -/
def DecoderSettings.ofToml? (value : Toml) : Option DecoderSettings := do
  let [lineAddressWidth, switchKeyWidth, maxSwitchDepth] ← value.fields? fieldNames | none
  let standard : DecoderSettings := {}
  return {
    lineAddressWidth := ← Toml.optional standard.lineAddressWidth Toml.natural? lineAddressWidth
    switchKeyWidth := ← Toml.optional standard.switchKeyWidth Toml.natural? switchKeyWidth
    maxSwitchDepth := ← Toml.optional standard.maxSwitchDepth Toml.natural? maxSwitchDepth }

/-- Read the settings of a report. -/
def ReportOptions.ofToml? (value : Toml) : Option ReportOptions := do
  let [disassemble, lineNumbers] ← value.fields? fieldNames | none
  return {
    disassemble := ← Toml.optional false Toml.bool? disassemble
    lineNumbers := ← Toml.optional false Toml.bool? lineNumbers }

/-- Read the names of built-in functions. -/
def BuiltinNames.ofToml? (value : Toml) : Option BuiltinNames := do
  let [efuns, simulEfuns] ← value.fields? ["efuns", "simul_efuns"] | none
  return {
    efuns := ← Toml.optional [] Toml.strings? efuns
    simulEfuns := ← Toml.optional [] Toml.strings? simulEfuns }

namespace Settings

/-- Read the settings from a document. -/
def ofToml? (document : Toml.Entries) : Option Settings := do
  return {
    decoder := ← Toml.optional {} DecoderSettings.ofToml? (Toml.find? "decoder" document)
    report := ← Toml.optional {} ReportOptions.ofToml? (Toml.find? "dump" document)
    names := ← Toml.optional {} BuiltinNames.ofToml? (Toml.find? "opcodes" document) }

/-- Read a settings file. -/
def parse (text : String) : Except SettingsFileError Settings :=
  match (Toml.parse? text).bind ofToml? with
  | none => .error .malformed
  | some settings =>
    match settings.decoder.error? with
    | none => .ok settings
    | some error => .error (.decoder error)

end Settings
end LpcInspect
