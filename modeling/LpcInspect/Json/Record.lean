import LpcInspect.Json.Basic

/-!
# Records in JSON

A record is written as an object or as an array of its fields in order. In an object, fields with
other names are ignored and a field given twice is refused; in an array, fields may be missing at
the end and none may be left over. The number of arrays and objects that a reader may still enter
is passed to it, so that documents nest only so far.
-/

namespace LpcInspect.Json

/-- The value of the member with a name: `some none` if there is none, `none` if there are two. -/
def member? (members : List (Option String × Json)) (name : String) : Option (Option Json) :=
  match members.filter fun m => m.1 == some name with
  | [] => some none
  | [m] => some (some m.2)
  | _ => none

/-- The fields of a record with the given names, in their order. -/
def fields? (nesting : Nat) (names : List String) : Json → Option (List (Option Json))
  | .object members =>
    if 0 < nesting ∧ members.all (fun m => m.1.isSome) then names.mapM (member? members) else none
  | .array items =>
    if 0 < nesting ∧ items.length ≤ names.length then
      some (names.zipIdx.map fun (_, i) => items[i]?)
    else none
  | _ => none

/-- The items of an array, each read in the same way. -/
def list? {α : Type} (nesting : Nat) (read? : Json → Option α) : Json → Option (List α)
  | .array items => if 0 < nesting then items.mapM read? else none
  | _ => none

/-- A field that may be missing. -/
def optional {α : Type} (default : α) (read? : Json → Option α) : Option Json → Option α
  | none => some default
  | some value => read? value

/-- A field that must be there. -/
def required {α : Type} (read? : Json → Option α) : Option Json → Option α
  | none => none
  | some value => read? value

/-- A value that may be null. -/
def nullable {α : Type} (read? : Json → Option α) : Json → Option (Option α)
  | .null => some none
  | value => (read? value).map some

/-- A number below `bound`, written with digits only. -/
def below? (bound : Nat) : Json → Option Nat
  | .natural value => if value < bound then some value else none
  | _ => none

/-- A one-byte number. -/
def uint8? (value : Json) : Option UInt8 := (value.below? UInt8.size).map UInt8.ofNat

/-- A two-byte number. -/
def uint16? (value : Json) : Option UInt16 := (value.below? UInt16.size).map UInt16.ofNat

/-- A text. -/
def text? : Json → Option String
  | .string text => text
  | _ => none

/-- A truth value. -/
def bool? : Json → Option Bool
  | .bool value => some value
  | _ => none

end LpcInspect.Json
