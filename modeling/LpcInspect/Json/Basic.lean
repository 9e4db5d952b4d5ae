/-!
# JSON values

A document is read into a value that keeps what its readers have to tell apart: a number written
with digits only from any other number, the members of an object in their order with all
duplicates, and a string literal that stands for a text from one that does not because an escape
in it names half of a surrogate pair.
-/

namespace LpcInspect

/-- A JSON value. -/
inductive Json where
  | null
  | bool (value : Bool)
  /-- A number written with digits only. -/
  | natural (value : Nat)
  /-- A number written with a sign, a point or an exponent, as it stands. -/
  | number (text : String)
  /-- A string; `none` if the literal stands for no text. -/
  | string (text : Option String)
  | array (items : List Json)
  /-- An object; a key is a string. -/
  | object (members : List (Option String × Json))
  deriving Inhabited

namespace Json

/-- The string value with a text. -/
def text (s : String) : Json := .string (some s)

/-- The object with the given members. -/
def record (members : List (String × Json)) : Json :=
  .object (members.map fun (key, value) => (some key, value))

end Json
end LpcInspect
