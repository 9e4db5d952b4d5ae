import LpcInspect.Json.Basic
import LpcInspect.Text.Numeral

/-!
# Writing JSON

A value is written over several lines: each item and each member stands on a line of its own,
indented by two blanks for each array or object around it. An empty array is `[]`, and an empty
object is a pair of braces.
-/

namespace LpcInspect.Json

/-- A character of a string literal. -/
def quoteChar (c : Char) : String :=
  if c == '"' then "\\\""
  else if c == '\\' then "\\\\"
  else if c == '\x08' then "\\b"
  else if c == '\x0c' then "\\f"
  else if c == '\n' then "\\n"
  else if c == '\r' then "\\r"
  else if c == '\t' then "\\t"
  else if c.toNat < 0x20 then "\\u" ++ hexNumeral 4 c.toNat
  else String.singleton c

/-- A string literal. -/
def quote (text : String) : String := "\"" ++ String.join (text.toList.map quoteChar) ++ "\""

/-- The blanks before a line inside of `depth` arrays and objects. -/
def indentation (depth : Nat) : String := String.ofList (List.replicate (2 * depth) ' ')

mutual

/-- A value inside of `depth` arrays and objects. -/
def render (depth : Nat) : Json → String
  | .null => "null"
  | .bool value => if value then "true" else "false"
  | .natural value => toString value
  | .number text => text
  | .string text => quote (text.getD "")
  | .array [] => "[]"
  | .array items => "[\n" ++ renderItems (depth + 1) items ++ "\n" ++ indentation depth ++ "]"
  | .object [] => "\x7b\x7d"
  | .object members =>
    "\x7b\n" ++ renderMembers (depth + 1) members ++ "\n" ++ indentation depth ++ "\x7d"

/-- The items of an array, one to a line. -/
def renderItems (depth : Nat) : List Json → String
  | [] => ""
  | [value] => indentation depth ++ render depth value
  | value :: rest => indentation depth ++ render depth value ++ ",\n" ++ renderItems depth rest

/-- The members of an object, one to a line. -/
def renderMembers (depth : Nat) : List (Option String × Json) → String
  | [] => ""
  | [(key, value)] => indentation depth ++ quote (key.getD "") ++ ": " ++ render depth value
  | (key, value) :: rest =>
    indentation depth ++ quote (key.getD "") ++ ": " ++ render depth value ++ ",\n" ++
      renderMembers depth rest

end

/-- A document over several lines. -/
def pretty (value : Json) : String := render 0 value

end LpcInspect.Json
