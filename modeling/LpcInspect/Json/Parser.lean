import LpcInspect.Json.Basic
import LpcInspect.Json.Token

/-!
# Reading JSON

The value of a document is built from its tokens with a stack of the arrays and objects that are
still open, so a document may nest to any depth.
-/

namespace LpcInspect.Json

/-- An array or object that is still open. Its contents stand the last one first. -/
inductive Open where
  | array (items : List Json)
  /-- An object with the key of the member that comes next. -/
  | object (members : List (Option String × Json)) (key : Option String)

/-- What the next token has to be. -/
inductive Expected where
  /-- A value. -/
  | value
  /-- A value, or the end of the array that was just opened. -/
  | firstItem
  /-- A key, or the end of the object that was just opened. -/
  | firstKey
  /-- A key. -/
  | key
  /-- A colon. -/
  | colon
  /-- A comma, or the end of the innermost array or object. -/
  | separator
  deriving DecidableEq, Repr

/-- Where the reading of a document stands. -/
inductive ReadState where
  /-- In the document, inside of the open arrays and objects, the innermost one first. -/
  | inside (opened : List Open) (expected : Expected)
  /-- After the document. -/
  | done (value : Json)

/-- A value has been read completely. -/
def complete (value : Json) : List Open → ReadState
  | [] => .done value
  | .array items :: outer => .inside (.array (value :: items) :: outer) .separator
  | .object members key :: outer =>
    .inside (.object ((key, value) :: members) key :: outer) .separator

/-- A token where a value has to start. -/
def readValue (opened : List Open) : Token → Option ReadState
  | .openArray => some (.inside (.array [] :: opened) .firstItem)
  | .openObject => some (.inside (.object [] none :: opened) .firstKey)
  | .null => some (complete .null opened)
  | .bool value => some (complete (.bool value) opened)
  | .natural value => some (complete (.natural value) opened)
  | .number text => some (complete (.number text) opened)
  | .string text => some (complete (.string text) opened)
  | _ => none

/-- The end of the innermost array or object. -/
def readClose : List Open → Token → Option ReadState
  | .array items :: outer, .closeArray => some (complete (.array items.reverse) outer)
  | .object members _ :: outer, .closeObject => some (complete (.object members.reverse) outer)
  | _, _ => none

/-- A key of the innermost object. -/
def readKey : List Open → Token → Option ReadState
  | .object members _ :: outer, .string key => some (.inside (.object members key :: outer) .colon)
  | _, _ => none

/-- One token of a document. -/
def readToken : ReadState → Token → Option ReadState
  | .inside opened .value, token => readValue opened token
  | .inside opened .firstItem, token => (readClose opened token).or (readValue opened token)
  | .inside opened .firstKey, token => (readClose opened token).or (readKey opened token)
  | .inside opened .key, token => readKey opened token
  | .inside opened .colon, .colon => some (.inside opened .value)
  | .inside (.array items :: outer) .separator, .comma =>
    some (.inside (.array items :: outer) .value)
  | .inside (.object members key :: outer) .separator, .comma =>
    some (.inside (.object members key :: outer) .key)
  | .inside opened .separator, token => readClose opened token
  | _, _ => none

/-- Read tokens one after the other. -/
def readTokens : ReadState → List Token → Option ReadState
  | state, [] => some state
  | state, token :: rest =>
    match readToken state token with
    | some next => readTokens next rest
    | none => none

/-- The value of a list of tokens. -/
def ofTokens? (tokens : List Token) : Option Json :=
  match readTokens (.inside [] .value) tokens with
  | some (.done value) => some value
  | _ => none

/-- The value of a document. -/
def parse? (text : String) : Option Json := (lex? text).bind ofTokens?

end LpcInspect.Json
