import LpcInspect.Text.Hex

/-!
# JSON tokens

A document is cut into tokens one character at a time. The lexer keeps what it is in the middle of:
a word, a number, or a string with its escapes. Numbers and words are gathered first and examined
when they end.
-/

namespace LpcInspect.Json

/-- A token of a document. -/
inductive Token where
  | openArray
  | closeArray
  | openObject
  | closeObject
  | comma
  | colon
  | null
  | bool (value : Bool)
  | natural (value : Nat)
  | number (text : String)
  | string (text : Option String)
  deriving DecidableEq, Repr

/-- A part of a string literal. -/
inductive LiteralPart where
  /-- A character, or an escape for one. -/
  | char (c : Char)
  /-- An escape with four digits. -/
  | unit (n : Nat)
  deriving DecidableEq, Repr

/-- Whether a code unit is the first half of a surrogate pair. -/
def isHighSurrogate (n : Nat) : Bool := 0xd800 ≤ n && n < 0xdc00

/-- Whether a code unit is the second half of a surrogate pair. -/
def isLowSurrogate (n : Nat) : Bool := 0xdc00 ≤ n && n < 0xe000

/-- The characters of a literal; `found` holds those so far, the last one first. Two escapes for a
surrogate pair are one character, and half a pair alone is none. -/
def literalFrom (found : List Char) : List LiteralPart → Option (List Char)
  | [] => some found.reverse
  | .char c :: rest => literalFrom (c :: found) rest
  | .unit n :: rest =>
    if isHighSurrogate n then
      match rest with
      | .unit m :: rest =>
        if isLowSurrogate m then
          literalFrom (Char.ofNat (0x10000 + (n - 0xd800) * 0x400 + (m - 0xdc00)) :: found) rest
        else none
      | _ => none
    else if isLowSurrogate n then none
    else literalFrom (Char.ofNat n :: found) rest

/-- The text of a literal. -/
def literalText? (parts : List LiteralPart) : Option String :=
  (literalFrom [] parts).map String.ofList

/-- The token of a word. -/
def wordToken? (word : List Char) : Option Token :=
  if word = ['n', 'u', 'l', 'l'] then some .null
  else if word = ['t', 'r', 'u', 'e'] then some (.bool true)
  else if word = ['f', 'a', 'l', 's', 'e'] then some (.bool false)
  else none

/-- Digits that start with no superfluous zero. -/
def isInteger (digits : List Char) : Bool :=
  match digits with
  | [] => false
  | '0' :: rest => rest.isEmpty
  | digits => digits.all Char.isDigit

/-- At least one digit and nothing else. -/
def isDigits (digits : List Char) : Bool := !digits.isEmpty && digits.all Char.isDigit

/-- An exponent, or nothing. -/
def isExponent : List Char → Bool
  | [] => true
  | e :: rest =>
    (e == 'e' || e == 'E') &&
      match rest with
      | '+' :: digits => isDigits digits
      | '-' :: digits => isDigits digits
      | digits => isDigits digits

/-- What may follow the integer part of a number: a fraction, an exponent, both or nothing. -/
def isNumberTail : List Char → Bool
  | '.' :: rest =>
    isDigits (rest.takeWhile Char.isDigit) && isExponent (rest.dropWhile Char.isDigit)
  | rest => isExponent rest

/-- Whether characters are a number without its sign. -/
def isUnsignedNumber (chars : List Char) : Bool :=
  isInteger (chars.takeWhile Char.isDigit) && isNumberTail (chars.dropWhile Char.isDigit)

/-- The value of decimal digits. -/
def decimalValue (digits : List Char) : Nat :=
  digits.foldl (fun n c => 10 * n + (c.toNat - '0'.toNat)) 0

/-- The token of a number. -/
def numberToken? (chars : List Char) : Option Token :=
  if isInteger chars then some (.natural (decimalValue chars))
  else
    let unsigned := match chars with
      | '-' :: rest => rest
      | chars => chars
    if isUnsignedNumber unsigned then some (.number (String.ofList chars)) else none

/-- What the lexer is in the middle of. Characters gathered so far stand the last one first. -/
inductive LexState where
  /-- Between two tokens. -/
  | between
  /-- In a word. -/
  | word (gathered : List Char)
  /-- In a number. -/
  | number (gathered : List Char)
  /-- In a string. -/
  | string (parts : List LiteralPart)
  /-- After a backslash in a string. -/
  | escape (parts : List LiteralPart)
  /-- In an escape with four digits, of which `missing` are still to come. -/
  | digits (parts : List LiteralPart) (missing value : Nat)
  deriving DecidableEq, Repr

/-- Whether a character may stand in a number. -/
def isNumberChar (c : Char) : Bool :=
  c.isDigit || c == '-' || c == '+' || c == '.' || c == 'e' || c == 'E'

/-- A character outside of all tokens. -/
def lexBetween (c : Char) : Option (LexState × List Token) :=
  if c == ' ' || c == '\t' || c == '\n' || c == '\r' then some (.between, [])
  else if c == '[' then some (.between, [.openArray])
  else if c == ']' then some (.between, [.closeArray])
  else if c == '\x7b' then some (.between, [.openObject])
  else if c == '\x7d' then some (.between, [.closeObject])
  else if c == ',' then some (.between, [.comma])
  else if c == ':' then some (.between, [.colon])
  else if c == '"' then some (.string [], [])
  else if c.isDigit || c == '-' then some (.number [c], [])
  else if c.isLower then some (.word [c], [])
  else none

/-- The character that a one-letter escape stands for. -/
def escapedChar? (c : Char) : Option Char :=
  if c == '"' || c == '\\' || c == '/' then some c
  else if c == 'b' then some '\x08'
  else if c == 'f' then some '\x0c'
  else if c == 'n' then some '\n'
  else if c == 'r' then some '\r'
  else if c == 't' then some '\t'
  else none

/-- One character: the state after it and the tokens it completes, the last one first. -/
def lexStep : LexState → Char → Option (LexState × List Token)
  | .between, c => lexBetween c
  | .word gathered, c =>
    if c.isLower then some (.word (c :: gathered), [])
    else do
      let token ← wordToken? gathered.reverse
      let (state, tokens) ← lexBetween c
      return (state, tokens ++ [token])
  | .number gathered, c =>
    if isNumberChar c then some (.number (c :: gathered), [])
    else do
      let token ← numberToken? gathered.reverse
      let (state, tokens) ← lexBetween c
      return (state, tokens ++ [token])
  | .string parts, c =>
    if c == '"' then some (.between, [.string (literalText? parts.reverse)])
    else if c == '\\' then some (.escape parts, [])
    else if c.toNat < 0x20 then none
    else some (.string (.char c :: parts), [])
  | .escape parts, c =>
    if c == 'u' then some (.digits parts 4 0, [])
    else (escapedChar? c).map fun c => (.string (.char c :: parts), [])
  | .digits parts missing value, c =>
    (Hex.digitValue? c).map fun d =>
      if missing ≤ 1 then (.string (.unit (16 * value + d) :: parts), [])
      else (.digits parts (missing - 1) (16 * value + d), [])

/-- The tokens that the end of the document completes. -/
def lexEnd : LexState → Option (List Token)
  | .between => some []
  | .word gathered => (wordToken? gathered.reverse).map fun token => [token]
  | .number gathered => (numberToken? gathered.reverse).map fun token => [token]
  | _ => none

/-- Cut characters into tokens; `found` holds those so far, the last one first. -/
def lexFrom : LexState → List Token → List Char → Option (List Token)
  | state, found, [] => (lexEnd state).map fun tokens => (tokens ++ found).reverse
  | state, found, c :: rest =>
    match lexStep state c with
    | some (next, tokens) => lexFrom next (tokens ++ found) rest
    | none => none

/-- The tokens of a document. -/
def lex? (text : String) : Option (List Token) := lexFrom .between [] text.toList

end LpcInspect.Json
