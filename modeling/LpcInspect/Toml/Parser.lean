import LpcInspect.Toml.Scalar

/-!
# Reading TOML

A document is read line by line: a comment, a header, or a key with a value.
-/

namespace LpcInspect.Toml

/-- The number of arrays and tables in braces that a value may nest. -/
def valueNesting : Nat := 79

/-- The greatest number of parts of a dotted key. -/
def keyLimit : Nat := 79

/-- Whether a character may stand in a key without quotes. -/
def isBareKeyChar (c : Char) : Bool := c.isAlphanum || c == '_' || c == '-'

/-- A part of a key. -/
def keyPart : Parser String := fun cs =>
  match cs with
  | '"' :: _ => shortString cs
  | '\x27' :: _ => shortString cs
  | _ =>
    let word := cs.takeWhile isBareKeyChar
    if word.isEmpty then none else some (String.ofList word, cs.dropWhile isBareKeyChar)

/-- A part of a key with the blanks around it, and the end of the key if no dot follows. -/
def keyRound (found : List String) : Parser (Round (List String) (List String)) := fun cs => do
  let (part, rest) ← keyPart (skipSpaces cs)
  match skipSpaces rest with
  | '.' :: rest => return (.more (part :: found), rest)
  | rest => return (.stop (part :: found).reverse, rest)

/-- A key, with the blanks around it. -/
def key : Parser (List String) := fun cs => do
  let (parts, rest) ← loop keyRound [] cs
  if parts.length ≤ keyLimit then return (parts, rest) else none

/-- The text after a comment, if there is one; it goes to the end of its line. -/
def skipComment (cs : List Char) : List Char :=
  match cs with
  | '#' :: rest => rest.dropWhile isPlain
  | cs => cs

/-- The text after the blanks, line ends and comments between the items of an array. -/
def skipGap : Nat → List Char → List Char
  | 0, cs => cs
  | bound + 1, cs =>
    match skipLines cs with
    | '#' :: rest => skipGap bound (skipComment ('#' :: rest))
    | cs => cs

/-- The text after the blanks, line ends and comments at its front. -/
def gap (cs : List Char) : List Char := skipGap (cs.length + 1) cs

/-- An item of an array and the comma or bracket after it; or the bracket alone. -/
def itemRound (value : Parser Toml) (found : List Toml) :
    Parser (Round (List Toml) (List Toml)) := fun cs =>
  match gap cs with
  | ']' :: rest => some (.stop found.reverse, rest)
  | cs => do
    let (item, rest) ← value cs
    match gap rest with
    | ',' :: rest => return (.more (item :: found), rest)
    | ']' :: rest => return (.stop (item :: found).reverse, rest)
    | _ => none

/-- A key with its value. -/
def pair (value : Parser Toml) : Parser (List String × Toml) := fun cs => do
  let (path, rest) ← key cs
  let rest ← expect? '=' rest
  let (v, rest) ← value (skipSpaces rest)
  return ((path, v), rest)

/-- A key with its value in braces, and the comma or brace after it. -/
def pairRound (value : Parser Toml) (found : List (List String × Toml)) :
    Parser (Round (List (List String × Toml)) (List (List String × Toml))) := fun cs => do
  let (p, rest) ← pair value cs
  match skipSpaces rest with
  | ',' :: rest => return (.more (p :: found), rest)
  | '\x7d' :: rest => return (.stop (p :: found).reverse, rest)
  | _ => none

/-- The keys with their values up to the closing brace. -/
def pairs (value : Parser Toml) : Parser (List (List String × Toml)) := fun cs =>
  match skipSpaces cs with
  | '\x7d' :: rest => some ([], rest)
  | cs => loop (pairRound value) [] cs

/-- A value that is no array and no table; `inner` reads those. -/
def valueWith (inner : Parser Toml) : Parser Toml := fun cs =>
  match cs with
  | '"' :: _ => (stringValue cs).map fun (text, rest) => (.string text, rest)
  | '\x27' :: _ => (stringValue cs).map fun (text, rest) => (.string text, rest)
  | 't' :: 'r' :: 'u' :: 'e' :: rest => some (.bool true, rest)
  | 'f' :: 'a' :: 'l' :: 's' :: 'e' :: rest => some (.bool false, rest)
  | '[' :: _ => inner cs
  | '\x7b' :: _ => inner cs
  | _ => numberValue cs

/-- A value with at most the given nesting of arrays and tables in braces. -/
def value : Nat → Parser Toml
  | 0 => valueWith fun _ => none
  | nesting + 1 => valueWith fun cs =>
    match cs with
    | '[' :: rest =>
      (loop (itemRound (value nesting)) [] rest).map fun (items, rest) => (.array items, rest)
    | '\x7b' :: rest => do
      let (entries, rest) ← pairs (value nesting) rest
      let table ← bracesTable? entries
      return (table, rest)
    | _ => none

/-- The text after the end of a line: blanks, a comment, and a line end or the end of the text. -/
def lineEnd? (cs : List Char) : Option (List Char) :=
  match skipComment (skipSpaces cs) with
  | [] => some []
  | rest => newline? rest

/-- A document so far: its tables, and the header below which keys are set. -/
structure Draft where
  document : Entries := []
  header : List String := []

/-- A header, after its first bracket. -/
def headerLine (draft : Draft) : Parser Draft := fun cs =>
  match cs with
  | '[' :: cs => do
    let (path, rest) ← key cs
    let rest ← expect? ']' rest
    let rest ← expect? ']' rest
    let rest ← lineEnd? rest
    let document ← openNext? path draft.document
    return (⟨document, path⟩, rest)
  | cs => do
    let (path, rest) ← key cs
    let rest ← expect? ']' rest
    let rest ← lineEnd? rest
    let document ← openTable? path draft.document
    return (⟨document, path⟩, rest)

/-- A line with a key. -/
def keyLine (draft : Draft) : Parser Draft := fun cs => do
  let ((path, v), rest) ← pair (value valueNesting) cs
  let rest ← lineEnd? rest
  let document ← setBelow? draft.header path v draft.document
  return ({ draft with document }, rest)

/-- One line of a document. -/
def lineRound (draft : Draft) : Parser (Round Draft Entries) := fun cs =>
  match skipSpaces cs with
  | [] => some (.stop draft.document, [])
  | '[' :: rest => (headerLine draft rest).map fun (draft, rest) => (.more draft, rest)
  | c :: rest =>
    if c == '#' || c == '\n' || c == '\r' then
      (lineEnd? (c :: rest)).map fun rest => (.more draft, rest)
    else (keyLine draft (c :: rest)).map fun (draft, rest) => (.more draft, rest)

/-- The document of a text; a byte order mark at its front is skipped. -/
def parse? (text : String) : Option Entries :=
  let cs := match text.toList with
    | '\ufeff' :: rest => rest
    | cs => cs
  (loop lineRound {} cs).map Prod.fst

end LpcInspect.Toml
