import LpcInspect.Text.Hex
import LpcInspect.Toml.Basic

/-!
# Strings, numbers and dates in TOML

A parser takes characters from the front of a text and gives the rest. Repetition is a loop that
runs at most once for each character.
-/

namespace LpcInspect.Toml

/-- A parser gives a value and the text after it, or fails. -/
abbrev Parser (α : Type) := List Char → Option (α × List Char)

/-- One round of a loop: go on in another state, or stop with a value. -/
inductive Round (σ α : Type) where
  | more (state : σ)
  | stop (value : α)

/-- At most `bound` rounds of a loop. -/
def rounds {σ α : Type} (round : σ → Parser (Round σ α)) : Nat → σ → Parser α
  | 0, _, _ => none
  | bound + 1, state, cs =>
    match round state cs with
    | some (.more state, rest) => rounds round bound state rest
    | some (.stop value, rest) => some (value, rest)
    | none => none

/-- A loop whose rounds take at least one character, the last one apart. -/
def loop {σ α : Type} (round : σ → Parser (Round σ α)) (state : σ) : Parser α := fun cs =>
  rounds round (cs.length + 1) state cs

/-- Whether a character separates words on a line. -/
def isSpace (c : Char) : Bool := c == ' ' || c == '\t'

/-- The text after the blanks at its front. -/
def skipSpaces (cs : List Char) : List Char := cs.dropWhile isSpace

/-- The text after a line end at its front. -/
def newline? : List Char → Option (List Char)
  | '\n' :: rest => some rest
  | '\r' :: '\n' :: rest => some rest
  | _ => none

/-- The text after the blanks and line ends at its front. -/
def skipLines : List Char → List Char
  | ' ' :: rest => skipLines rest
  | '\t' :: rest => skipLines rest
  | '\n' :: rest => skipLines rest
  | '\r' :: '\n' :: rest => skipLines rest
  | cs => cs

/-- Whether a character may stand in a string or comment: all but control characters, and a tab. -/
def isPlain (c : Char) : Bool := c == '\t' || (0x20 ≤ c.toNat && c.toNat != 0x7f)

/-- The number of some hexadecimal digits. -/
def hexValue? (digits : List Char) : Option Nat :=
  digits.foldlM (fun n c => (Hex.digitValue? c).map (16 * n + ·)) 0

/-- The character with a code point. -/
def charOf? (n : Nat) : Option Char := if n.isValidChar then some (Char.ofNat n) else none

/-- An escape with a number of hexadecimal digits. -/
def codePoint (size : Nat) : Parser Char := fun cs =>
  if cs.length < size then none
  else do
    let n ← hexValue? (cs.take size)
    let c ← charOf? n
    return (c, cs.drop size)

/-- An escape, after its backslash. -/
def escape : Parser Char
  | 'b' :: rest => some ('\x08', rest)
  | 't' :: rest => some ('\t', rest)
  | 'n' :: rest => some ('\n', rest)
  | 'f' :: rest => some ('\x0c', rest)
  | 'r' :: rest => some ('\r', rest)
  | '"' :: rest => some ('"', rest)
  | '\\' :: rest => some ('\\', rest)
  | 'u' :: rest => codePoint 4 rest
  | 'U' :: rest => codePoint 8 rest
  | _ => none

/-- A string ends; its characters stand the last one first. -/
def finished (found : List Char) : Round (List Char) String := .stop (String.ofList found.reverse)

/-- A character of a string between double quotes. -/
def basicRound (found : List Char) : Parser (Round (List Char) String)
  | '"' :: rest => some (finished found, rest)
  | '\\' :: rest => (escape rest).map fun (c, rest) => (.more (c :: found), rest)
  | c :: rest => if isPlain c then some (.more (c :: found), rest) else none
  | [] => none

/-- A character of a string between single quotes. -/
def literalRound (found : List Char) : Parser (Round (List Char) String)
  | '\x27' :: rest => some (finished found, rest)
  | c :: rest => if isPlain c then some (.more (c :: found), rest) else none
  | [] => none

/-- Some quotes in a string over several lines. Three end it, with up to two before them that belong
to the string. -/
def quotesRound (quote : Char) (found cs : List Char) : Round (List Char) String × List Char :=
  let count := (cs.takeWhile (· == quote)).length
  if count < 3 then (.more (List.replicate count quote ++ found), cs.drop count)
  else
    let inner := min (count - 3) 2
    (finished (List.replicate inner quote ++ found), cs.drop (inner + 3))

/-- A character of a string over several lines between double quotes. A backslash at the end of a
line takes away the line end and all blanks and line ends after it. -/
def longBasicRound (found cs : List Char) : Option (Round (List Char) String × List Char) :=
  match cs with
  | [] => none
  | c :: rest =>
    if c == '"' then some (quotesRound '"' found cs)
    else if c == '\\' then
      match newline? (skipSpaces rest) with
      | some rest => some (.more found, skipLines rest)
      | none => (escape rest).map fun (c, rest) => (.more (c :: found), rest)
    else
      match newline? cs with
      | some rest => some (.more ('\n' :: found), rest)
      | none => if isPlain c then some (.more (c :: found), rest) else none

/-- A character of a string over several lines between single quotes. -/
def longLiteralRound (found cs : List Char) : Option (Round (List Char) String × List Char) :=
  match cs with
  | [] => none
  | c :: rest =>
    if c == '\x27' then some (quotesRound '\x27' found cs)
    else
      match newline? cs with
      | some rest => some (.more ('\n' :: found), rest)
      | none => if isPlain c then some (.more (c :: found), rest) else none

/-- The text of a long string starts after a line end that directly follows the quotes. -/
def afterOpening (cs : List Char) : List Char := (newline? cs).getD cs

/-- A string on one line. -/
def shortString : Parser String
  | '"' :: rest => loop basicRound [] rest
  | '\x27' :: rest => loop literalRound [] rest
  | _ => none

/-- A string. -/
def stringValue : Parser String
  | '"' :: '"' :: '"' :: rest => loop longBasicRound [] (afterOpening rest)
  | '\x27' :: '\x27' :: '\x27' :: rest => loop longLiteralRound [] (afterOpening rest)
  | cs => shortString cs

/-- Further digits of a number, which single underscores may divide; those found so far stand the
last one first. -/
def moreDigits (isDigit : Char → Bool) (found : List Char) : List Char → List Char × List Char
  | '_' :: c :: rest =>
    if isDigit c then moreDigits isDigit (c :: found) rest else (found.reverse, '_' :: c :: rest)
  | c :: rest =>
    if isDigit c then moreDigits isDigit (c :: found) rest else (found.reverse, c :: rest)
  | [] => (found.reverse, [])

/-- One or more digits. -/
def digits (isDigit : Char → Bool) : Parser (List Char)
  | c :: rest => if isDigit c then some (moreDigits isDigit [c] rest) else none
  | [] => none

/-- The digits of a decimal integer, without a superfluous zero. -/
def integerDigits : Parser (List Char)
  | '0' :: rest => some (['0'], rest)
  | cs => digits Char.isDigit cs

/-- A sign: whether it is a minus. -/
def sign : List Char → Bool × List Char
  | '-' :: rest => (true, rest)
  | '+' :: rest => (false, rest)
  | cs => (false, cs)

/-- The number of some digits in a base. -/
def valueIn (base : Nat) (digits : List Char) : Nat :=
  digits.foldl (fun n c => base * n + (Hex.digitValue? c).getD 0) 0

/-- An integer that fits in sixty-four bits. -/
def integerOf? (n : Int) : Option Toml :=
  if Int64.minValue.toInt ≤ n ∧ n ≤ Int64.maxValue.toInt then some (.integer n) else none

/-- The integer in a base after its two characters of prefix. -/
def basedInteger (base : Nat) (cs : List Char) : Option (Toml × List Char) := do
  let isDigit (c : Char) := (Hex.digitValue? c).any (· < base)
  let (ds, rest) ← digits isDigit cs
  let value ← integerOf? (valueIn base ds)
  return (value, rest)

/-- An integer. -/
def integerValue : Parser Toml
  | '0' :: 'x' :: rest => basedInteger 16 rest
  | '0' :: 'o' :: rest => basedInteger 8 rest
  | '0' :: 'b' :: rest => basedInteger 2 rest
  | cs => do
    let (negative, cs) := sign cs
    let (ds, rest) ← integerDigits cs
    let n := valueIn 10 ds
    let value ← integerOf? (if negative then -(n : Int) else n)
    return (value, rest)

/-- The fraction of a number: its digits. -/
def fraction : Parser (List Char)
  | '.' :: rest => digits Char.isDigit rest
  | _ => none

/-- The exponent of a number. -/
def exponent : Parser Int
  | c :: rest =>
    if c == 'e' || c == 'E' then do
      let (negative, rest) := sign rest
      let (ds, rest) ← digits Char.isDigit rest
      let n := valueIn 10 ds
      return (if negative then -(n : Int) else n, rest)
    else none
  | [] => none

/-- The least number that is infinite as a floating-point number. -/
def infinityBound : Nat := (1 <<< 1024) - (1 <<< 970)

/-- Whether the number with some digits and a decimal exponent is infinite as a floating-point
number. An exponent is looked at only so far as it can matter. -/
def overflows (ds : List Char) (exponent : Int) : Bool :=
  let n := valueIn 10 ds
  if n = 0 then false
  else if exponent < 0 then
    let shift := min exponent.natAbs ds.length
    exponent.natAbs ≤ ds.length && infinityBound * Nat.pow 10 shift ≤ n
  else infinityBound ≤ n * Nat.pow 10 (min exponent.natAbs 400)

/-- A floating-point number: it has a fraction, an exponent or both, or is not finite by name. -/
def floatValue : Parser Toml := fun cs =>
  let (negative, unsigned) := sign cs
  match unsigned with
  | 'i' :: 'n' :: 'f' :: rest => some (.float, rest)
  | 'n' :: 'a' :: 'n' :: rest => some (.float, rest)
  | _ => do
    let (whole, rest) ← integerDigits unsigned
    let (ds, places, scale, rest) ←
      match fraction rest with
      | some (part, rest) =>
        match exponent rest with
        | some (scale, rest) => some (whole ++ part, part.length, scale, rest)
        | none => some (whole ++ part, part.length, 0, rest)
      | none => (exponent rest).map fun (scale, rest) => (whole, 0, scale, rest)
    if !negative && overflows ds (scale - places) then none else return (.float, rest)

/-- A number of exactly two digits between two bounds. -/
def twoDigits (low high : Nat) : Parser Nat
  | a :: b :: rest =>
    if a.isDigit && b.isDigit then
      let n := valueIn 10 [a, b]
      if low ≤ n ∧ n ≤ high then some (n, rest) else none
    else none
  | _ => none

/-- The text after a character at its front. -/
def expect? (c : Char) : List Char → Option (List Char)
  | d :: rest => if d == c then some rest else none
  | [] => none

/-- The number of days of a month. -/
def daysIn (year month : Nat) : Nat :=
  if month = 2 then
    if year % 4 = 0 ∧ (year % 100 ≠ 0 ∨ year % 400 = 0) then 29 else 28
  else if month = 4 ∨ month = 6 ∨ month = 9 ∨ month = 11 then 30
  else 31

/-- The text after a date. -/
def date? (cs : List Char) : Option (List Char) := do
  let (century, rest) ← twoDigits 0 99 cs
  let (year, rest) ← twoDigits 0 99 rest
  let rest ← expect? '-' rest
  let (month, rest) ← twoDigits 1 12 rest
  let rest ← expect? '-' rest
  let (_, rest) ← twoDigits 1 (daysIn (100 * century + year) month) rest
  return rest

/-- The text after a time of day. -/
def time? (cs : List Char) : Option (List Char) := do
  let (_, rest) ← twoDigits 0 23 cs
  let rest ← expect? ':' rest
  let (_, rest) ← twoDigits 0 59 rest
  let rest ← expect? ':' rest
  let (_, rest) ← twoDigits 0 60 rest
  match rest with
  | '.' :: part =>
    if (part.takeWhile Char.isDigit).isEmpty then some rest else some (part.dropWhile Char.isDigit)
  | rest => some rest

/-- The text after an offset from universal time, if there is one. -/
def afterOffset (cs : List Char) : List Char :=
  match cs with
  | 'Z' :: rest => rest
  | 'z' :: rest => rest
  | c :: rest =>
    if c == '+' || c == '-' then
      ((do
        let (_, rest) ← twoDigits 0 23 rest
        let rest ← expect? ':' rest
        let (_, rest) ← twoDigits 0 59 rest
        return rest) : Option (List Char)).getD cs
    else cs
  | [] => []

/-- A date, a time of day, or both. -/
def datetimeValue : Parser Toml := fun cs =>
  match date? cs with
  | some rest =>
    match rest with
    | c :: clock =>
      if c == 'T' || c == 't' || c == ' ' then
        match time? clock with
        | some rest => some (.datetime, afterOffset rest)
        | none => some (.datetime, rest)
      else some (.datetime, rest)
    | [] => some (.datetime, [])
  | none => (time? cs).map fun rest => (.datetime, rest)

/-- A number, a date or a time. -/
def numberValue : Parser Toml := fun cs =>
  ((datetimeValue cs).or (floatValue cs)).or (integerValue cs)

end LpcInspect.Toml
