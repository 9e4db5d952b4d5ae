import LpcInspect.Text.Hex

/-!
# Addresses on the command line

An address is a decimal number, or a hexadecimal one after `0x` or `0X`. It may have a plus sign and
must fit in sixty-four bits.
-/

namespace LpcInspect

/-- Why a text is no number. -/
inductive NumberError where
  | empty
  | invalidDigit
  | tooLarge
  deriving DecidableEq, Repr

/-- The text of a number error. -/
def NumberError.message : NumberError → String
  | .empty => "cannot parse integer from empty string"
  | .invalidDigit => "invalid digit found in string"
  | .tooLarge => "number too large to fit in target type"

namespace Address

/-- The value of a digit in a base up to sixteen. -/
def digitIn? (base : Nat) (c : Char) : Option Nat := (Hex.digitValue? c).filter (· < base)

/-- Read digits from left to right; the first one that is wrong or makes the number too large
decides. -/
def digitsFrom (base : Nat) (n : Nat) : List Char → Except NumberError Nat
  | [] => .ok n
  | c :: rest =>
    match digitIn? base c with
    | none => .error .invalidDigit
    | some d =>
      let next := base * n + d
      if next < UInt64.size then digitsFrom base next rest else .error .tooLarge

/-- Read a number in a base, with an optional plus sign; a sign alone is no number. -/
def number (base : Nat) : List Char → Except NumberError Nat
  | [] => .error .empty
  | ['+'] => .error .invalidDigit
  | '+' :: rest => digitsFrom base 0 rest
  | cs => digitsFrom base 0 cs

/-- Read an address. -/
def parse (text : String) : Except NumberError Nat :=
  match text.toList with
  | '0' :: 'x' :: rest => number 16 rest
  | '0' :: 'X' :: rest => number 16 rest
  | cs => number 10 cs

/-- The text about an address that is no number. -/
def errorMessage (text : String) (e : NumberError) : String :=
  "invalid address '" ++ text ++ "': " ++ e.message

end Address
end LpcInspect
