/-!
# Numerals and columns

Numbers are written in decimal without padding, or in lowercase hexadecimal with leading zeros.
Columns are padded with blanks up to a number of characters and are never cut.
-/

namespace LpcInspect

/-- A number in lowercase hexadecimal, with at least `width` digits. -/
def hexNumeral (width n : Nat) : String :=
  String.ofList (List.leftpad width '0' (Nat.toDigits 16 n))

/-- A number in decimal, with at least `width` digits. -/
def zeroPadded (width n : Nat) : String :=
  String.ofList (List.leftpad width '0' (Nat.toDigits 10 n))

/-- An address: four hexadecimal digits, or more if it needs them. -/
def addressNumeral (n : Nat) : String := hexNumeral 4 n

/-- An address after `0x`. -/
def prefixedAddress (n : Nat) : String := "0x" ++ addressNumeral n

/-- A text at the left of a column of `width` characters. -/
def padRight (width : Nat) (text : String) : String :=
  text ++ String.ofList (List.replicate (width - text.length) ' ')

/-- A text at the right of a column of `width` characters. -/
def padLeft (width : Nat) (text : String) : String :=
  String.ofList (List.replicate (width - text.length) ' ') ++ text

end LpcInspect
