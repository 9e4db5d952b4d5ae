import LpcInspect.Bytes.Basic

/-!
# Bytes as hexadecimal text

Each byte is two digits, the high one first. Digits are written in lowercase and read in either
case.
-/

namespace LpcInspect.Hex

/-- The digit of a number below sixteen. -/
def digit (n : Nat) : Char := Nat.digitChar n

/-- The value of a hexadecimal digit. -/
def digitValue? (c : Char) : Option Nat :=
  if '0' ≤ c ∧ c ≤ '9' then some (c.toNat - '0'.toNat)
  else if 'a' ≤ c ∧ c ≤ 'f' then some (c.toNat - 'a'.toNat + 10)
  else if 'A' ≤ c ∧ c ≤ 'F' then some (c.toNat - 'A'.toNat + 10)
  else none

/-- The two digits of a byte. -/
def encodeByte (b : UInt8) : List Char := [digit (b.toNat / 16), digit (b.toNat % 16)]

/-- The digits of a byte string. -/
def encode (bytes : Bytes) : String := String.ofList (bytes.flatMap encodeByte)

/-- Read digits two at a time; `found` holds the bytes so far, the last one first. -/
def decodeFrom (found : Bytes) : List Char → Option Bytes
  | [] => some found.reverse
  | [_] => none
  | high :: low :: rest =>
    match digitValue? high, digitValue? low with
    | some h, some l => decodeFrom (UInt8.ofNat (16 * h + l) :: found) rest
    | _, _ => none

/-- The bytes that an even number of digits stand for. -/
def decode? (text : String) : Option Bytes := decodeFrom [] text.toList

end LpcInspect.Hex
