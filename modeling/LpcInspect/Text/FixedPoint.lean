import LpcInspect.Text.Numeral

/-!
# Floating-point numbers with six decimal places

A binary64 number is a sign and `m · 2 ^ e`, so its decimal expansion is exact. It is written with
six places: the exact value is rounded to the nearest multiple of a millionth, and a tie goes to
the even neighbour.
-/

namespace LpcInspect

/-- The quotient rounded to the nearest integer, a tie to the even neighbour. -/
def roundDiv (num den : Nat) : Nat :=
  let q := num / den
  let r := num % den
  if den < 2 * r then q + 1
  else if 2 * r = den then q + q % 2
  else q

/-- A binary64 number taken apart. -/
inductive Binary64 where
  /-- Not a number. -/
  | nan
  /-- An infinity. -/
  | infinite (negative : Bool)
  /-- `mantissa · 2 ^ (exponent - 1075)`. -/
  | finite (negative : Bool) (mantissa exponent : Nat)
  deriving DecidableEq, Repr

namespace Binary64

/-- The number with the given bits. -/
def ofBits (bits : UInt64) : Binary64 :=
  let n := bits.toNat
  let negative := n >>> 63 == 1
  let exponent := (n >>> 52) % 2048
  let fraction := n % (1 <<< 52)
  if exponent = 2047 then if fraction = 0 then .infinite negative else .nan
  else if exponent = 0 then .finite negative fraction 1
  else .finite negative (fraction + (1 <<< 52)) exponent

/-- The number of millionths in one. -/
def million : Nat := 1000000

/-- The value `mantissa · 2 ^ (exponent - 1075)` in millionths, rounded. -/
def millionths (mantissa exponent : Nat) : Nat :=
  roundDiv ((mantissa * million) <<< exponent) (1 <<< 1075)

/-- A number with six decimal places; the sign of a zero is kept. -/
def sixPlaces : Binary64 → String
  | .nan => "NaN"
  | .infinite negative => (if negative then "-" else "") ++ "inf"
  | .finite negative mantissa exponent =>
    let n := millionths mantissa exponent
    (if negative then "-" else "") ++ toString (n / million) ++ "." ++ zeroPadded 6 (n % million)

end Binary64
end LpcInspect
