import LpcInspect.Bytes.Scalar

/-!
# Encoded line tables

A line table is stored as a header of two words, the runs of lines and the runs of code bytes. The
first word is the number of bytes of the whole, the second one the position of the second part in
units of two bytes. A line of code bytes is one byte for the length of the run and two or four bytes
for the absolute line.
-/

namespace LpcInspect

/-- The contents of an encoded line table. -/
structure LineBlob where
  /-- The number of bytes of an absolute line: four, and otherwise two. -/
  width : Nat
  /-- Pairs of a number of lines and a file. -/
  files : List (UInt16 × UInt16)
  /-- Pairs of a number of code bytes and an absolute line. -/
  addresses : List (UInt8 × UInt32)
  deriving DecidableEq, Repr

namespace LineBlob

/-- The bytes of a run of lines. -/
def fileBytes (run : UInt16 × UInt16) : Bytes :=
  (Scalar.uint16 run.1).encode ++ (Scalar.uint16 run.2).encode

/-- The bytes of a run of code bytes. -/
def addressBytes (width : Nat) (run : UInt8 × UInt32) : Bytes :=
  (Scalar.uint8 run.1).encode ++
    if width = 4 then (Scalar.uint32 run.2).encode else (Scalar.uint16 run.2.toUInt16).encode

/-- The bytes after the header. -/
def body (b : LineBlob) : Bytes :=
  b.files.flatMap fileBytes ++ b.addresses.flatMap (addressBytes b.width)

/-- The bytes of an encoded line table; the two words of the header wrap around. -/
def encode (b : LineBlob) : Bytes :=
  (Scalar.uint16 (UInt16.ofNat (4 + b.body.length))).encode ++
    (Scalar.uint16 (UInt16.ofNat ((4 + 4 * b.files.length) / 2))).encode ++ b.body

end LineBlob
end LpcInspect
