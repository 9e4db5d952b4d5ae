import LpcInspect.Bytes.Basic

/-!
# Fixed-width fields

A `Scalar` is a value of one of the eight field types of a byte buffer. A floating-point number is
carried by its sixty-four bits, so that every value, NaNs included, is told apart. The main
statement, `ScalarKind.decode_encode`, says that a field is read back as it was written.
-/

namespace LpcInspect

/-- The type of a field. -/
inductive ScalarKind where
  | uint8
  | uint16
  | int16
  | uint32
  | int32
  | uint64
  | int64
  | float64
  deriving DecidableEq, Repr

/-- The number of bytes a field takes. -/
def ScalarKind.width : ScalarKind → Nat
  | .uint8 => 1
  | .uint16 | .int16 => 2
  | .uint32 | .int32 => 4
  | .uint64 | .int64 | .float64 => 8

/-- A typed value; `float64` holds the bits of a number. -/
inductive Scalar where
  | uint8 (value : UInt8)
  | uint16 (value : UInt16)
  | int16 (value : Int16)
  | uint32 (value : UInt32)
  | int32 (value : Int32)
  | uint64 (value : UInt64)
  | int64 (value : Int64)
  | float64 (bits : UInt64)
  deriving DecidableEq, Repr

namespace Scalar

/-- The type of a value. -/
def kind : Scalar → ScalarKind
  | .uint8 _ => .uint8
  | .uint16 _ => .uint16
  | .int16 _ => .int16
  | .uint32 _ => .uint32
  | .int32 _ => .int32
  | .uint64 _ => .uint64
  | .int64 _ => .int64
  | .float64 _ => .float64

/-- The bit pattern of a value, as a number. -/
def toBits : Scalar → Nat
  | .uint8 v => v.toNat
  | .uint16 v => v.toNat
  | .int16 v => v.toUInt16.toNat
  | .uint32 v => v.toNat
  | .int32 v => v.toUInt32.toNat
  | .uint64 v => v.toNat
  | .int64 v => v.toUInt64.toNat
  | .float64 v => v.toNat

/-- The number a value stands for; for `float64`, its bits. -/
def toInt : Scalar → Int
  | .uint8 v => v.toNat
  | .uint16 v => v.toNat
  | .int16 v => v.toInt
  | .uint32 v => v.toNat
  | .int32 v => v.toInt
  | .uint64 v => v.toNat
  | .int64 v => v.toInt
  | .float64 v => v.toNat

/-- The little-endian bytes of a value. -/
def encode (s : Scalar) : Bytes := Bytes.ofNatLE s.kind.width s.toBits

@[simp] theorem length_encode (s : Scalar) : s.encode.length = s.kind.width := by
  simp [encode]

/-- A bit pattern fits in the width of its type. -/
theorem toBits_lt (s : Scalar) : s.toBits < Bytes.capacity s.kind.width := by
  cases s with
  | uint8 v => exact v.toNat_lt
  | uint16 v => exact v.toNat_lt
  | int16 v => exact v.toUInt16.toNat_lt
  | uint32 v => exact v.toNat_lt
  | int32 v => exact v.toUInt32.toNat_lt
  | uint64 v => exact v.toNat_lt
  | int64 v => exact v.toUInt64.toNat_lt
  | float64 v => exact v.toNat_lt

end Scalar

namespace ScalarKind

/-- The value of a type that has a given bit pattern. -/
def ofBits (n : Nat) : ScalarKind → Scalar
  | .uint8 => .uint8 (UInt8.ofNat n)
  | .uint16 => .uint16 (UInt16.ofNat n)
  | .int16 => .int16 (UInt16.ofNat n).toInt16
  | .uint32 => .uint32 (UInt32.ofNat n)
  | .int32 => .int32 (UInt32.ofNat n).toInt32
  | .uint64 => .uint64 (UInt64.ofNat n)
  | .int64 => .int64 (UInt64.ofNat n).toInt64
  | .float64 => .float64 (UInt64.ofNat n)

/-- The value of a type with the given little-endian bytes. -/
def decode (kind : ScalarKind) (bytes : Bytes) : Scalar := kind.ofBits bytes.toNatLE

@[simp] theorem ofBits_toBits (s : Scalar) : s.kind.ofBits s.toBits = s := by
  cases s <;> simp [Scalar.kind, Scalar.toBits, ofBits]

/-- A field is read back as it was written. -/
@[simp] theorem decode_encode (s : Scalar) : s.kind.decode s.encode = s := by
  rw [decode, Scalar.encode, Bytes.toNatLE_ofNatLE_of_lt s.toBits_lt, ofBits_toBits]

end ScalarKind
end LpcInspect
