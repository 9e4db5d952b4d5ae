/-!
# Byte strings and little-endian numbers

Every multi-byte field of a compiled program is stored least significant byte first. This module
has the two directions, `Bytes.ofNatLE` and `Bytes.toNatLE`, and the laws that make them inverse
to each other for a fixed width.
-/

namespace LpcInspect

/-- A string of bytes, which need not be text. -/
abbrev Bytes := List UInt8

namespace Bytes

/-- The `width` low bytes of a number, least significant first. -/
def ofNatLE : Nat → Nat → Bytes
  | 0, _ => []
  | width + 1, n => UInt8.ofNat n :: ofNatLE width (n / 256)

/-- The number with the given bytes, least significant first. -/
def toNatLE : Bytes → Nat
  | [] => 0
  | b :: rest => b.toNat + 256 * toNatLE rest

/-- How many numbers `width` bytes can hold. -/
def capacity : Nat → Nat
  | 0 => 1
  | width + 1 => 256 * capacity width

@[simp] theorem ofNatLE_zero (n : Nat) : ofNatLE 0 n = [] := rfl

@[simp] theorem ofNatLE_succ (width n : Nat) :
    ofNatLE (width + 1) n = UInt8.ofNat n :: ofNatLE width (n / 256) := rfl

@[simp] theorem toNatLE_nil : toNatLE [] = 0 := rfl

@[simp] theorem toNatLE_cons (b : UInt8) (rest : Bytes) :
    toNatLE (b :: rest) = b.toNat + 256 * toNatLE rest := rfl

@[simp] theorem capacity_zero : capacity 0 = 1 := rfl

theorem capacity_succ (width : Nat) : capacity (width + 1) = 256 * capacity width := rfl

@[simp] theorem length_ofNatLE (width n : Nat) : (ofNatLE width n).length = width := by
  induction width generalizing n with
  | zero => rfl
  | succ width ih => simp [ih]

/-- Writing keeps a number modulo the capacity. -/
theorem toNatLE_ofNatLE (width n : Nat) : toNatLE (ofNatLE width n) = n % capacity width := by
  induction width generalizing n with
  | zero => simp [Nat.mod_one]
  | succ width ih =>
    have low : (UInt8.ofNat n).toNat = n % 256 := UInt8.toNat_ofNat'
    rw [ofNatLE_succ, toNatLE_cons, ih, low, capacity_succ, Nat.mod_mul]

/-- A number that fits is read back. -/
theorem toNatLE_ofNatLE_of_lt {width n : Nat} (h : n < capacity width) :
    toNatLE (ofNatLE width n) = n := by
  rw [toNatLE_ofNatLE, Nat.mod_eq_of_lt h]

/-- Bytes are read as a number below their capacity. -/
theorem toNatLE_lt (bytes : Bytes) : toNatLE bytes < capacity bytes.length := by
  induction bytes with
  | nil => simp
  | cons b rest ih =>
    rw [toNatLE_cons, List.length_cons, capacity_succ]
    have hb := b.toNat_lt
    omega

/-- The number that bytes hold gives the bytes back. -/
theorem ofNatLE_toNatLE (bytes : Bytes) : ofNatLE bytes.length (toNatLE bytes) = bytes := by
  induction bytes with
  | nil => rfl
  | cons b rest ih =>
    have hb := b.toNat_lt
    rw [List.length_cons, ofNatLE_succ, toNatLE_cons]
    congr 1
    · apply UInt8.toNat_inj.mp
      rw [UInt8.toNat_ofNat']
      omega
    · rw [Nat.add_mul_div_left _ _ (by omega), Nat.div_eq_of_lt hb, Nat.zero_add, ih]

end Bytes
end LpcInspect
