import LpcInspect.Bytes.Scalar

/-!
# Writing fields and patching them later

A `Writer` is the buffer of what has been emitted so far. A two-byte field whose value is not known
yet is reserved and patched when it is; a patch outside the buffer is refused.
-/

namespace LpcInspect

/-- A buffer that grows at its end. -/
structure Writer where
  buffer : Array UInt8 := #[]
  deriving DecidableEq, Repr

namespace Writer

/-- The writer that has emitted nothing. -/
def empty : Writer := {}

/-- The number of bytes emitted, which is where the next field goes. -/
def offset (w : Writer) : Nat := w.buffer.size

/-- Emit bytes as they are. -/
def bytes (w : Writer) (bs : Bytes) : Writer := ⟨w.buffer ++ bs.toArray⟩

/-- Emit a typed value. -/
def scalar (w : Writer) (s : Scalar) : Writer := w.bytes s.encode

/-- Emit one byte. -/
def uint8 (w : Writer) (value : UInt8) : Writer := w.scalar (.uint8 value)

/-- Emit an unsigned two-byte number. -/
def uint16 (w : Writer) (value : UInt16) : Writer := w.scalar (.uint16 value)

/-- Emit an unsigned four-byte number. -/
def uint32 (w : Writer) (value : UInt32) : Writer := w.scalar (.uint32 value)

/-- Emit a two-byte field to be patched later, and give its offset. -/
def reserve (w : Writer) : Nat × Writer := (w.offset, w.uint16 0)

/-- Replace the two bytes at `offset`, if both are in the buffer. -/
def patch? (w : Writer) (offset : Nat) (value : UInt16) : Option Writer :=
  if offset + 2 ≤ w.buffer.size then
    some ⟨(w.buffer.setIfInBounds offset (UInt8.ofNat value.toNat)).setIfInBounds (offset + 1)
      (UInt8.ofNat (value.toNat / 256))⟩
  else none

@[simp] theorem buffer_bytes (w : Writer) (bs : Bytes) :
    (w.bytes bs).buffer = w.buffer ++ bs.toArray := rfl

@[simp] theorem offset_bytes (w : Writer) (bs : Bytes) :
    (w.bytes bs).offset = w.offset + bs.length := by
  simp [offset]

@[simp] theorem offset_scalar (w : Writer) (s : Scalar) :
    (w.scalar s).offset = w.offset + s.kind.width := by
  simp [scalar]

/-- A patch is refused exactly when one of its two bytes is not in the buffer. -/
theorem patch?_eq_none_iff (w : Writer) (offset : Nat) (value : UInt16) :
    w.patch? offset value = none ↔ w.offset < offset + 2 := by
  unfold patch?
  split <;> simp_all [Writer.offset]

/-- A patch keeps the length of the buffer. -/
theorem offset_of_patch? {w w' : Writer} {offset : Nat} {value : UInt16}
    (h : w.patch? offset value = some w') : w'.offset = w.offset := by
  unfold patch? at h
  split at h
  · cases h
    simp [Writer.offset]
  · cases h

end Writer
end LpcInspect
