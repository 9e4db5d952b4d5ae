import LpcInspect.Bytes.Scalar

/-!
# Bounds-checked reading

A `Reader` is a position in a window of bytes. A read either takes its whole field and moves past
it, or fails and leaves the position where it was. Reads are actions of `Decode`, so that the
fields of an instruction are read one after the other.
-/

namespace LpcInspect

/-- Why a read failed. -/
inductive ReadError where
  /-- The field that starts at `position` does not fit in the window. -/
  | unexpectedEnd (position : Nat)
  /-- No field is `width` bytes wide. -/
  | unsupportedWidth (width : Nat)
  deriving DecidableEq, Repr

/-- The text of a read error. -/
def ReadError.message : ReadError → String
  | .unexpectedEnd position => "Unexpected end of bytecode at offset " ++ toString position
  | .unsupportedWidth width => "Unsupported field width " ++ toString width

/-- A position in the window of `bytes` that ends at `stop`. -/
structure Reader where
  bytes : Array UInt8
  stop : Nat
  position : Nat
  stop_le : stop ≤ bytes.size

/-- A computation that reads fields one after the other and may run out of bytes. -/
abbrev Decode := StateT Reader (Except ReadError)

namespace Reader

/-- The reader at `position` in the bytes before `stop`. -/
def window (bytes : Array UInt8) (stop position : Nat) : Reader where
  bytes := bytes
  stop := min stop bytes.size
  position := position
  stop_le := Nat.min_le_right _ _

/-- The reader at `position` in a whole buffer. -/
def ofBuffer (bytes : Array UInt8) (position : Nat) : Reader := window bytes bytes.size position

/-- The number of bytes left in the window. -/
def remaining (r : Reader) : Nat := r.stop - r.position

/-- Whether the position is inside the window. -/
def hasMore (r : Reader) : Bool := r.position < r.stop

/-- The reader at another position of the same window. -/
def seek (r : Reader) (position : Nat) : Reader := { r with position }

/-- The position of the next read. -/
def offset : Decode Nat := fun r => .ok (r.position, r)

/-- Take `count` bytes. -/
def take (count : Nat) : Decode Bytes := fun r =>
  if r.position + count ≤ r.stop then
    .ok ((r.bytes.extract r.position (r.position + count)).toList, r.seek (r.position + count))
  else .error (.unexpectedEnd r.position)

/-- Move past `count` bytes without looking at them. -/
def skip (count : Nat) : Decode Unit := fun r =>
  if count ≤ r.remaining then .ok ((), r.seek (r.position + count))
  else .error (.unexpectedEnd r.position)

/-- Read a field of a type. -/
def scalar (kind : ScalarKind) : Decode Scalar := do
  return kind.decode (← take kind.width)

/-- Read one byte. -/
def uint8 : Decode UInt8 := do return UInt8.ofNat (← take 1).toNatLE

/-- Read an unsigned two-byte number. -/
def uint16 : Decode UInt16 := do return UInt16.ofNat (← take 2).toNatLE

/-- Read a signed two-byte number. -/
def int16 : Decode Int16 := do return (UInt16.ofNat (← take 2).toNatLE).toInt16

/-- Read a signed four-byte number. -/
def int32 : Decode Int32 := do return (UInt32.ofNat (← take 4).toNatLE).toInt32

/-- Read an unsigned eight-byte number. -/
def uint64 : Decode UInt64 := do return UInt64.ofNat (← take 8).toNatLE

/-- Read a signed eight-byte number. -/
def int64 : Decode Int64 := do return (UInt64.ofNat (← take 8).toNatLE).toInt64

/-- Read an unsigned number of two, four or eight bytes. -/
def unsigned (width : Nat) : Decode Nat :=
  if width = 2 ∨ width = 4 ∨ width = 8 then do return (← take width).toNatLE
  else throw (.unsupportedWidth width)

/-- Read `count` single bytes. -/
def uint8s : Nat → Decode (List UInt8)
  | 0 => return []
  | count + 1 => do
    let first ← uint8
    let rest ← uint8s count
    return first :: rest

/-- One move of a reader. -/
inductive Move where
  /-- Read a field of a type. -/
  | scalar (kind : ScalarKind)
  /-- Read an unsigned number of `width` bytes. -/
  | unsigned (width : Nat)
  /-- Move past `count` bytes. -/
  | skip (count : Nat)
  /-- Go to `position`. -/
  | seek (position : Nat)
  deriving DecidableEq, Repr

/-- The number that a move reads, if it reads one. -/
def Move.action : Move → Decode (Option Int)
  | .scalar kind => do return some (← Reader.scalar kind).toInt
  | .unsigned width => do return some (Int.ofNat (← Reader.unsigned width))
  | .skip count => do
    Reader.skip count
    return none
  | .seek position => fun r => .ok (none, r.seek position)

/-- Make a move; a move that fails leaves the reader as it was. -/
def move (r : Reader) (m : Move) : Except ReadError (Option Int) × Reader :=
  match m.action r with
  | .ok (value, next) => (.ok value, next)
  | .error e => (.error e, r)

@[simp] theorem position_seek (r : Reader) (position : Nat) :
    (r.seek position).position = position := rfl

@[simp] theorem stop_seek (r : Reader) (position : Nat) : (r.seek position).stop = r.stop := rfl

@[simp] theorem bytes_seek (r : Reader) (position : Nat) : (r.seek position).bytes = r.bytes := rfl

end Reader
end LpcInspect
