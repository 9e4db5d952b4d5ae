import LpcInspect.Bytes.Basic

/-!
# UTF-8

Text is turned into bytes by `Utf8.encode`. Bytes are scanned one at a time: a well-formed sequence
gives its character, and each longest prefix of a sequence that cannot be completed gives one fault.
`Utf8.decode?` accepts bytes without faults, and `Utf8.lossy` shows every fault as the replacement
character.
-/

namespace LpcInspect.Utf8

/-- The UTF-8 bytes of a text. -/
def encode (text : String) : Bytes := text.toList.flatMap String.utf8EncodeChar

/-- A character of which at least one byte has been seen and at least one is missing. -/
structure Pending where
  /-- The bits of the code point seen so far. -/
  bits : Nat
  /-- The number of bytes still to come. -/
  missing : Nat
  /-- The least byte that may come next. -/
  low : UInt8
  /-- The greatest byte that may come next. -/
  high : UInt8
  deriving DecidableEq, Repr

/-- What a scan finds: a character, or `none` for an ill-formed sequence. -/
abbrev Item := Option Char

/-- The bits of a continuation byte that belong to the code point. -/
def payload (b : UInt8) : Nat := b.toNat % 64

/-- The start of a sequence at its first byte. -/
def start (b : UInt8) : Option Pending × List Item :=
  if b < 0x80 then (none, [some (Char.ofNat b.toNat)])
  else if b < 0xc2 then (none, [none])
  else if b < 0xe0 then (some ⟨b.toNat % 32, 1, 0x80, 0xbf⟩, [])
  else if b = 0xe0 then (some ⟨0, 2, 0xa0, 0xbf⟩, [])
  else if b = 0xed then (some ⟨13, 2, 0x80, 0x9f⟩, [])
  else if b < 0xf0 then (some ⟨b.toNat % 16, 2, 0x80, 0xbf⟩, [])
  else if b = 0xf0 then (some ⟨0, 3, 0x90, 0xbf⟩, [])
  else if b < 0xf4 then (some ⟨b.toNat % 8, 3, 0x80, 0xbf⟩, [])
  else if b = 0xf4 then (some ⟨4, 3, 0x80, 0x8f⟩, [])
  else (none, [none])

/-- One byte of a scan: the character still pending after it and the items it completes. A byte
that cannot continue a sequence makes the sequence a fault and starts the next one. -/
def feed : Option Pending → UInt8 → Option Pending × List Item
  | none, b => start b
  | some p, b =>
    if p.low ≤ b ∧ b ≤ p.high then
      let bits := p.bits * 64 + payload b
      if p.missing ≤ 1 then (none, [some (Char.ofNat bits)])
      else (some ⟨bits, p.missing - 1, 0x80, 0xbf⟩, [])
    else ((start b).1, none :: (start b).2)

/-- Scan bytes; `found` holds the items so far, the last one first. A sequence cut off by the end
of the bytes is one fault. -/
def scanFrom : Option Pending → List Item → Bytes → List Item
  | none, found, [] => found.reverse
  | some _, found, [] => (none :: found).reverse
  | p, found, b :: rest =>
    let (next, items) := feed p b
    scanFrom next (items.reverse ++ found) rest

/-- The characters and faults of a byte string, in order. -/
def scan (bytes : Bytes) : List Item := scanFrom none [] bytes

/-- The text of well-formed bytes. -/
def decode? (bytes : Bytes) : Option String :=
  let items := scan bytes
  if items.all Option.isSome then some (String.ofList (items.filterMap id)) else none

/-- The text of any bytes, with the replacement character for each fault. -/
def lossy (bytes : Bytes) : String :=
  String.ofList ((scan bytes).map fun item => item.getD '\ufffd')

@[simp] theorem encode_append (s t : String) : encode (s ++ t) = encode s ++ encode t := by
  simp [encode]

/-- The items found before a scan come first in its result. -/
theorem scanFrom_found (p : Option Pending) (found : List Item) (bytes : Bytes) :
    scanFrom p found bytes = found.reverse ++ scanFrom p [] bytes := by
  induction bytes generalizing p found with
  | nil => cases p <;> simp [scanFrom]
  | cons b rest ih =>
    have step : ∀ q, scanFrom q (((feed p b).2).reverse ++ found) rest =
        found.reverse ++ scanFrom q (((feed p b).2).reverse ++ []) rest := by
      intro q
      rw [ih q ((feed p b).2.reverse ++ found), ih q ((feed p b).2.reverse ++ [])]
      simp
    cases p <;> exact step _

end LpcInspect.Utf8
