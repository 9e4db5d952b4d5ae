import LpcInspect.LineTable.Basic
import LpcInspect.Listing.Operand

/-!
# Records of a listing

A listing is a sequence of records. Each record is one entry of the listing, which may be longer
than one line. It can be written as bytes, `Record.raw`, where file names and strings keep their
bytes, or as text, `Record.display`. These are the two readings of the pieces that a record is made
of, `Record.raw_eq` and `Record.display_eq`.
-/

namespace LpcInspect

/-- A decoded instruction. -/
structure Instruction where
  /-- The address of the opcode. -/
  offset : Nat
  opcode : UInt8
  mnemonic : String
  operand : Operand
  /-- The address of the instruction after it in the same window. -/
  next : Nat
  deriving DecidableEq, Repr

/-- The key of an entry of a switch table. -/
inductive SwitchKey where
  /-- A place in a direct table. -/
  | slot (index : Nat)
  /-- A number. -/
  | integer (value : Int)
  /-- A string of the program. -/
  | string (value : Bytes)
  /-- A string that the program does not have. -/
  | missingString (index : Nat)
  deriving DecidableEq, Repr

/-- Where an entry of a switch table leads. -/
inductive SwitchTarget where
  | address (target : Nat)
  /-- Nowhere: the key starts a range that the next entry ends. -/
  | rangeStart
  deriving DecidableEq, Repr

/-- An entry of a switch table. -/
structure SwitchEntry where
  key : SwitchKey
  target : SwitchTarget
  deriving DecidableEq, Repr

/-- What could not be decoded. -/
inductive Diagnostic where
  /-- The byte zero where an opcode should be. -/
  | zeroOpcode
  /-- A byte without a layout. -/
  | unknownOpcode (opcode : UInt8) (name : String)
  /-- An instruction that goes on after the end of its window. -/
  | truncated
  /-- A switch inside of too many switches. -/
  | nestingTooDeep
  /-- A switch table that does not fit in its window or ends inside of an entry. -/
  | malformedSwitch
  deriving DecidableEq, Repr

/-- An entry of a listing. -/
inductive Record where
  /-- The source line from here on. -/
  | location (place : Location)
  /-- A function of the program starts here. -/
  | functionStart (index : Nat) (name : String)
  | instruction (i : Instruction)
  /-- The table of the switch at `offset` follows. -/
  | switchTable (offset : Nat)
  | switchEntry (entry : SwitchEntry)
  /-- The least key of a direct table. -/
  | switchMinimum (value : Int32)
  | diagnostic (offset : Nat) (cause : Diagnostic)
  deriving DecidableEq, Repr

namespace Instruction

/-- The address and the mnemonic of an instruction. -/
def label (i : Instruction) : String := addressNumeral i.offset ++ ": " ++ i.mnemonic

/-- The text of an instruction. -/
def display (i : Instruction) : String :=
  i.label ++
    match i.operand with
    | .switch header => (Operand.switch header).text
    | operand => if operand.isEmpty then "" else " " ++ operand.text

/-- The bytes of an instruction. A string and the name of a class keep their bytes, all else is
text. -/
def raw (i : Instruction) : Bytes :=
  match i.operand with
  | .string _ (some value) =>
    Utf8.encode (i.label ++ " \"") ++ (Excerpt.operand value).raw ++ Utf8.encode "\""
  | .classRef _ (some name) => Utf8.encode (i.label ++ " ") ++ (Excerpt.operand name).raw
  | _ => Utf8.encode i.display

/-- An instruction as it is shown. -/
def spans (i : Instruction) : List Span :=
  .text i.label ::
    match i.operand with
    | .switch header => (Operand.switch header).spans
    | operand => if operand.isEmpty then [] else .text " " :: operand.spans

theorem display_eq (i : Instruction) : i.display = Span.displayAll i.spans := by
  rw [display, spans, Span.displayAll_cons, Span.display]
  split
  · rw [Operand.text_eq]
  · split
    · rfl
    · rw [Span.displayAll_cons, Span.display, Operand.text_eq]

theorem raw_eq (i : Instruction) : i.raw = Span.rawAll i.spans := by
  unfold raw
  split
  · next value hoperand =>
    have hquote : Utf8.encode " \"" = Utf8.encode " " ++ Utf8.encode "\"" := by decide
    simp [spans, hoperand, Operand.isEmpty, Operand.spans, Span.raw, hquote]
  · next name hoperand =>
    simp [spans, hoperand, Operand.isEmpty, Operand.spans, Span.raw]
  · next hstring hclass =>
    -- There are no byte strings left, so the bytes are those of the text.
    have hoperand := Operand.exists_text_of_mem_spans hstring hclass
    rw [i.display_eq, Span.rawAll_eq_encode]
    unfold spans
    refine List.forall_mem_cons.mpr ⟨⟨_, rfl⟩, ?_⟩
    split
    · next header hheader => exact hheader ▸ hoperand
    · split
      · simp
      · exact List.forall_mem_cons.mpr ⟨⟨_, rfl⟩, hoperand⟩

end Instruction

/-- The text of a target. -/
def SwitchTarget.text : SwitchTarget → String
  | .address target => addressNumeral target
  | .rangeStart => "<range start>"

namespace SwitchEntry

/-- The text of an entry of a switch table. -/
def display (e : SwitchEntry) : String :=
  match e.key with
  | .slot index => "\t" ++ padLeft 2 (toString index) ++ ": " ++ e.target.text
  | .integer value => "\t" ++ padRight 4 (toString value) ++ "\t" ++ e.target.text
  | .string value => "\t\"" ++ (Excerpt.operand value).text ++ "\"\t" ++ e.target.text
  | .missingString index => "\t" ++ Operand.outOfRange index ++ "\t" ++ e.target.text

/-- The bytes of an entry of a switch table. A key that is a string keeps its bytes. -/
def raw (e : SwitchEntry) : Bytes :=
  match e.key with
  | .string value =>
    Utf8.encode "\t\"" ++ (Excerpt.operand value).raw ++ Utf8.encode ("\"\t" ++ e.target.text)
  | _ => Utf8.encode e.display

/-- An entry of a switch table as it is shown. -/
def spans (e : SwitchEntry) : List Span :=
  match e.key with
  | .slot index => [.text ("\t" ++ padLeft 2 (toString index) ++ ": " ++ e.target.text)]
  | .integer value => [.text ("\t" ++ padRight 4 (toString value) ++ "\t" ++ e.target.text)]
  | .string value =>
    [.text "\t\"", .excerpt (.operand value), .text ("\"\t" ++ e.target.text)]
  | .missingString index => [.text ("\t" ++ Operand.outOfRange index ++ "\t" ++ e.target.text)]

theorem display_eq (e : SwitchEntry) : e.display = Span.displayAll e.spans := by
  unfold display spans
  split <;> simp [Span.display, String.append_assoc]

theorem raw_eq (e : SwitchEntry) : e.raw = Span.rawAll e.spans := by
  unfold raw
  split
  · next value hkey => simp [spans, hkey, Span.raw]
  · next hstring =>
    rw [e.display_eq, Span.rawAll_eq_encode]
    unfold spans
    split
    · simp
    · simp
    · next value hkey => exact absurd hkey (hstring value)
    · simp

end SwitchEntry

/-- The text of a diagnostic. -/
def Diagnostic.text : Diagnostic → String
  | .zeroOpcode => "*** zero opcode ***"
  | .unknownOpcode opcode name => "*** " ++ name ++ " (" ++ toString opcode.toNat ++ ") ***"
  | .truncated => "*** truncated instruction ***"
  | .nestingTooDeep => "*** switch nesting too deep ***"
  | .malformedSwitch => "*** malformed switch table ***"

namespace Record

/-- The text of a record, with the replacement character for bytes that are not text. -/
def display : Record → String
  | .location place => "# " ++ place.display
  | .functionStart _ name => "\n;; Function " ++ name
  | .instruction i => i.display
  | .switchTable offset => "      switch table (for " ++ addressNumeral offset ++ ")"
  | .switchEntry entry => entry.display
  | .switchMinimum value => "\tminval = " ++ toString value.toInt
  | .diagnostic offset cause => addressNumeral offset ++ ": " ++ cause.text

/-- The bytes of a record. -/
def raw : Record → Bytes
  | .location place => Utf8.encode "# " ++ place.raw
  | .instruction i => i.raw
  | .switchEntry entry => entry.raw
  | record => Utf8.encode record.display

/-- A record as it is shown. -/
def spans : Record → List Span
  | .location place => .text "# " :: place.spans
  | .functionStart _ name => [.text ("\n;; Function " ++ name)]
  | .instruction i => i.spans
  | .switchTable offset => [.text ("      switch table (for " ++ addressNumeral offset ++ ")")]
  | .switchEntry entry => entry.spans
  | .switchMinimum value => [.text ("\tminval = " ++ toString value.toInt)]
  | .diagnostic offset cause => [.text (addressNumeral offset ++ ": " ++ cause.text)]

/-- The text of a record is the text of its pieces. -/
theorem display_eq (r : Record) : r.display = Span.displayAll r.spans := by
  unfold display
  cases r with
  | location place => simp [spans, Span.display, place.display_eq]
  | instruction i => exact i.display_eq
  | switchEntry entry => exact entry.display_eq
  | functionStart | switchTable | switchMinimum | diagnostic => simp [spans, Span.display]

/-- The bytes of a record are the bytes of its pieces. -/
theorem raw_eq (r : Record) : r.raw = Span.rawAll r.spans := by
  cases r with
  | location place => rw [raw, spans, Span.rawAll_cons, Span.raw, place.raw_eq]
  | instruction i => exact i.raw_eq
  | switchEntry entry => exact entry.raw_eq
  | functionStart | switchTable | switchMinimum | diagnostic =>
    simp only [raw, display_eq]
    exact (Span.rawAll_eq_encode (by simp [spans])).symm

end Record
end LpcInspect
