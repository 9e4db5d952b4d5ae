import LpcInspect.Text.FixedPoint
import LpcInspect.Text.Numeral
import LpcInspect.Text.Span

/-!
# Operands

An operand is what the bytes after an opcode stand for, together with the names it refers to. A
name is `none` if the operand refers to nothing in the program.
-/

namespace LpcInspect

/-- What a tag of a push stands for. -/
inductive PushClass where
  | string
  | number
  | globalSlot
  | localSlot
  deriving DecidableEq, Repr

/-- One value of a push. -/
structure PushSlot where
  kind : PushClass
  index : UInt8
  deriving DecidableEq, Repr

/-- The bound of a counted loop. -/
inductive LoopBound where
  | number (value : Int32)
  | localSlot (slot : UInt8)
  deriving DecidableEq, Repr

/-- The function of an ancestor that a call names. -/
inductive InheritedCallee where
  /-- A function of the ancestor. -/
  | found (filename name : String)
  /-- The ancestor has no such function. -/
  | outOfRange (filename : String)
  /-- There is no such ancestor. -/
  | noInherit
  deriving DecidableEq, Repr

/-- A function value. -/
inductive FunctionValue where
  /-- A function of the program. -/
  | localFunction (index : UInt16) (name : Option String)
  /-- A simulated built-in. -/
  | simulEfun (index : UInt16) (name : Option String)
  /-- A built-in. -/
  | efun (index : UInt16) (name : Option String)
  /-- An expression that follows. -/
  | functional (args : UInt8)
  /-- A function body that follows and ends at an address. -/
  | anonymous (args locals : UInt8) (endsAt : Nat)
  /-- A kind that does not exist. -/
  | unknown (kind : UInt8)
  deriving DecidableEq, Repr

/-- The header of a switch, with absolute addresses. -/
structure SwitchHeader where
  tableType : UInt8
  tableStart : Nat
  tableEnd : Nat
  fallback : Nat
  deriving DecidableEq, Repr

/-- The operand of an instruction. -/
inductive Operand where
  | bare
  | push (slots : List PushSlot)
  | branch (offset target : UInt16)
  | address (target : UInt16)
  | count (size : UInt16)
  | byte (value : UInt8)
  | negByte (magnitude : UInt8)
  | localSlot (slot : UInt8)
  | globalSlot (index : UInt8) (name : Option String)
  /-- The second slot of a `foreach` is there for a mapping only. -/
  | foreach (flags left : UInt8) (right : Option UInt8)
  | whileDec (slot : UInt8) (offset target : UInt16)
  | loopCond (slot : UInt8) (bound : LoopBound) (offset target : UInt16)
  | call (index : UInt16) (name : Option String)
  | callInherited (ancestor : UInt8) (index : UInt16) (callee : InheritedCallee)
  | simulEfun (index : UInt16) (args : UInt8) (name : Option String)
  | function (value : FunctionValue)
  | efun (index : UInt16)
  | efunV (index : UInt16) (args : UInt8)
  | expandVarargs (depth : UInt8)
  | classRef (index : UInt8) (name : Option Bytes)
  | shortInt (value : Int16)
  | number (value : Int64)
  /-- A floating-point number, by its bits. -/
  | real (bits : UInt64)
  | string (index : UInt16) (value : Option Bytes)
  | switch (header : SwitchHeader)
  deriving DecidableEq, Repr

/-- The class in the two high bits of a tag. -/
def PushClass.ofTag (tag : UInt8) : PushClass :=
  if tag < 0x40 then .string
  else if tag < 0x80 then .number
  else if tag < 0xc0 then .globalSlot
  else .localSlot

/-- The word for a class. -/
def PushClass.name : PushClass → String
  | .string => "string"
  | .number => "number"
  | .globalSlot => "global"
  | .localSlot => "local"

/-- The value that a tag names: a class, and an index in the six low bits. -/
def PushSlot.ofTag (tag : UInt8) : PushSlot := ⟨.ofTag tag, tag &&& 0x3f⟩

/-- The text of one value of a push. -/
def PushSlot.text (s : PushSlot) : String := s.kind.name ++ " " ++ toString s.index.toNat

namespace ForeachFlag

/-- The first slot is a global variable. -/
def leftGlobal : UInt8 := 0x01

/-- The second slot is a global variable. -/
def rightGlobal : UInt8 := 0x02

/-- The last slot is bound by reference. -/
def byRef : UInt8 := 0x04

/-- A mapping is walked through, with a slot for the key and one for the value. -/
def mapping : UInt8 := 0x08

/-- Whether a flag is set. -/
def isSet (flags flag : UInt8) : Bool := flags &&& flag != 0

end ForeachFlag

namespace Operand

/-- The text for a reference to nothing. -/
def outOfRange (index : Nat) : String := "<out of range " ++ toString index ++ ">"

/-- The word for the first slot of a `foreach`. -/
def foreachLeft (flags : UInt8) : String :=
  if ForeachFlag.isSet flags ForeachFlag.byRef && !ForeachFlag.isSet flags ForeachFlag.mapping then
    "ref"
  else if ForeachFlag.isSet flags ForeachFlag.leftGlobal then "global"
  else "local"

/-- The word for the second slot of a `foreach`. -/
def foreachRight (flags : UInt8) : String :=
  if ForeachFlag.isSet flags ForeachFlag.byRef && ForeachFlag.isSet flags ForeachFlag.mapping then
    "ref"
  else if ForeachFlag.isSet flags ForeachFlag.rightGlobal then "global"
  else "local"

/-- A raw offset and the address it leads to. -/
def jumpText (offset target : UInt16) : String :=
  addressNumeral offset.toNat ++ " (" ++ addressNumeral target.toNat ++ ")"

end Operand

/-- The text of the bound of a loop. -/
def LoopBound.text : LoopBound → String
  | .number value => toString value.toInt
  | .localSlot slot => "LV" ++ toString slot.toNat

/-- The text of a function value. -/
def FunctionValue.text : FunctionValue → String
  | .localFunction _ (some name) => "<local_fun> " ++ name
  | .localFunction index none => "<local_fun> " ++ Operand.outOfRange index.toNat
  | .simulEfun _ (some name) => "<simul_efun> \"" ++ name ++ "\""
  | .simulEfun index none => "<simul_efun> <invalid " ++ toString index.toNat ++ ">"
  | .efun _ (some name) => "<efun> " ++ name
  | .efun index none => "<efun> <invalid " ++ toString index.toNat ++ ">"
  | .functional args => "<functional, " ++ toString args.toNat ++ " args>\nCode:"
  | .anonymous args locals endsAt =>
    "<anonymous function, " ++ toString args.toNat ++ " args, " ++ toString locals.toNat ++
      " locals, ends at " ++ zeroPadded 4 endsAt ++ ">\nCode:"
  | .unknown kind => "<unknown function type " ++ toString kind.toNat ++ ">"

/-- The text of a call into an ancestor. -/
def InheritedCallee.text (ancestor : UInt8) (index : UInt16) : InheritedCallee → String
  | .found filename name =>
    padLeft 30 filename ++ "::" ++ padRight 12 name ++ " " ++ padLeft 5 (toString index.toNat)
  | .outOfRange filename =>
    "<out of range in " ++ padLeft 30 filename ++ " - " ++ toString index.toNat ++ ">"
  | .noInherit => "<out of range inherit " ++ toString ancestor.toNat ++ ">"

namespace Operand

/-- Whether nothing is shown of an operand. -/
def isEmpty : Operand → Bool
  | .bare => true
  | .push slots => slots.isEmpty
  | _ => false

/-- The text of an operand, with the replacement character for bytes that are not text. -/
def text : Operand → String
  | .bare => ""
  | .push slots => ", ".intercalate (slots.map PushSlot.text)
  | .branch offset target => jumpText offset target
  | .address target => addressNumeral target.toNat
  | .count size => toString size.toNat
  | .byte value => toString value.toNat
  | .negByte magnitude => "-" ++ toString magnitude.toNat
  | .localSlot slot => "LV" ++ toString slot.toNat
  | .globalSlot _ (some name) => name
  | .globalSlot index none => outOfRange index.toNat
  | .foreach flags left (some right) =>
    "(mapping) " ++ foreachLeft flags ++ " " ++ toString left.toNat ++ ", " ++
      foreachRight flags ++ " " ++ toString right.toNat
  | .foreach flags left none => "(array) " ++ foreachLeft flags ++ " " ++ toString left.toNat
  | .whileDec slot offset target =>
    "LV" ++ toString slot.toNat ++ "--, branch " ++ jumpText offset target
  | .loopCond slot bound offset target =>
    "LV" ++ toString slot.toNat ++ " < " ++ bound.text ++ " bbranch_when_non_zero " ++
      jumpText offset target
  | .call index (some name) => padRight 12 name ++ " " ++ padLeft 5 (toString index.toNat)
  | .call index none => outOfRange index.toNat
  | .callInherited ancestor index callee => callee.text ancestor index
  | .simulEfun _ args (some name) => "\"" ++ name ++ "\" " ++ toString args.toNat
  | .simulEfun index args none =>
    "<invalid " ++ toString index.toNat ++ "> " ++ toString args.toNat
  | .function value => value.text
  | .efun index => "EFUN: " ++ toString index.toNat
  | .efunV _ args => "EFUN_V ARGS: " ++ toString args.toNat
  | .expandVarargs depth =>
    if depth = 0 then "top of stack" else toString depth.toNat ++ " from top of stack"
  | .classRef _ (some name) => (Excerpt.operand name).text
  | .classRef index none => outOfRange index.toNat
  | .shortInt value => "short " ++ toString value.toInt
  | .number value => toString value.toInt
  | .real bits => (Binary64.ofBits bits).sixPlaces
  | .string _ (some value) => "\"" ++ (Excerpt.operand value).text ++ "\""
  | .string index none => outOfRange index.toNat
  | .switch header =>
    "\n      type: " ++ hexNumeral 2 header.tableType.toNat ++ " table: " ++
      addressNumeral header.tableStart ++ "-" ++ addressNumeral header.tableEnd ++ " deflt: " ++
      addressNumeral header.fallback

theorem text_classRef (index : UInt8) (name : Bytes) :
    (classRef index (some name)).text = (Excerpt.operand name).text := rfl

theorem text_string (index : UInt16) (value : Bytes) :
    (string index (some value)).text = "\"" ++ (Excerpt.operand value).text ++ "\"" := rfl

/-- An operand as it is shown. Only a string and the name of a class are more than a text. -/
def spans : Operand → List Span
  | .bare => []
  | .classRef _ (some name) => [.excerpt (.operand name)]
  | .string _ (some value) => [.text "\"", .excerpt (.operand value), .text "\""]
  | operand => [.text operand.text]

theorem text_eq (operand : Operand) : operand.text = Span.displayAll operand.spans := by
  cases operand with
  | bare => rfl
  | classRef index name =>
    cases name with
    | none => simp [spans, Span.display]
    | some name => simp [text_classRef, spans, Span.display]
  | string index value =>
    cases value with
    | none => simp [spans, Span.display]
    | some value => simp [text_string, spans, Span.display, String.append_assoc]
  | _ => simp [spans, Span.display]

/-- An operand without byte strings is made of texts. -/
theorem exists_text_of_mem_spans {operand : Operand}
    (hstring : ∀ index value, operand ≠ .string index (some value))
    (hclass : ∀ index name, operand ≠ .classRef index (some name)) :
    ∀ span ∈ operand.spans, ∃ s, span = .text s := by
  cases operand with
  | bare => simp [spans]
  | classRef index name =>
    cases name with
    | none => simp [spans]
    | some name => exact absurd rfl (hclass index name)
  | string index value =>
    cases value with
    | none => simp [spans]
    | some value => exact absurd rfl (hstring index value)
  | _ => simp [spans]

end Operand
end LpcInspect
