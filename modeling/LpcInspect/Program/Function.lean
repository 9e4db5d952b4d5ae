/-!
# Function slots

A program numbers its functions by slots. A slot is defined here, stands for a function of an
ancestor, or is another name of a slot.
-/

namespace LpcInspect

namespace FunctionFlag

/-- The body lives in an ancestor. -/
def inherited : UInt16 := 0x01

/-- Declared and never defined. -/
def undefined : UInt16 := 0x02

/-- Compiled with strict types. -/
def strictTypes : UInt16 := 0x04

/-- A prototype only. -/
def prototype : UInt16 := 0x08

/-- Takes any number of arguments. -/
def trueVarargs : UInt16 := 0x10

/-- The last arguments may be left out. -/
def varargs : UInt16 := 0x20

/-- Another name of a slot. -/
def aliased : UInt16 := 0x80

/-- Has no code of its own: an alias, a prototype, or an undefined function. -/
def noCode : UInt16 := aliased ||| prototype ||| undefined

end FunctionFlag

/-- One slot of the function table. -/
structure FunctionEntry where
  name : String := ""
  /-- A set of `FunctionFlag` bits. -/
  flags : UInt16 := 0
  argCount : UInt8 := 0
  localCount : UInt8 := 0
  /-- Where the code starts, in the program that defines the function. -/
  address : UInt16 := 0
  /-- The slot that an alias stands for. -/
  aliasOf : Option UInt16 := none
  deriving DecidableEq, Repr, Inhabited

namespace FunctionEntry

/-- A function defined at an address. -/
def defined (name : String) (address : UInt16) : FunctionEntry := { name, address }

/-- A slot whose function an ancestor defines. -/
def ofAncestor (name : String) : FunctionEntry := { name, flags := FunctionFlag.inherited }

/-- Another name of the slot `target`. -/
def aliasFor (name : String) (target : UInt16) : FunctionEntry :=
  { name, flags := FunctionFlag.aliased, aliasOf := some target }

/-- The slot with other counts of arguments and local variables. -/
def withCounts (f : FunctionEntry) (argCount localCount : UInt8) : FunctionEntry :=
  { f with argCount, localCount }

/-- The slot with more flags. -/
def withFlags (f : FunctionEntry) (extra : UInt16) : FunctionEntry :=
  { f with flags := f.flags ||| extra }

/-- Whether one of the given flags is set. -/
def has (f : FunctionEntry) (flag : UInt16) : Bool := f.flags &&& flag != 0

/-- Whether the body lives in an ancestor. -/
def isInherited (f : FunctionEntry) : Bool := f.has FunctionFlag.inherited

/-- Whether the slot is another name of a slot. -/
def isAlias (f : FunctionEntry) : Bool := f.has FunctionFlag.aliased

/-- Whether the slot has no code of its own. -/
def hasNoCode (f : FunctionEntry) : Bool := f.has FunctionFlag.noCode

/-- The slot that the slot `own` stands for: its target if it is an alias that names one. -/
def runtimeIndex (f : FunctionEntry) (own : Nat) : Nat :=
  if f.isAlias then
    match f.aliasOf with
    | some target => target.toNat
    | none => own
  else own

/-- One of the flags of two sets is set exactly if one of the flags of either set is. -/
theorem has_or (f : FunctionEntry) (a b : UInt16) : f.has (a ||| b) = (f.has a || f.has b) := by
  have hand : f.flags &&& (a ||| b) = (f.flags &&& a) ||| (f.flags &&& b) :=
    UInt16.toBitVec_inj.mp BitVec.and_or_distrib_left
  rw [Bool.eq_iff_iff]
  simp only [has, hand, bne_iff_ne, ne_eq, UInt16.or_eq_zero_iff, Bool.or_eq_true]
  exact Decidable.not_and_iff_or_not

/-- A slot has no code of its own if it is an alias, a prototype or undefined. -/
theorem hasNoCode_eq (f : FunctionEntry) :
    f.hasNoCode =
      (f.isAlias || f.has FunctionFlag.prototype || f.has FunctionFlag.undefined) := by
  rw [hasNoCode, FunctionFlag.noCode, has_or, has_or, isAlias]

end FunctionEntry
end LpcInspect
