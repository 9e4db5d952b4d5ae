import LpcInspect.Program.Resolve
import LpcInspect.Text.Numeral

/-!
# Consistency of programs

A program is consistent if its tables agree with each other and all its ancestors are consistent.
`Program.fault?` finds the first fault: ancestors come before the program that inherits them, and in
a program the order of its links, its function table and its class table are examined in turn.
-/

namespace LpcInspect

/-- What is wrong with a program. -/
inductive Fault where
  /-- The function offset of a link is not above that of the link before it. -/
  | inheritOrder (index : Nat) (offset previous : UInt16)
  /-- More slots belong to ancestors than there are. -/
  | functionCount (lastInherited : UInt16) (functions : Nat)
  /-- No ancestor owns the slot of an inherited function. -/
  | unresolvedInherited (index : Nat) (name : String)
  /-- An alias names no slot of the table. -/
  | aliasTarget (index : Nat) (name : String) (target : Option UInt16)
  /-- A function starts after the end of the code. -/
  | functionAddress (index : Nat) (name : String) (address : UInt16) (size : Nat)
  /-- The name of a class is not in the string table. -/
  | className (index : Nat) (name : UInt16) (strings : Nat)
  /-- An ancestor has a fault. -/
  | ancestor (filename : String) (fault : Fault)
  deriving DecidableEq, Repr

namespace Fault

/-- The target of an alias as a fault shows it. -/
def showTarget : Option UInt16 → String
  | some target => "Some(" ++ toString target.toNat ++ ")"
  | none => "None"

/-- The text of a fault. -/
def message : Fault → String
  | .inheritOrder index offset previous =>
    "Inherit " ++ toString index ++ " has function offset " ++ toString offset.toNat ++
      ", not above previous " ++ toString previous.toNat
  | .functionCount lastInherited functions =>
    "last_inherited " ++ toString lastInherited.toNat ++ " exceeds function count " ++
      toString functions
  | .unresolvedInherited index name =>
    "Inherited function " ++ toString index ++ " (" ++ name ++ ") has no owning ancestor"
  | .aliasTarget index name target =>
    "Alias " ++ toString index ++ " (" ++ name ++ ") points at missing slot " ++ showTarget target
  | .functionAddress index name address size =>
    "Function " ++ toString index ++ " (" ++ name ++ ") starts at " ++
      prefixedAddress address.toNat ++ ", program size is " ++ prefixedAddress size
  | .className index name strings =>
    "Class " ++ toString index ++ " names string " ++ toString name.toNat ++ ", table has " ++
      toString strings
  | .ancestor filename fault => "In ancestor " ++ filename ++ ": " ++ fault.message

/-- A fault and the faults it comes from, down to the program where it lies. -/
def chain : Fault → List Fault
  | .ancestor filename fault => .ancestor filename fault :: fault.chain
  | fault => [fault]

end Fault

namespace Program

/-- The first link, counted from `index`, whose function offset is not above the one before it. -/
def orderFault? : Nat → List (Inherit Program) → Option Fault
  | index, previous :: link :: rest =>
    if link.functionOffset ≤ previous.functionOffset then
      some (.inheritOrder (index + 1) link.functionOffset previous.functionOffset)
    else orderFault? (index + 1) (link :: rest)
  | _, _ => none

/-- Whether an ancestor has the function of an inherited slot. -/
def ownsSlot (p : Program) (index : Nat) : Bool :=
  match p.findInherit? index with
  | none => false
  | some k => p.inherits[k]?.any fun link =>
    index - link.functionOffset.toNat < link.program.functions.length

/-- The fault of one slot. An address is examined only for a function that the program defines, and
only if it has code at all. -/
def slotFault? (p : Program) (index : Nat) (f : FunctionEntry) : Option Fault :=
  if f.isAlias then
    if f.aliasOf.any fun target => target.toNat < p.functions.length then none
    else some (.aliasTarget index f.name f.aliasOf)
  else if f.isInherited then
    if p.ownsSlot index then none else some (.unresolvedInherited index f.name)
  else if p.lastInherited.toNat ≤ index ∧ !f.hasNoCode ∧ p.size ≠ 0 ∧ p.size ≤ f.address.toNat then
    some (.functionAddress index f.name f.address p.size)
  else none

/-- The first fault of the function table. -/
def functionFault? (p : Program) : Option Fault :=
  if p.functions.length < p.lastInherited.toNat then
    some (.functionCount p.lastInherited p.functions.length)
  else p.functions.zipIdx.findSome? fun (f, index) => p.slotFault? index f

/-- The first class whose name is not in the string table. -/
def classFault? (p : Program) : Option Fault :=
  p.classes.zipIdx.findSome? fun (c, index) =>
    if p.strings.length ≤ c.name.toNat then some (.className index c.name p.strings.length)
    else none

/-- The first fault of a program, its ancestors apart. -/
def ownFault? (p : Program) : Option Fault :=
  (orderFault? 0 p.inherits).or (p.functionFault?.or p.classFault?)

mutual

/-- The first fault of a program or one of its ancestors; a consistent program has none. -/
def fault? : Program → Option Fault
  | ⟨filename, code, inherits, functions, lastInherited, globals, strings, classes, lineInfo⟩ =>
    match ancestorFault? inherits with
    | some fault => some fault
    | none => ownFault? ⟨filename, code, inherits, functions, lastInherited, globals, strings,
        classes, lineInfo⟩

/-- The first fault of the ancestors. -/
def ancestorFault? : List (Inherit Program) → Option Fault
  | [] => none
  | ⟨program, _, _⟩ :: rest =>
    match fault? program with
    | some fault => some (.ancestor program.filename fault)
    | none => ancestorFault? rest

end

/-- The ancestors are examined before the program itself. -/
theorem fault?_eq (p : Program) : p.fault? = (ancestorFault? p.inherits).or p.ownFault? := by
  cases p with
  | mk filename code inherits functions lastInherited globals strings classes lineInfo =>
    rw [fault?]
    cases ancestorFault? inherits <;> rfl

end Program
end LpcInspect
