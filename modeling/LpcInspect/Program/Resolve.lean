import LpcInspect.Bisect
import LpcInspect.Program.Basic

/-!
# Names through the ancestors

A function index is resolved by following an alias once and then the links to ancestors, until a
program is reached that defines the function. A variable index is resolved in the ancestor that owns
it; the program's own variables come after those of its last ancestor.
-/

namespace LpcInspect.Program

/-- The position of the ancestor with the greatest function offset that is not above `index`. -/
def ownerOf? (links : List (Inherit Program)) (index : Nat) : Option Nat :=
  lastHolding? links.length fun i => links[i]?.any fun link => link.functionOffset.toNat ≤ index

/-- The position of the ancestor with the greatest variable offset that is not above `index`. -/
def variableOwnerOf? (links : List (Inherit Program)) (index : Nat) : Option Nat :=
  lastHolding? links.length fun i => links[i]?.any fun link => link.variableOffset.toNat ≤ index

/-- The position of the ancestor that owns a function index. -/
def findInherit? (p : Program) (index : Nat) : Option Nat := ownerOf? p.inherits index

mutual

/-- The program that defines the function in a slot, and its entry there. -/
def definition? : Program → Nat → Option (Program × FunctionEntry)
  | ⟨filename, code, inherits, functions, lastInherited, globals, strings, classes, lineInfo⟩,
    index =>
    match functions[index]? with
    | none => none
    | some entry =>
      if entry.isInherited then
        match ownerOf? inherits index with
        | none => none
        | some k => definitionIn? inherits k index
      else
        some (⟨filename, code, inherits, functions, lastInherited, globals, strings, classes,
          lineInfo⟩, entry)

/-- The definition of the function `index` in the ancestor at a position. -/
def definitionIn? : List (Inherit Program) → Nat → Nat → Option (Program × FunctionEntry)
  | [], _, _ => none
  | ⟨program, functionOffset, _⟩ :: _, 0, index =>
    definition? program (index - functionOffset.toNat)
  | _ :: rest, k + 1, index => definitionIn? rest k index

end

/-- The program that defines a function, and its entry there; an alias is followed once. -/
def resolve? (p : Program) (index : Nat) : Option (Program × FunctionEntry) :=
  p.functions[index]?.bind fun slot => p.definition? (slot.runtimeIndex index)

/-- The name of a function, as it is defined. -/
def functionName? (p : Program) (index : Nat) : Option String :=
  (p.resolve? index).map fun d => d.2.name

mutual

/-- The number of variable indices. -/
def variableCount : Program → Nat
  | ⟨_, _, inherits, _, _, globals, _, _, _⟩ => lastVariableEnd inherits + globals.length

/-- The first variable index after those of the last ancestor. -/
def lastVariableEnd : List (Inherit Program) → Nat
  | [] => 0
  | [⟨program, _, variableOffset⟩] => variableOffset.toNat + variableCount program
  | _ :: link :: rest => lastVariableEnd (link :: rest)

end

/-- The index of the first variable that the program declares itself. -/
def firstVariable (p : Program) : Nat := lastVariableEnd p.inherits

mutual

/-- The name of a variable. -/
def variableName? : Program → Nat → Option String
  | ⟨_, _, inherits, _, _, globals, _, _, _⟩, index =>
    if lastVariableEnd inherits ≤ index then globals[index - lastVariableEnd inherits]?
    else
      match variableOwnerOf? inherits index with
      | none => none
      | some k => variableNameIn? inherits k index

/-- The name of the variable `index` in the ancestor at a position. -/
def variableNameIn? : List (Inherit Program) → Nat → Nat → Option String
  | [], _, _ => none
  | ⟨program, _, variableOffset⟩ :: _, 0, index =>
    variableName? program (index - variableOffset.toNat)
  | _ :: rest, k + 1, index => variableNameIn? rest k index

end

/-- The name of a function that a call names: `none` outside the function table. A slot without a
definition has a placeholder for its name. -/
def callee? (p : Program) (index : Nat) : Option String :=
  if index < p.functionCount then some ((p.functionName? index).getD "<unresolved>") else none

/-- Resolution in the ancestor at a position is resolution in that ancestor. -/
theorem definitionIn?_eq (links : List (Inherit Program)) (k index : Nat) :
    definitionIn? links k index =
      links[k]?.bind fun link => link.program.definition? (index - link.functionOffset.toNat) := by
  induction links generalizing k with
  | nil => simp [definitionIn?]
  | cons link rest ih => cases k <;> simp [definitionIn?, ih]

/-- The definition in a slot, read off the slot. -/
theorem definition?_eq (p : Program) (index : Nat) :
    p.definition? index = p.functions[index]?.bind fun entry =>
      if entry.isInherited then
        (p.findInherit? index).bind fun k => p.inherits[k]?.bind fun link =>
          link.program.definition? (index - link.functionOffset.toNat)
      else some (p, entry) := by
  cases p with
  | mk filename code inherits functions lastInherited globals strings classes lineInfo =>
    rw [definition?]
    cases functions[index]? with
    | none => rfl
    | some entry =>
      simp only [Option.bind_some, findInherit?]
      split
      · cases ownerOf? inherits index with
        | none => rfl
        | some k => simp [definitionIn?_eq]
      · rfl

/-- A variable of the ancestor at a position is a variable of that ancestor. -/
theorem variableNameIn?_eq (links : List (Inherit Program)) (k index : Nat) :
    variableNameIn? links k index = links[k]?.bind fun link =>
      link.program.variableName? (index - link.variableOffset.toNat) := by
  induction links generalizing k with
  | nil => simp [variableNameIn?]
  | cons link rest ih => cases k <;> simp [variableNameIn?, ih]

/-- The variables of a program follow those of its last ancestor. -/
theorem variableCount_eq (p : Program) :
    p.variableCount = p.firstVariable + p.globals.length := by
  cases p
  rw [variableCount, firstVariable]

/-- The name of a variable, read off the tables. -/
theorem variableName?_eq (p : Program) (index : Nat) :
    p.variableName? index =
      if p.firstVariable ≤ index then p.globals[index - p.firstVariable]?
      else (variableOwnerOf? p.inherits index).bind fun k => p.inherits[k]?.bind fun link =>
        link.program.variableName? (index - link.variableOffset.toNat) := by
  cases p with
  | mk filename code inherits functions lastInherited globals strings classes lineInfo =>
    rw [variableName?, firstVariable]
    split
    · rfl
    · cases variableOwnerOf? inherits index with
      | none => rfl
      | some k => simp [variableNameIn?_eq]

end LpcInspect.Program
