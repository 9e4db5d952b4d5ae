import LpcInspect.Proofs.Listing.OperandFields
import LpcInspect.Proofs.Program.Consistency

/-!
# Resolving functions

The definition of a function is looked for in the slot itself, if the program defines it, and
otherwise in the slot of the ancestor that owns it. In a consistent program this ends at a function
that some ancestor defines, unless it comes to an inherited slot that no ancestor owns. The check of
a program passes over the owner of a slot that is an alias as well, so that such a slot can be left
without one: `Program.AliasesOwned` says that none is.

An alias is followed only where resolution begins. A slot of an ancestor is therefore resolved from
the program that inherits it as it is from the ancestor itself as long as it is no alias of another
slot.
-/

namespace LpcInspect

namespace Program

variable {p : Program} {index : Nat} {f : FunctionEntry}

/-! ### One step of resolution -/

/-- A function that is not inherited is defined in its slot. -/
theorem definition?_of_not_inherited (hf : p.functions[index]? = some f)
    (hinherited : f.isInherited = false) : p.definition? index = some (p, f) := by
  rw [definition?_eq, hf, Option.bind_some, if_neg (by simp [hinherited])]

/-- An inherited function is defined where the owner of its slot defines it. -/
theorem definition?_of_inherited (hf : p.functions[index]? = some f)
    (hinherited : f.isInherited = true) {k : Nat} (hk : p.findInherit? index = some k)
    {link : Inherit Program} (hlink : p.inherits[k]? = some link) :
    p.definition? index = link.program.definition? (index - link.functionOffset.toNat) := by
  rw [definition?_eq, hf, Option.bind_some, if_pos hinherited, hk, Option.bind_some, hlink,
    Option.bind_some]

/-- A slot that is no alias of another slot is resolved by its definition. -/
theorem resolve?_eq_definition?
    (h : ∀ f, p.functions[index]? = some f → f.runtimeIndex index = index) :
    p.resolve? index = p.definition? index := by
  rw [resolve?]
  cases hf : p.functions[index]? with
  | none => rw [definition?_eq, hf, Option.bind_none, Option.bind_none]
  | some f => rw [Option.bind_some, h f hf]

/-- An inherited slot that is no alias is resolved by the definition in the ancestor. -/
theorem resolve?_of_inherited (hf : p.functions[index]? = some f) (halias : f.isAlias = false)
    (hinherited : f.isInherited = true) {k : Nat} (hk : p.findInherit? index = some k)
    {link : Inherit Program} (hlink : p.inherits[k]? = some link) :
    p.resolve? index = link.program.definition? (index - link.functionOffset.toNat) := by
  have hindex : f.runtimeIndex index = index := by
    rw [FunctionEntry.runtimeIndex, if_neg (by simp [halias])]
  rw [resolve?, hf, Option.bind_some, hindex, definition?_of_inherited hf hinherited hk hlink]

/-- **What is found is defined where it is found**, in the program or one of its ancestors. -/
theorem defined_of_definition? {owner : Program} {entry : FunctionEntry}
    (h : p.definition? index = some (owner, entry)) :
    (∃ trail, p.Trail trail owner) ∧ entry ∈ owner.functions ∧ entry.isInherited = false := by
  induction p using ancestor_induction generalizing index with
  | step p ih =>
    rw [definition?_eq] at h
    obtain ⟨f, hf, h⟩ := Option.bind_eq_some_iff.mp h
    split at h
    · obtain ⟨k, -, h⟩ := Option.bind_eq_some_iff.mp h
      obtain ⟨link, hlink, h⟩ := Option.bind_eq_some_iff.mp h
      have hmem : link ∈ p.inherits := List.mem_of_getElem? hlink
      obtain ⟨⟨trail, htrail⟩, hentry⟩ := ih link hmem h
      exact ⟨⟨_, .cons hmem htrail⟩, hentry⟩
    · next hinherited =>
      cases h
      exact ⟨⟨[], .nil _⟩, List.mem_of_getElem? hf, Bool.eq_false_iff.mpr hinherited⟩

/-! ### Resolution in consistent programs -/

/-- An ancestor has the function of each slot that is an alias and inherited at once. -/
def AliasesOwned (p : Program) : Prop :=
  ∀ (index : Nat) (f : FunctionEntry), p.functions[index]? = some f → f.isAlias = true →
    f.isInherited = true → p.Owned index

/-- The definition of a function is found if all inherited slots have owners. -/
theorem exists_definition? (hp : p.Throughout Consistent) (haliases : p.Throughout AliasesOwned)
    (hindex : index < p.functions.length) :
    ∃ owner entry, p.definition? index = some (owner, entry) := by
  induction p using ancestor_induction generalizing index with
  | step p ih =>
    have hf : p.functions[index]? = some p.functions[index] := List.getElem?_eq_getElem hindex
    cases hinherited : p.functions[index].isInherited with
    | false => exact ⟨p, _, definition?_of_not_inherited hf hinherited⟩
    | true =>
      -- The check sees to the owners of slots that are no aliases only.
      have howned : p.Owned index := by
        cases halias : p.functions[index].isAlias with
        | false => exact (hp.self.slots index _ hf).owner halias hinherited
        | true => exact haliases.self index _ hf halias hinherited
      obtain ⟨k, link, hk, hlink, hlt⟩ := hp.self.inheritOrder.owned_iff.mp howned
      have hmem : link ∈ p.inherits := List.mem_of_getElem? hlink
      rw [definition?_of_inherited hf hinherited hk hlink]
      exact ih link hmem (hp.link hmem) (haliases.link hmem) hlt

/-- An alias of a consistent program leads to one of its slots. -/
theorem Consistent.runtimeIndex_lt (hp : p.Consistent) (hf : p.functions[index]? = some f) :
    f.runtimeIndex index < p.functions.length := by
  unfold FunctionEntry.runtimeIndex
  split
  · next halias =>
    obtain ⟨target, htarget, hlt⟩ := (hp.slots index f hf).aliasTarget halias
    rw [htarget]
    exact hlt
  · exact (List.getElem?_eq_some_iff.mp hf).1

/-- The indices of a consistent program are those of its function table. -/
theorem Consistent.functionCount_eq (hp : p.Consistent) : p.functionCount = p.functions.length :=
  Nat.add_sub_cancel' hp.functionCount

/-- Each function of a program is resolved if all inherited slots have owners. -/
theorem exists_resolve? (hp : p.Throughout Consistent) (haliases : p.Throughout AliasesOwned)
    (hindex : index < p.functions.length) :
    ∃ owner entry, p.resolve? index = some (owner, entry) ∧ entry ∈ owner.functions ∧
      entry.isInherited = false := by
  have hf : p.functions[index]? = some p.functions[index] := List.getElem?_eq_getElem hindex
  have hresolve : p.resolve? index = p.definition? (p.functions[index].runtimeIndex index) := by
    rw [resolve?, hf, Option.bind_some]
  obtain ⟨owner, entry, hentry⟩ :=
    exists_definition? hp haliases (hp.self.runtimeIndex_lt hf)
  exact ⟨owner, entry, hresolve.trans hentry, (defined_of_definition? hentry).2⟩

/-- A call of a slot shows a name or a placeholder. -/
theorem Consistent.callee?_eq (hp : p.Consistent) (hindex : index < p.functions.length) :
    p.callee? index = some ((p.functionName? index).getD "<unresolved>") := by
  rw [callee?, if_pos (hp.functionCount_eq ▸ hindex)]

/-- A call of a function that is resolved shows the name of its definition. -/
theorem Consistent.callee?_of_resolve? (hp : p.Consistent) (hindex : index < p.functions.length)
    {owner : Program} {entry : FunctionEntry} (h : p.resolve? index = some (owner, entry)) :
    p.callee? index = some entry.name := by
  rw [hp.callee?_eq hindex, functionName?, h]
  rfl

end Program

/-! ### Calls -/

section Calls

variable {p : Program} {opcodes : OpcodeTable} {r r' : Reader}

/-- A call that is read shows the function that the program has for its index. -/
theorem Operand.name_of_read_call {index : UInt16} {name : Option String}
    (h : Operand.read p opcodes .callByAddress r = .ok (.call index name, r')) :
    name = p.callee? index.toNat := by
  obtain ⟨fields, -, hoperand, -⟩ := Operand.eq_of_read (by decide) h
  cases fields with
  | callByAddress =>
    cases hoperand
    rfl

/-- A call into an ancestor that is read shows the function that the ancestor has for its index. -/
theorem Operand.callee_of_read_callInherited {ancestor : UInt8} {index : UInt16}
    {callee : InheritedCallee}
    (h : Operand.read p opcodes .callInherited r = .ok (.callInherited ancestor index callee, r')) :
    callee = .ofIndex p ancestor index := by
  obtain ⟨fields, -, hoperand, -⟩ := Operand.eq_of_read (by decide) h
  cases fields with
  | callInherited =>
    cases hoperand
    rfl

theorem InheritedCallee.ofIndex_of_callee? {ancestor : UInt8} {index : UInt16}
    {link : Inherit Program} (hlink : p.inherits[ancestor.toNat]? = some link) {name : String}
    (hname : link.program.callee? index.toNat = some name) :
    InheritedCallee.ofIndex p ancestor index = .found link.program.filename name := by
  simp [InheritedCallee.ofIndex, hlink, hname]

end Calls

namespace Program

/-- **Every function of an accepted program is resolved**, provided that no slot is left without an
owner because it is an alias. -/
theorem resolve?_of_accepted (p : Program) (hp : p.fault? = none)
    (haliases : p.Throughout AliasesOwned) :
    (∀ index, index < p.functions.length →
      ∃ owner entry, p.resolve? index = some (owner, entry) ∧ entry ∈ owner.functions ∧
        entry.isInherited = false ∧ p.functionName? index = some entry.name) ∧
    (∀ (opcodes : OpcodeTable) (r r' : Reader) (index : UInt16) (name : Option String),
      Operand.read p opcodes .callByAddress r = .ok (.call index name, r') →
      index.toNat < p.functions.length →
      ∃ owner entry, p.resolve? index.toNat = some (owner, entry) ∧ name = some entry.name) ∧
    ∀ (opcodes : OpcodeTable) (r r' : Reader) (ancestor : UInt8) (index : UInt16)
      (callee : InheritedCallee) (link : Inherit Program),
      Operand.read p opcodes .callInherited r = .ok (.callInherited ancestor index callee, r') →
      p.inherits[ancestor.toNat]? = some link → index.toNat < link.program.functions.length →
      ∃ owner entry, link.program.resolve? index.toNat = some (owner, entry) ∧
        callee = .found link.program.filename entry.name := by
  have hp := fault?_eq_none_iff.mp hp
  refine ⟨?_, ?_, ?_⟩
  · intro index hindex
    obtain ⟨owner, entry, hresolve, hmem, hinherited⟩ := exists_resolve? hp haliases hindex
    exact ⟨owner, entry, hresolve, hmem, hinherited, by rw [functionName?, hresolve]; rfl⟩
  · intro opcodes r r' index name hread hindex
    obtain ⟨owner, entry, hresolve, -⟩ := exists_resolve? hp haliases hindex
    refine ⟨owner, entry, hresolve, ?_⟩
    rw [Operand.name_of_read_call hread, hp.self.callee?_of_resolve? hindex hresolve]
  · intro opcodes r r' ancestor index callee link hread hlink hindex
    have hmem : link ∈ p.inherits := List.mem_of_getElem? hlink
    obtain ⟨owner, entry, hresolve, -⟩ :=
      exists_resolve? (hp.link hmem) (haliases.link hmem) hindex
    refine ⟨owner, entry, hresolve, ?_⟩
    rw [Operand.callee_of_read_callInherited hread]
    exact InheritedCallee.ofIndex_of_callee? hlink
      ((hp.link hmem).self.callee?_of_resolve? hindex hresolve)

/-- A program that inherits `create` and has two more names for it. The first of them is marked as
inherited too, and the second one stands for the first. -/
def twiceAliased (functions : List FunctionEntry) : Program where
  filename := "room.c"
  inherits := [⟨{ filename := "base.c", functions }, 0, 0⟩]
  functions := [
    .ofAncestor "create",
    (FunctionEntry.aliasFor "init" 0).withFlags FunctionFlag.inherited,
    .aliasFor "setup" 1]
  lastInherited := 1

/-- An alias that is inherited and that no ancestor owns is accepted and cannot be resolved. -/
theorem twiceAliased_unresolved :
    (twiceAliased [.defined "create" 0]).fault? = none ∧
      2 < (twiceAliased [.defined "create" 0]).functions.length ∧
      (twiceAliased [.defined "create" 0]).resolve? 2 = none ∧
      (twiceAliased [.defined "create" 0]).functionName? 2 = none ∧
      (twiceAliased [.defined "create" 0]).callee? 2 = some "<unresolved>" := by
  decide +kernel

/-- With an ancestor that has a function in the slot of the first alias, all three are resolved. -/
theorem resolve?_twiceAliased :
    let p := twiceAliased [.defined "create" 0, .defined "init" 4]
    p.fault? = none ∧ p.Throughout AliasesOwned ∧ 2 < p.functions.length ∧
      ∃ owner entry, p.resolve? 2 = some (owner, entry) ∧ entry ∈ owner.functions ∧
        entry.isInherited = false ∧ p.functionName? 2 = some entry.name := by
  intro p
  have hp : p.fault? = none := by decide +kernel
  have howned : p.Owned 1 := (offsetsIncrease_singleton _).owned_iff.mpr
    ⟨0, _, by decide +kernel, rfl, by decide⟩
  have hself : p.AliasesOwned := by
    intro index f hf halias hinherited
    match index, hf with
    | 0, hf =>
      cases hf
      exact absurd halias (by decide)
    | 1, _ => exact howned
    | 2, hf =>
      cases hf
      exact absurd hinherited (by decide)
  have haliases : p.Throughout AliasesOwned := by
    refine throughout_iff.mpr ⟨hself, fun link hlink => ?_⟩
    obtain rfl := List.mem_singleton.mp hlink
    refine throughout_of_no_links rfl fun index f hf halias => ?_
    match index, hf with
    | 0, hf | 1, hf =>
      cases hf
      exact absurd halias (by decide)
  have hlt : 2 < p.functions.length := by decide
  exact ⟨hp, haliases, hlt, (resolve?_of_accepted p hp haliases).1 2 hlt⟩

/-! ### The same function by two indices -/

/-- **An inherited function is the same by both of its indices**, provided that its index in the
ancestor is no alias of another slot there. -/
theorem resolve?_eq_ancestor_resolve? (p : Program) (hp : p.fault? = none) (k j : Nat)
    (link : Inherit Program) (f : FunctionEntry) (hlink : p.inherits[k]? = some link)
    (hf : p.functions[link.functionOffset.toNat + j]? = some f) (hinherited : f.isInherited = true)
    (halias : f.isAlias = false)
    (howner : p.findInherit? (link.functionOffset.toNat + j) = some k)
    (hreal : ∀ g, link.program.functions[j]? = some g → g.runtimeIndex j = j) :
    p.resolve? (link.functionOffset.toNat + j) = link.program.resolve? j ∧
      ∃ name : String,
        (∀ (opcodes : OpcodeTable) (r r' : Reader) (index : UInt16) (shown : Option String),
          Operand.read p opcodes .callByAddress r = .ok (.call index shown, r') →
          index.toNat = link.functionOffset.toNat + j → shown = some name) ∧
        ∀ (opcodes : OpcodeTable) (r r' : Reader) (ancestor : UInt8) (index : UInt16)
          (callee : InheritedCallee),
          Operand.read p opcodes .callInherited r = .ok (.callInherited ancestor index callee, r') →
          ancestor.toNat = k → index.toNat = j → callee = .found link.program.filename name := by
  have hp := fault?_eq_none_iff.mp hp
  have hresolve : p.resolve? (link.functionOffset.toNat + j) = link.program.resolve? j := by
    rw [resolve?_of_inherited hf halias hinherited howner hlink, Nat.add_sub_cancel_left,
      resolve?_eq_definition? hreal]
  have hmem : link ∈ p.inherits := List.mem_of_getElem? hlink
  have hindex : link.functionOffset.toNat + j < p.functions.length :=
    (List.getElem?_eq_some_iff.mp hf).1
  -- The check has found an owner, which is this link.
  have hj : j < link.program.functions.length := by
    have howned := (hp.self.slots _ f hf).owner halias hinherited
    obtain ⟨k', link', hk', hlink', hlt⟩ := hp.self.inheritOrder.owned_iff.mp howned
    obtain rfl : k = k' := Option.some.inj (howner.symm.trans hk')
    obtain rfl : link = link' := Option.some.inj (hlink.symm.trans hlink')
    rwa [Nat.add_sub_cancel_left] at hlt
  have hcallee := (hp.link hmem).self.callee?_eq hj
  have hsame : p.callee? (link.functionOffset.toNat + j) = link.program.callee? j := by
    rw [hcallee, hp.self.callee?_eq hindex, functionName?, functionName?, hresolve]
  refine ⟨hresolve, (link.program.functionName? j).getD "<unresolved>", ?_, ?_⟩
  · intro opcodes r r' index shown hread hindex
    rw [Operand.name_of_read_call hread, hindex, hsame, hcallee]
  · rintro opcodes r r' ancestor index callee hread rfl rfl
    rw [Operand.callee_of_read_callInherited hread]
    exact InheritedCallee.ofIndex_of_callee? hlink hcallee

/-- A program that inherits all slots of an ancestor, of which the second is an alias of the first.
-/
def inheritedAlias : Program where
  filename := "room.c"
  inherits := [⟨{
    filename := "base.c",
    functions := [.defined "create" 0, .aliasFor "setup" 0] }, 0, 0⟩]
  functions := [.ofAncestor "create", .ofAncestor "setup"]
  lastInherited := 2

/-- The first slot is resolved as in the ancestor. -/
theorem resolve?_inheritedAlias_zero :
    inheritedAlias.fault? = none ∧ inheritedAlias.findInherit? 0 = some 0 ∧
      ∃ link, inheritedAlias.inherits[0]? = some link ∧
        inheritedAlias.resolve? 0 = link.program.resolve? 0 := by
  have hp : inheritedAlias.fault? = none := by decide +kernel
  have howner : inheritedAlias.findInherit? 0 = some 0 := by decide +kernel
  refine ⟨hp, howner, _, rfl, ?_⟩
  refine (resolve?_eq_ancestor_resolve? inheritedAlias hp 0 0 _ _ rfl rfl rfl rfl howner ?_).1
  intro g hg
  cases hg
  rfl

/-- The second slot is resolved to the alias itself, but in the ancestor to what the alias stands
for. -/
theorem resolve?_inheritedAlias_one :
    inheritedAlias.fault? = none ∧ inheritedAlias.findInherit? 1 = some 0 ∧
      ∃ link f, inheritedAlias.inherits[0]? = some link ∧
        inheritedAlias.functions[link.functionOffset.toNat + 1]? = some f ∧
        f.isInherited = true ∧ f.isAlias = false ∧
        inheritedAlias.functionName? (link.functionOffset.toNat + 1) = some "setup" ∧
        link.program.functionName? 1 = some "create" := by
  refine ⟨by decide +kernel, by decide +kernel, _, _, rfl, rfl, rfl, rfl, ?_, ?_⟩
  · decide +kernel
  · decide +kernel

end Program
end LpcInspect
