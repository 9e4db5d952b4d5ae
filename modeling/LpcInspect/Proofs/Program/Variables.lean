import LpcInspect.Proofs.Listing.OperandFields
import LpcInspect.Proofs.Program.Ancestry

/-!
# The variables of a program in one list

All variables of a program stand in one list: those of the ancestors in the order of the links, then
its own. A program finds a variable through the variable offsets of its links, and takes its own
variables to begin where those of the last link end. `Program.VariablesTiled` says that the offsets
fit the list: the variables of each link begin where those of the links before it end. Links without
variables then share their offset with the link after them, and the search finds the last of these,
which is the one that has the variable. `Program.variables_eq_allVariables` says that indices are
positions in the list.
-/

namespace LpcInspect
namespace Program

mutual

/-- The names of all variables of a program: those of the ancestors in the order of the links, then
its own. -/
def allVariables : Program → List String
  | ⟨_, _, inherits, _, _, globals, _, _, _⟩ => linkVariables inherits ++ globals

/-- The names of all variables of the ancestors. -/
def linkVariables : List (Inherit Program) → List String
  | [] => []
  | ⟨program, _, _⟩ :: rest => allVariables program ++ linkVariables rest

end

/-- The sum of the numbers of variables of the ancestors. -/
def variableTotal : List (Inherit Program) → Nat
  | [] => 0
  | link :: rest => link.program.variableCount + variableTotal rest

/-- The variables of each link begin where those of the links before it end. -/
def VariablesTiled (p : Program) : Prop :=
  ∀ (k : Nat) (link : Inherit Program), p.inherits[k]? = some link →
    link.variableOffset.toNat = variableTotal (p.inherits.take k)

theorem allVariables_eq (p : Program) : p.allVariables = linkVariables p.inherits ++ p.globals := by
  cases p
  rw [allVariables]

section Links

variable {links : List (Inherit Program)} {link : Inherit Program} {k index : Nat}

theorem linkVariables_append (xs ys : List (Inherit Program)) :
    linkVariables (xs ++ ys) = linkVariables xs ++ linkVariables ys := by
  induction xs with
  | nil => simp [linkVariables]
  | cons link rest ih => simp [linkVariables, ih]

theorem variableTotal_append (xs ys : List (Inherit Program)) :
    variableTotal (xs ++ ys) = variableTotal xs + variableTotal ys := by
  induction xs with
  | nil => simp [variableTotal]
  | cons link rest ih => simp [variableTotal, ih, Nat.add_assoc]

theorem variableTotal_take_succ (hlink : links[k]? = some link) :
    variableTotal (links.take (k + 1)) =
      variableTotal (links.take k) + link.program.variableCount := by
  rw [List.take_add_one, hlink, variableTotal_append]
  rfl

/-- More links have no fewer variables. -/
theorem variableTotal_take_le {i j : Nat} (h : i ≤ j) :
    variableTotal (links.take i) ≤ variableTotal (links.take j) := by
  obtain ⟨d, rfl⟩ := Nat.exists_eq_add_of_le h
  rw [List.take_add, variableTotal_append]
  exact Nat.le_add_right _ _

/-- The variables of the ancestors end after the last of them. -/
theorem lastVariableEnd_concat (links : List (Inherit Program)) (link : Inherit Program) :
    lastVariableEnd (links ++ [link]) = link.variableOffset.toNat + link.program.variableCount := by
  induction links with
  | nil => rw [List.nil_append, lastVariableEnd]
  | cons first rest ih =>
    cases rest with
    | nil => rw [List.cons_append, List.nil_append, lastVariableEnd, lastVariableEnd]
    | cons second rest => rw [List.cons_append, List.cons_append, lastVariableEnd, ← ih]; rfl

/-- There are as many names of the ancestors as the ancestors have variables. -/
theorem length_linkVariables
    (h : ∀ link ∈ links, link.program.variableCount = link.program.allVariables.length) :
    (linkVariables links).length = variableTotal links := by
  induction links with
  | nil => rfl
  | cons link rest ih =>
    obtain ⟨hlink, hrest⟩ := List.forall_mem_cons.mp h
    rw [linkVariables, variableTotal, List.length_append, hlink, ih hrest]

/-- The names of a link stand after those of the links before it. -/
theorem getElem?_linkVariables
    (h : ∀ link ∈ links, link.program.variableCount = link.program.allVariables.length)
    (hlink : links[k]? = some link) (hle : variableTotal (links.take k) ≤ index)
    (hlt : index < variableTotal (links.take k) + link.program.variableCount) :
    (linkVariables links)[index]? =
      link.program.allVariables[index - variableTotal (links.take k)]? := by
  obtain ⟨hk, rfl⟩ := List.getElem?_eq_some_iff.mp hlink
  have hsplit : links.take k ++ links[k] :: links.drop (k + 1) = links := by simp
  have hbefore : (linkVariables (links.take k)).length = variableTotal (links.take k) :=
    length_linkVariables fun link hmem => h link (List.mem_of_mem_take hmem)
  have hcount := h links[k] (List.getElem_mem hk)
  calc (linkVariables links)[index]?
    _ = (linkVariables (links.take k ++ links[k] :: links.drop (k + 1)))[index]? := by rw [hsplit]
    _ = (links[k].program.allVariables ++ linkVariables (links.drop (k + 1)))[index -
          variableTotal (links.take k)]? := by
      rw [linkVariables_append, List.getElem?_append_right (hbefore ▸ hle), hbefore, linkVariables]
    _ = links[k].program.allVariables[index - variableTotal (links.take k)]? :=
      List.getElem?_append_left (by omega)

end Links

namespace VariablesTiled

variable {p : Program} {index : Nat}

/-- The own variables of a program begin after those of all ancestors. -/
theorem firstVariable_eq (h : p.VariablesTiled) : p.firstVariable = variableTotal p.inherits := by
  rw [firstVariable]
  rcases List.eq_nil_or_concat p.inherits with hnil | ⟨links, link, hlinks⟩
  · rw [hnil]
    rfl
  · have hlast : p.inherits[links.length]? = some link := by simp [hlinks]
    have htake : p.inherits.take (links.length + 1) = p.inherits :=
      List.take_of_length_le (by simp [hlinks])
    calc lastVariableEnd p.inherits
      _ = link.variableOffset.toNat + link.program.variableCount := by
        rw [hlinks, List.concat_eq_append, lastVariableEnd_concat]
      _ = variableTotal (p.inherits.take links.length) + link.program.variableCount := by
        rw [h links.length link hlast]
      _ = variableTotal p.inherits := by rw [← variableTotal_take_succ hlast, htake]

/-- Variable offsets do not decrease, but may repeat. -/
theorem offsets_le (h : p.VariablesTiled) :
    p.inherits.Pairwise fun a b => a.variableOffset.toNat ≤ b.variableOffset.toNat := by
  rw [List.pairwise_iff_getElem]
  intro i j hi hj hij
  rw [h i _ (List.getElem?_eq_getElem hi), h j _ (List.getElem?_eq_getElem hj)]
  exact variableTotal_take_le (Nat.le_of_lt hij)

/-- The search finds the link that has a variable of the ancestors. -/
theorem exists_owner (h : p.VariablesTiled) (hindex : index < variableTotal p.inherits) :
    ∃ k link, variableOwnerOf? p.inherits index = some k ∧ p.inherits[k]? = some link ∧
      variableTotal (p.inherits.take k) ≤ index ∧
      index < variableTotal (p.inherits.take k) + link.program.variableCount := by
  cases howner : variableOwnerOf? p.inherits index with
  | none =>
    -- The first offset is zero, so some offset is not above the index.
    have habove := (lastHolding?_key_eq_none_iff h.offsets_le).mp howner
    cases hlinks : p.inherits with
    | nil => simp [hlinks, variableTotal] at hindex
    | cons first rest =>
      have hfirst := h 0 first (by rw [hlinks]; rfl)
      have := habove first (by simp [hlinks])
      rw [hfirst] at this
      exact absurd this (Nat.not_lt_zero _)
  | some k =>
    obtain ⟨link, hlink, hle, hlater⟩ := (lastHolding?_key_eq_some_iff h.offsets_le).mp howner
    have hoffset := h k link hlink
    refine ⟨k, link, rfl, hlink, hoffset ▸ hle, ?_⟩
    rw [← variableTotal_take_succ hlink]
    -- The variables of the link end where those of the next link begin, or all of them end.
    cases hnext : p.inherits[k + 1]? with
    | some next => exact h (k + 1) next hnext ▸ hlater (k + 1) next (Nat.lt_succ_self k) hnext
    | none =>
      rw [List.take_of_length_le (List.getElem?_eq_none_iff.mp hnext)]
      exact hindex

end VariablesTiled

/-! ### Indices are positions in the list -/

variable {p : Program}

/-- The number of variables is the length of the list. -/
theorem variableCount_eq_length (h : p.Throughout VariablesTiled) :
    p.variableCount = p.allVariables.length := by
  induction p using ancestor_induction with
  | step p ih =>
    rw [variableCount_eq, h.self.firstVariable_eq, allVariables_eq, List.length_append,
      length_linkVariables fun link hlink => ih link hlink (h.link hlink)]

/-- The name of a variable stands at its index in the list. -/
theorem variableName?_eq_getElem? (h : p.Throughout VariablesTiled) (index : Nat) :
    p.variableName? index = p.allVariables[index]? := by
  induction p using ancestor_induction generalizing index with
  | step p ih =>
    have hcounts : ∀ link ∈ p.inherits,
        link.program.variableCount = link.program.allVariables.length :=
      fun link hlink => variableCount_eq_length (h.link hlink)
    have hlength : (linkVariables p.inherits).length = p.firstVariable := by
      rw [length_linkVariables hcounts, h.self.firstVariable_eq]
    rw [variableName?_eq, allVariables_eq]
    split
    · next hown => rw [List.getElem?_append_right (hlength ▸ hown), hlength]
    · next hown =>
      -- The variable belongs to a link, and the index counts from the offset of that link.
      have hindex : index < variableTotal p.inherits := by
        rw [← h.self.firstVariable_eq]
        exact Nat.lt_of_not_le hown
      obtain ⟨k, link, howner, hlink, hle, hlt⟩ := h.self.exists_owner hindex
      have hmem : link ∈ p.inherits := List.mem_of_getElem? hlink
      rw [howner, Option.bind_some, hlink, Option.bind_some, ih link hmem (h.link hmem),
        h.self k link hlink, List.getElem?_append_left (by omega),
        getElem?_linkVariables hcounts hlink hle hlt]

/-- **The variables of a program are the positions of one list**, if the variable offsets fit the
list throughout. -/
theorem variables_eq_allVariables (p : Program) (h : p.Throughout VariablesTiled) :
    p.variableCount = p.allVariables.length ∧
    (∀ index, p.variableName? index = p.allVariables[index]?) ∧
    (∀ index, p.variableName? index = none ↔ p.variableCount ≤ index) ∧
    ∀ (opcodes : OpcodeTable) (r : Reader) (index : UInt8), r.Holds [index] →
      ∃ name, Operand.read p opcodes .globalSlot r =
          .ok (.globalSlot index name, r.seek (r.position + 1)) ∧
        name = p.allVariables[index.toNat]? ∧ (name = none ↔ p.variableCount ≤ index.toNat) ∧
        (Operand.globalSlot index name).spans =
          [.text (name.getD (Operand.outOfRange index.toNat))] := by
  have hcount := variableCount_eq_length h
  have hname := variableName?_eq_getElem? h
  refine ⟨hcount, hname, fun index => ?_, fun opcodes r index hholds => ?_⟩
  · rw [hname, List.getElem?_eq_none_iff, hcount]
  · have hshown : (if index.toNat < p.variableCount then p.variableName? index.toNat else none) =
        p.allVariables[index.toNat]? := by
      split
      · exact hname _
      · next hlt => exact (List.getElem?_eq_none (hcount ▸ Nat.le_of_not_lt hlt)).symm
    have hread : Operand.read p opcodes .globalSlot r = _ :=
      Operand.read_of_holds (.globalSlot index) hholds
    rw [OperandFields.operand, hshown] at hread
    refine ⟨_, hread, rfl, by rw [List.getElem?_eq_none_iff, hcount], ?_⟩
    cases p.allVariables[index.toNat]? <;> rfl

/-- A program with three links, of which the first has an ancestor itself and the second has no
variables. -/
def layered : Program where
  filename := "room.c"
  inherits := [
    ⟨{ inherits := [⟨{ globals := ["hp"] }, 0, 0⟩], globals := ["name"] }, 0, 0⟩,
    ⟨{}, 1, 2⟩,
    ⟨{ globals := ["buf", "len"] }, 2, 2⟩]
  globals := ["exits"]

theorem variablesTiled_leaf (globals : List String) :
    ({ globals } : Program).Throughout VariablesTiled :=
  throughout_of_no_links rfl fun _ _ hlink => nomatch hlink

theorem variables_layered :
    layered.Throughout VariablesTiled ∧ layered.variableCount = 5 ∧
      layered.variableName? 2 = some "buf" ∧ layered.variableName? 5 = none := by
  have h : layered.Throughout VariablesTiled := by
    refine throughout_iff.mpr ⟨fun k link hlink => ?_, fun link hlink => ?_⟩
    · match k, hlink with
      | 0, hlink | 1, hlink | 2, hlink =>
        cases hlink
        rfl
    · simp only [layered, List.mem_cons, List.not_mem_nil, or_false] at hlink
      rcases hlink with rfl | rfl | rfl
      · refine throughout_iff.mpr ⟨fun k link hlink => ?_, fun link hlink => ?_⟩
        · match k, hlink with
          | 0, hlink =>
            cases hlink
            rfl
        · obtain rfl := List.mem_singleton.mp hlink
          exact variablesTiled_leaf ["hp"]
      · exact variablesTiled_leaf []
      · exact variablesTiled_leaf ["buf", "len"]
  obtain ⟨hcount, hname, hnone, -⟩ := variables_eq_allVariables layered h
  exact ⟨h, hcount, hname 2, (hnone 5).mpr (Nat.le_of_eq hcount)⟩

end Program
end LpcInspect
