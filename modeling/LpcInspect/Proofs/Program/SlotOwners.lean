import Mathlib.Data.List.MinMax
import Mathlib.Data.Nat.PSub
import LpcInspect.Proofs.Program.Consistency

/-!
# The search for the owner of a slot

The owner of a slot is searched for by halving the list of links, which is right as long as the
function offsets increase, as they do in an accepted program. `Program.scanOwner?` goes through all
links instead and asks nothing of their order, and `OffsetsIncrease.findInherit?_eq_scanOwner?` says
that both find the same link.

The index of a slot in its owner is a difference of numbers. `Program.checkedResolve?` and
`Program.checkedOwnsSlot?` take each of these differences, and each link at a position, only if
there is one, and give up otherwise. They never do, whatever the order of the links: no search ends
at a link that was not seen to begin at or before the slot.
-/

namespace LpcInspect.Program

variable {p : Program} {index : Nat}

/-! ### All links in turn -/

/-- The position of the link with the greatest function offset among those that are not above
`index`, found by looking at every link. -/
def scanOwner? (links : List (Inherit Program)) (index : Nat) : Option Nat :=
  ((links.zipIdx.filter fun entry => entry.1.functionOffset.toNat ≤ index).argmax fun entry =>
    entry.1.functionOffset.toNat).map fun entry => entry.2

section Scan

variable {links : List (Inherit Program)} {k : Nat}

theorem mem_filter_zipIdx_iff {link : Inherit Program} :
    (link, k) ∈ (links.zipIdx.filter fun entry => entry.1.functionOffset.toNat ≤ index) ↔
      links[k]? = some link ∧ link.functionOffset.toNat ≤ index := by
  rw [List.mem_filter, List.mk_mem_zipIdx_iff_getElem?, decide_eq_true_eq]

/-- If the scan finds no link, they all begin after the slot. -/
theorem lt_of_scanOwner?_eq_none (h : scanOwner? links index = none) :
    ∀ link ∈ links, index < link.functionOffset.toNat := by
  rw [scanOwner?, Option.map_eq_none_iff, List.argmax_eq_none] at h
  intro link hlink
  obtain ⟨k, hk⟩ := List.mem_iff_getElem?.mp hlink
  refine Nat.lt_of_not_le fun hle => ?_
  have hmem := mem_filter_zipIdx_iff.mpr ⟨hk, hle⟩
  rw [h] at hmem
  exact List.not_mem_nil hmem

/-- The link that the scan finds has the greatest function offset that is not above the slot. -/
theorem greatest_of_scanOwner?_eq_some (h : scanOwner? links index = some k) :
    ∃ link, links[k]? = some link ∧ link.functionOffset.toNat ≤ index ∧
      ∀ (j : Nat) (other : Inherit Program), links[j]? = some other →
        other.functionOffset.toNat ≤ index → other.functionOffset ≤ link.functionOffset := by
  obtain ⟨⟨link, k⟩, hmax, rfl⟩ := Option.map_eq_some_iff.mp h
  obtain ⟨hk, hle⟩ := mem_filter_zipIdx_iff.mp (List.argmax_mem hmax)
  refine ⟨link, hk, hle, fun j other hj hother => ?_⟩
  have hgreatest := List.le_of_mem_argmax (mem_filter_zipIdx_iff.mpr ⟨hj, hother⟩) hmax
  exact UInt16.le_iff_toNat_le.mpr hgreatest

end Scan

namespace OffsetsIncrease

/-- A slot has no owner exactly if all links begin after it. -/
theorem findInherit?_eq_none_iff_forall (h : OffsetsIncrease p.inherits) :
    p.findInherit? index = none ↔ ∀ link ∈ p.inherits, index < link.functionOffset.toNat :=
  lastHolding?_key_eq_none_iff h.offsets_le

/-- All links begin after a slot as soon as the first one does. -/
theorem findInherit?_eq_none_iff (h : OffsetsIncrease p.inherits) :
    p.findInherit? index = none ↔ p.inherits = [] ∨
      ∃ first, p.inherits[0]? = some first ∧ index < first.functionOffset.toNat := by
  rw [h.findInherit?_eq_none_iff_forall]
  have hle := h.offsets_le
  cases hlinks : p.inherits with
  | nil => simp
  | cons first rest =>
    rw [hlinks, List.pairwise_cons] at hle
    rw [List.forall_mem_cons]
    constructor
    · rintro ⟨hfirst, -⟩
      exact .inr ⟨first, rfl, hfirst⟩
    · rintro (hnil | ⟨first', hfirst', hlt⟩)
      · cases hnil
      · cases hfirst'
        exact ⟨hlt, fun link hlink => Nat.lt_of_lt_of_le hlt (hle.1 link hlink)⟩

/-- **The search by halving finds what a look at every link finds.** -/
theorem findInherit?_eq_scanOwner? (h : OffsetsIncrease p.inherits) :
    p.findInherit? index = scanOwner? p.inherits index := by
  cases hscan : scanOwner? p.inherits index with
  | none => exact h.findInherit?_eq_none_iff_forall.mpr (lt_of_scanOwner?_eq_none hscan)
  | some k => exact h.findInherit?_eq_some_iff_greatest.mpr (greatest_of_scanOwner?_eq_some hscan)

end OffsetsIncrease

/-! ### Differences of indices -/

mutual

/-- `definition?` with a check of each step to an owner. It is `none` if there is no link at the
position of the owner, or if the owner begins after the slot. -/
def checkedDefinition? : Program → Nat → Option (Option (Program × FunctionEntry))
  | ⟨filename, code, inherits, functions, lastInherited, globals, strings, classes, lineInfo⟩,
    index =>
    match functions[index]? with
    | none => some none
    | some entry =>
      if entry.isInherited then
        match ownerOf? inherits index with
        | none => some none
        | some k => checkedDefinitionIn? inherits k index
      else
        some (some (⟨filename, code, inherits, functions, lastInherited, globals, strings, classes,
          lineInfo⟩, entry))

/-- `definitionIn?` with the same checks. -/
def checkedDefinitionIn? : List (Inherit Program) → Nat → Nat →
    Option (Option (Program × FunctionEntry))
  | [], _, _ => none
  | ⟨program, functionOffset, _⟩ :: _, 0, index =>
    (index.psub functionOffset.toNat).bind fun inner => checkedDefinition? program inner
  | _ :: rest, k + 1, index => checkedDefinitionIn? rest k index

end

/-- `resolve?` with a check of each step to an owner. -/
def checkedResolve? (p : Program) (index : Nat) : Option (Option (Program × FunctionEntry)) :=
  match p.functions[index]? with
  | none => some none
  | some slot => p.checkedDefinition? (slot.runtimeIndex index)

/-- `ownsSlot` with a check of the step to the owner. -/
def checkedOwnsSlot? (p : Program) (index : Nat) : Option Bool :=
  match p.findInherit? index with
  | none => some false
  | some k => p.inherits[k]?.bind fun link =>
    (index.psub link.functionOffset.toNat).map fun inner => inner < link.program.functions.length

theorem checkedDefinitionIn?_eq (links : List (Inherit Program)) (k index : Nat) :
    checkedDefinitionIn? links k index = links[k]?.bind fun link =>
      (index.psub link.functionOffset.toNat).bind fun inner =>
        link.program.checkedDefinition? inner := by
  induction links generalizing k with
  | nil => simp [checkedDefinitionIn?]
  | cons link rest ih => cases k <;> simp [checkedDefinitionIn?, ih]

/-- The owner that is found is a link and does not begin after the slot. -/
theorem exists_link_of_ownerOf? {links : List (Inherit Program)} {k : Nat}
    (h : ownerOf? links index = some k) :
    ∃ link, links[k]? = some link ∧ link.functionOffset.toNat ≤ index := by
  simpa only [Option.any_eq_true, decide_eq_true_eq] using holds_of_lastHolding? h

/-- No step on the way to a definition fails. -/
theorem checkedDefinition?_eq (p : Program) (index : Nat) :
    p.checkedDefinition? index = some (p.definition? index) := by
  induction p using ancestor_induction generalizing index with
  | step p ih =>
    cases p with
    | mk filename code inherits functions lastInherited globals strings classes lineInfo =>
      rw [checkedDefinition?, definition?]
      cases functions[index]? with
      | none => rfl
      | some entry =>
        simp only
        split
        · cases howner : ownerOf? inherits index with
          | none => rfl
          | some k =>
            -- The ancestor need not be in order: that its link was found is all that is used.
            obtain ⟨link, hlink, hle⟩ := exists_link_of_ownerOf? howner
            simp only [checkedDefinitionIn?_eq, definitionIn?_eq, hlink, Option.bind_some,
              Nat.psub_eq_sub hle]
            exact ih link (List.mem_of_getElem? hlink) _
        · rfl

theorem checkedResolve?_eq (p : Program) (index : Nat) :
    p.checkedResolve? index = some (p.resolve? index) := by
  rw [checkedResolve?, resolve?]
  cases p.functions[index]? with
  | none => rfl
  | some slot => exact checkedDefinition?_eq p _

theorem checkedOwnsSlot?_eq (p : Program) (index : Nat) :
    p.checkedOwnsSlot? index = some (p.ownsSlot index) := by
  rw [checkedOwnsSlot?, ownsSlot]
  cases howner : p.findInherit? index with
  | none => rfl
  | some k =>
    obtain ⟨link, hlink, hle⟩ := exists_link_of_ownerOf? howner
    simp [hlink, Nat.psub_eq_sub hle]

/-! ### Owners -/

/-- **The search for the owner of a slot** finds what a look at every link finds, and the difference
between a slot and the offset of its owner is never below zero. -/
theorem findInherit?_spec (p : Program) :
    (p.fault? = none → p.Throughout fun q => OffsetsIncrease q.inherits) ∧
    (OffsetsIncrease p.inherits → ∀ index,
      (∀ k, p.findInherit? index = some k ↔ ∃ link, p.inherits[k]? = some link ∧
        link.functionOffset.toNat ≤ index ∧
        ∀ (j : Nat) (later : Inherit Program), k < j → p.inherits[j]? = some later →
          index < later.functionOffset.toNat) ∧
      (p.findInherit? index = none ↔ p.inherits = [] ∨
        ∃ first, p.inherits[0]? = some first ∧ index < first.functionOffset.toNat) ∧
      p.findInherit? index = scanOwner? p.inherits index) ∧
    ∀ index, p.checkedOwnsSlot? index = some (p.ownsSlot index) ∧
      p.checkedResolve? index = some (p.resolve? index) := by
  refine ⟨?_, ?_, ?_⟩
  · intro hp trail q htrail
    exact (fault?_eq_none_iff.mp hp trail q htrail).inheritOrder
  · intro horder index
    exact ⟨fun k => horder.findInherit?_eq_some_iff, horder.findInherit?_eq_none_iff,
      horder.findInherit?_eq_scanOwner?⟩
  · exact fun index => ⟨checkedOwnsSlot?_eq p index, checkedResolve?_eq p index⟩

/-- A program with a function of its own before those of three ancestors. Slot 4 belongs to the
second ancestor, which inherits the function itself, and after slot 4 comes a gap. -/
def staggered : Program where
  filename := "room.c"
  inherits := [
    ⟨{ filename := "base.c", functions := [.defined "create" 0, .defined "reset" 4] }, 1, 0⟩,
    ⟨{ filename := "log.c"
       inherits := [⟨{ filename := "text.c", functions := [.defined "format" 0] }, 1, 0⟩]
       functions := [.defined "log" 0, .ofAncestor "format"] }, 3, 0⟩,
    ⟨{ filename := "heart.c", functions := [.defined "beat" 0] }, 7, 0⟩]
  functions := [.defined "look" 0, .ofAncestor "create", .ofAncestor "reset", .ofAncestor "log",
    .ofAncestor "format"]

/-- Before the first offset there is no owner; at an offset, below the next one and after the last
one there is. -/
theorem findInherit?_staggered :
    staggered.fault? = none ∧ OffsetsIncrease staggered.inherits ∧
      staggered.findInherit? 0 = none ∧ staggered.findInherit? 1 = some 0 ∧
      staggered.findInherit? 3 = some 1 ∧ staggered.findInherit? 6 = some 1 ∧
      staggered.findInherit? 9 = some 2 ∧ staggered.checkedOwnsSlot? 4 = some true ∧
      staggered.checkedResolve? 4 = some (staggered.resolve? 4) ∧
      staggered.functionName? 4 = some "format" := by
  have hp : staggered.fault? = none := by decide +kernel
  obtain ⟨haccepted, hsearch, hchecked⟩ := findInherit?_spec staggered
  have horder : OffsetsIncrease staggered.inherits := (haccepted hp).self
  refine ⟨hp, horder, ?_, ?_, ?_, ?_, ?_, ?_, (hchecked 4).2, ?_⟩
  · exact (hsearch horder 0).2.1.mpr (.inr ⟨_, rfl, by decide⟩)
  · exact (hsearch horder 1).2.2.trans rfl
  · exact (hsearch horder 3).2.2.trans rfl
  · exact (hsearch horder 6).2.2.trans rfl
  · exact (hsearch horder 9).2.2.trans rfl
  · rw [(hchecked 4).1]
    decide +kernel
  · decide +kernel

end LpcInspect.Program
