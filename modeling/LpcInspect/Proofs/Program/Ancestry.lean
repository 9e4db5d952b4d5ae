import LpcInspect.Program.Fault
import LpcInspect.Proofs.Bisect

/-!
# Trees of ancestors

A program holds its ancestors, so a property that passes from the direct ancestors of a program to
the program holds of all programs. `Program.Trail` names the programs on the way to an ancestor, and
`Program.Throughout` says that a program and all its ancestors have a property.

The function slots of an ancestor begin at the function offset of its link. If these offsets
increase, the search for the ancestor of a slot finds the link with the greatest offset that is not
above the slot.
-/

namespace LpcInspect.Program

section Induction

variable {motive : Program → Prop}

mutual

/-- Induction over the tree of ancestors: a property of all direct ancestors comes down to the
program. -/
@[elab_as_elim]
theorem ancestor_induction
    (step : ∀ p : Program, (∀ link ∈ p.inherits, motive link.program) → motive p) :
    ∀ p : Program, motive p
  | ⟨_, _, inherits, _, _, _, _, _, _⟩ => step _ (forall_link_of_step step inherits)

theorem forall_link_of_step
    (step : ∀ p : Program, (∀ link ∈ p.inherits, motive link.program) → motive p) :
    ∀ links : List (Inherit Program), ∀ link ∈ links, motive link.program
  | [] => fun _ h => absurd h List.not_mem_nil
  | ⟨program, _, _⟩ :: rest =>
    List.forall_mem_cons.mpr ⟨ancestor_induction step program, forall_link_of_step step rest⟩

end

end Induction

/-- `p.Trail trail q` says that one gets from `p` to its ancestor `q` through the programs of
`trail`, of which `q` is the last. Each program is on the empty trail to itself. -/
inductive Trail : Program → List Program → Program → Prop where
  | nil (p : Program) : Trail p [] p
  | cons {p q : Program} {link : Inherit Program} {trail : List Program}
      (hlink : link ∈ p.inherits) (htrail : Trail link.program trail q) :
      Trail p (link.program :: trail) q

/-- A program and all its ancestors have a property. -/
def Throughout (p : Program) (property : Program → Prop) : Prop :=
  ∀ trail q, p.Trail trail q → property q

section Throughout

variable {p : Program} {property : Program → Prop}

theorem Throughout.self (h : p.Throughout property) : property p := h [] p (.nil p)

theorem Throughout.link (h : p.Throughout property) {link : Inherit Program}
    (hlink : link ∈ p.inherits) : link.program.Throughout property :=
  fun trail q htrail => h (link.program :: trail) q (.cons hlink htrail)

theorem throughout_iff :
    p.Throughout property ↔
      property p ∧ ∀ link ∈ p.inherits, link.program.Throughout property := by
  constructor
  · exact fun h => ⟨h.self, fun link hlink => h.link hlink⟩
  · rintro ⟨hself, hlinks⟩ trail q htrail
    cases htrail with
    | nil => exact hself
    | cons hlink htrail => exact hlinks _ hlink _ _ htrail

theorem throughout_of_no_links (hlinks : p.inherits = []) (hp : property p) :
    p.Throughout property :=
  throughout_iff.mpr ⟨hp, by simp [hlinks]⟩

end Throughout

/-! ### Owners of slots -/

/-- Each link has a greater function offset than all links before it. -/
def OffsetsIncrease (links : List (Inherit Program)) : Prop :=
  links.Pairwise fun a b => a.functionOffset < b.functionOffset

/-- An ancestor has the function of the slot `index`: the one with the greatest function offset that
is not above `index`. -/
def Owned (p : Program) (index : Nat) : Prop :=
  ∃ (k : Nat) (link : Inherit Program), p.inherits[k]? = some link ∧
    link.functionOffset.toNat ≤ index ∧
    (∀ (j : Nat) (other : Inherit Program), p.inherits[j]? = some other →
      other.functionOffset.toNat ≤ index → other.functionOffset ≤ link.functionOffset) ∧
    index - link.functionOffset.toNat < link.program.functions.length

@[simp] theorem offsetsIncrease_nil : OffsetsIncrease [] := .nil

@[simp] theorem offsetsIncrease_singleton (link : Inherit Program) : OffsetsIncrease [link] :=
  List.pairwise_singleton _ _

/-- It is enough to compare each link with the one before it. -/
theorem offsetsIncrease_cons_cons {a b : Inherit Program} {rest : List (Inherit Program)} :
    OffsetsIncrease (a :: b :: rest) ↔
      a.functionOffset < b.functionOffset ∧ OffsetsIncrease (b :: rest) := by
  unfold OffsetsIncrease
  rw [List.pairwise_cons, List.forall_mem_cons]
  constructor
  · rintro ⟨⟨hab, -⟩, hrest⟩
    exact ⟨hab, hrest⟩
  · rintro ⟨hab, hrest⟩
    refine ⟨⟨hab, fun c hc => UInt16.lt_trans hab ?_⟩, hrest⟩
    exact (List.pairwise_cons.mp hrest).1 c hc

namespace OffsetsIncrease

variable {p : Program} {index : Nat}

/-- Function offsets that increase do not decrease. -/
theorem offsets_le (h : OffsetsIncrease p.inherits) :
    p.inherits.Pairwise fun a b => a.functionOffset.toNat ≤ b.functionOffset.toNat :=
  h.imp fun hlt => Nat.le_of_lt (UInt16.lt_iff_toNat_lt.mp hlt)

/-- The owner of a slot is the link that begins at or before it and is followed only by links that
begin after it. -/
theorem findInherit?_eq_some_iff (h : OffsetsIncrease p.inherits) {k : Nat} :
    p.findInherit? index = some k ↔ ∃ link, p.inherits[k]? = some link ∧
      link.functionOffset.toNat ≤ index ∧
      ∀ (j : Nat) (later : Inherit Program), k < j → p.inherits[j]? = some later →
        index < later.functionOffset.toNat :=
  lastHolding?_key_eq_some_iff h.offsets_le

/-- The owner of a slot has the greatest function offset that is not above the slot. -/
theorem findInherit?_eq_some_iff_greatest (h : OffsetsIncrease p.inherits) {k : Nat} :
    p.findInherit? index = some k ↔ ∃ link, p.inherits[k]? = some link ∧
      link.functionOffset.toNat ≤ index ∧
      ∀ (j : Nat) (other : Inherit Program), p.inherits[j]? = some other →
        other.functionOffset.toNat ≤ index → other.functionOffset ≤ link.functionOffset := by
  rw [h.findInherit?_eq_some_iff]
  refine exists_congr fun link => and_congr_right fun hk => and_congr_right fun hle => ?_
  obtain ⟨hklt, rfl⟩ := List.getElem?_eq_some_iff.mp hk
  have hpairs := List.pairwise_iff_getElem.mp h
  constructor
  · intro hlater j other hj hother
    obtain ⟨hjlt, rfl⟩ := List.getElem?_eq_some_iff.mp hj
    rcases Nat.lt_trichotomy j k with hlt | rfl | hgt
    · exact UInt16.le_of_lt (hpairs j k hjlt hklt hlt)
    · exact UInt16.le_refl _
    · exact absurd (hlater j _ hgt hj) (Nat.not_lt.mpr hother)
  · intro hgreatest j later hkj hj
    obtain ⟨hjlt, rfl⟩ := List.getElem?_eq_some_iff.mp hj
    refine Nat.lt_of_not_le fun hother => ?_
    exact UInt16.not_lt.mpr (hgreatest j _ hj hother) (hpairs k j hklt hjlt hkj)

/-- A slot is owned exactly if the ancestor found for it has a function there. -/
theorem owned_iff (h : OffsetsIncrease p.inherits) :
    p.Owned index ↔ ∃ k link, p.findInherit? index = some k ∧ p.inherits[k]? = some link ∧
      index - link.functionOffset.toNat < link.program.functions.length := by
  simp only [h.findInherit?_eq_some_iff_greatest]
  constructor
  · rintro ⟨k, link, hk, hle, hgreatest, hlt⟩
    exact ⟨k, link, ⟨link, hk, hle, hgreatest⟩, hk, hlt⟩
  · rintro ⟨k, link, ⟨link', hk', hle, hgreatest⟩, hk, hlt⟩
    obtain rfl : link' = link := Option.some.inj (hk'.symm.trans hk)
    exact ⟨k, link', hk, hle, hgreatest, hlt⟩

theorem ownsSlot_iff (h : OffsetsIncrease p.inherits) :
    p.ownsSlot index = true ↔ p.Owned index := by
  rw [h.owned_iff, ownsSlot]
  cases p.findInherit? index with
  | none => simp
  | some k => cases hk : p.inherits[k]? <;> simp [hk]

end OffsetsIncrease

end LpcInspect.Program
