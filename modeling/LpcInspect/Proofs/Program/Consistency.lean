import LpcInspect.Proofs.Program.Ancestry

/-!
# What makes a program consistent

`Program.Consistent` says of the tables of one program what they have to satisfy, and
`Program.FirstFault` which fault of theirs comes first, both without a word about how faults are
looked for. `Program.visits` lists a program and its ancestors, with the ancestors before the
programs that inherit them. `Program.fault?_spec` says that the check accepts exactly the programs
that are consistent throughout, and that it otherwise reports the first fault of the first program
on this list that has one, under the names of the programs on the way to it.
-/

namespace LpcInspect

/-! ### First faults in a list -/

section ZipIdx

variable {α β : Type} {xs : List α} {f : α × Nat → Option β}

theorem findSome?_zipIdx_eq_none_iff :
    xs.zipIdx.findSome? f = none ↔ ∀ i x, xs[i]? = some x → f (x, i) = none := by
  rw [List.findSome?_eq_none_iff]
  constructor
  · intro h i x hx
    exact h (x, i) (List.mk_mem_zipIdx_iff_getElem?.mpr hx)
  · rintro h ⟨x, i⟩ hx
    exact h i x (List.mk_mem_zipIdx_iff_getElem?.mp hx)

/-- The first answer is that of an element before which no element has one. -/
theorem findSome?_zipIdx_eq_some_iff {b : β} :
    xs.zipIdx.findSome? f = some b ↔
      ∃ i x, xs[i]? = some x ∧ f (x, i) = some b ∧
        ∀ j y, j < i → xs[j]? = some y → f (y, j) = none := by
  rw [List.findSome?_eq_some_iff]
  constructor
  · rintro ⟨before, ⟨x, i⟩, after, hsplit, hx, hbefore⟩
    obtain ⟨ys, zs, rfl, rfl, hzs⟩ := List.zipIdx_eq_append_iff.mp hsplit
    cases zs with
    | nil => simp at hzs
    | cons z zs =>
      simp only [List.zipIdx_cons, List.cons.injEq, Prod.mk.injEq, Nat.zero_add] at hzs
      obtain ⟨⟨rfl, rfl⟩, -⟩ := hzs
      refine ⟨ys.length, x, by simp, hx, fun j y hj hy => ?_⟩
      rw [List.getElem?_append_left hj] at hy
      exact hbefore (y, j) (List.mk_mem_zipIdx_iff_getElem?.mpr hy)
  · rintro ⟨i, x, hx, hb, hbefore⟩
    obtain ⟨hi, rfl⟩ := List.getElem?_eq_some_iff.mp hx
    refine ⟨(xs.take i).zipIdx, (xs[i], i), (xs.drop (i + 1)).zipIdx (i + 1), ?_, hb, ?_⟩
    · have hlength : (xs.take i).length = i := List.length_take_of_le (Nat.le_of_lt hi)
      have hsplit : xs.take i ++ xs[i] :: xs.drop (i + 1) = xs := by simp
      calc xs.zipIdx = (xs.take i ++ xs[i] :: xs.drop (i + 1)).zipIdx := by rw [hsplit]
        _ = (xs.take i).zipIdx ++ (xs[i], i) :: (xs.drop (i + 1)).zipIdx (i + 1) := by
          rw [List.zipIdx_append, List.zipIdx_cons, hlength, Nat.zero_add]
    · rintro ⟨y, j⟩ hy
      have hy := List.mk_mem_zipIdx_iff_getElem?.mp hy
      obtain ⟨hj, -⟩ := List.getElem?_eq_some_iff.mp hy
      have hji : j < i := by simp at hj; omega
      rw [List.getElem?_take_of_lt hji] at hy
      exact hbefore j y hji hy

end ZipIdx

namespace Program

/-! ### The tables of one program -/

/-- What a slot has to satisfy. -/
structure SoundSlot (p : Program) (index : Nat) (f : FunctionEntry) : Prop where
  /-- An alias names a slot of the table. -/
  aliasTarget : f.isAlias = true →
    ∃ target, f.aliasOf = some target ∧ target.toNat < p.functions.length
  /-- An ancestor has the function of an inherited slot. -/
  owner : f.isAlias = false → f.isInherited = true → p.Owned index
  /-- A function that the program defines starts in the code, if there is any. -/
  address : p.lastInherited.toNat ≤ index → f.isAlias = false → f.isInherited = false →
    f.has FunctionFlag.prototype = false → f.has FunctionFlag.undefined = false →
    p.code.size ≠ 0 → f.address.toNat < p.code.size

/-- The tables of a program agree with each other. -/
structure Consistent (p : Program) : Prop where
  inheritOrder : OffsetsIncrease p.inherits
  functionCount : p.lastInherited.toNat ≤ p.functions.length
  slots : ∀ (index : Nat) (f : FunctionEntry), p.functions[index]? = some f → p.SoundSlot index f
  classNames : ∀ c ∈ p.classes, c.name.toNat < p.strings.length

/-- The fault of a slot that is not sound. -/
inductive SlotFault (p : Program) (index : Nat) (f : FunctionEntry) : Fault → Prop where
  | aliasTarget (halias : f.isAlias = true)
      (h : ¬ ∃ target, f.aliasOf = some target ∧ target.toNat < p.functions.length) :
      SlotFault p index f (.aliasTarget index f.name f.aliasOf)
  | unresolved (halias : f.isAlias = false) (hinherited : f.isInherited = true)
      (h : ¬ p.Owned index) : SlotFault p index f (.unresolvedInherited index f.name)
  | address (hlocal : p.lastInherited.toNat ≤ index) (halias : f.isAlias = false)
      (hinherited : f.isInherited = false) (hprototype : f.has FunctionFlag.prototype = false)
      (hundefined : f.has FunctionFlag.undefined = false) (hcode : p.code.size ≠ 0)
      (h : p.code.size ≤ f.address.toNat) :
      SlotFault p index f (.functionAddress index f.name f.address p.code.size)

/-- The first fault of the tables of a program: of the links, of the number of inherited slots, of
the lowest slot, of the lowest class. -/
inductive FirstFault (p : Program) : Fault → Prop where
  /-- The links up to `index` are in order, and the next one is not. -/
  | inheritOrder {index : Nat} {previous link : Inherit Program}
      (hprevious : p.inherits[index]? = some previous) (hlink : p.inherits[index + 1]? = some link)
      (hbefore : OffsetsIncrease (p.inherits.take (index + 1)))
      (h : ¬ previous.functionOffset < link.functionOffset) :
      FirstFault p (.inheritOrder (index + 1) link.functionOffset previous.functionOffset)
  | functionCount (horder : OffsetsIncrease p.inherits)
      (h : p.functions.length < p.lastInherited.toNat) :
      FirstFault p (.functionCount p.lastInherited p.functions.length)
  | slot {index : Nat} {f : FunctionEntry} {fault : Fault} (horder : OffsetsIncrease p.inherits)
      (hcount : p.lastInherited.toNat ≤ p.functions.length) (hf : p.functions[index]? = some f)
      (hbefore : ∀ (j : Nat) (g : FunctionEntry), j < index → p.functions[j]? = some g →
        p.SoundSlot j g)
      (h : p.SlotFault index f fault) : FirstFault p fault
  | className {index : Nat} {c : ClassDef} (horder : OffsetsIncrease p.inherits)
      (hcount : p.lastInherited.toNat ≤ p.functions.length)
      (hslots : ∀ (j : Nat) (g : FunctionEntry), p.functions[j]? = some g → p.SoundSlot j g)
      (hc : p.classes[index]? = some c)
      (hbefore : ∀ (j : Nat) (d : ClassDef), j < index → p.classes[j]? = some d →
        d.name.toNat < p.strings.length)
      (h : p.strings.length ≤ c.name.toNat) :
      FirstFault p (.className index c.name p.strings.length)

/-! ### The check of one program -/

theorem orderFault?_eq_none_iff (start : Nat) (links : List (Inherit Program)) :
    orderFault? start links = none ↔ OffsetsIncrease links := by
  fun_induction orderFault? start links with
  | case1 start previous link rest hle =>
    simp only [reduceCtorEq, false_iff, offsetsIncrease_cons_cons, not_and]
    exact fun hlt => absurd hlt (UInt16.not_lt.mpr hle)
  | case2 start previous link rest hle ih =>
    rw [ih, offsetsIncrease_cons_cons]
    exact (and_iff_right (UInt16.not_le.mp hle)).symm
  | case3 links start hlinks =>
    rcases links with _ | ⟨a, _ | ⟨b, rest⟩⟩
    · simp
    · simp
    · exact absurd rfl (hlinks a b rest)

/-- The first link that is not above the one before it comes after links that are in order. -/
theorem orderFault?_eq_some_iff (start : Nat) (links : List (Inherit Program)) (fault : Fault) :
    orderFault? start links = some fault ↔
      ∃ (i : Nat) (previous link : Inherit Program), links[i]? = some previous ∧
        links[i + 1]? = some link ∧ OffsetsIncrease (links.take (i + 1)) ∧
        ¬ previous.functionOffset < link.functionOffset ∧
        fault = .inheritOrder (start + i + 1) link.functionOffset previous.functionOffset := by
  fun_induction orderFault? start links with
  | case1 start previous link rest hle =>
    constructor
    · intro h
      exact ⟨0, previous, link, rfl, rfl, by simp, UInt16.not_lt.mpr hle, (Option.some.inj h).symm⟩
    · rintro ⟨i, a, b, ha, hb, hbefore, hab, rfl⟩
      cases i with
      | zero =>
        cases ha
        cases hb
        rfl
      | succ i =>
        -- The first two links are among those before, but they are not in order.
        rw [List.take_succ_cons, List.take_succ_cons, offsetsIncrease_cons_cons] at hbefore
        exact absurd hbefore.1 (UInt16.not_lt.mpr hle)
  | case2 start previous link rest hle ih =>
    rw [ih]
    constructor
    · rintro ⟨i, a, b, ha, hb, hbefore, hab, rfl⟩
      refine ⟨i + 1, a, b, ha, hb, ?_, hab, by rw [Nat.add_assoc start, Nat.add_comm 1]⟩
      rw [List.take_succ_cons, List.take_succ_cons, offsetsIncrease_cons_cons]
      exact ⟨UInt16.not_le.mp hle, hbefore⟩
    · rintro ⟨i, a, b, ha, hb, hbefore, hab, rfl⟩
      cases i with
      | zero =>
        cases ha
        cases hb
        exact absurd (UInt16.not_le.mp hle) hab
      | succ i =>
        rw [List.take_succ_cons, List.take_succ_cons, offsetsIncrease_cons_cons] at hbefore
        exact ⟨i, a, b, ha, hb, hbefore.2, hab, by rw [Nat.add_assoc start 1, Nat.add_comm 1]⟩
  | case3 links start hlinks =>
    rcases links with _ | ⟨a, _ | ⟨b, rest⟩⟩
    · simp
    · simp
    · exact absurd rfl (hlinks a b rest)

section Slots

variable {p : Program} {index : Nat} {f : FunctionEntry}

/-- What the check asks of the target of an alias. -/
theorem aliasTarget_any_iff :
    f.aliasOf.any (fun target => target.toNat < p.functions.length) = true ↔
      ∃ target, f.aliasOf = some target ∧ target.toNat < p.functions.length := by
  cases f.aliasOf <;> simp

/-- The fault of a slot; that of an inherited one rests on the search for its owner. -/
theorem slotFault?_eq_some_iff (horder : OffsetsIncrease p.inherits) {fault : Fault} :
    p.slotFault? index f = some fault ↔ p.SlotFault index f fault := by
  unfold slotFault?
  constructor
  · intro h
    split at h
    · next halias =>
      split at h
      · cases h
      · next htarget =>
        cases h
        exact .aliasTarget halias (mt aliasTarget_any_iff.mpr htarget)
    · next halias =>
      have halias : f.isAlias = false := Bool.eq_false_iff.mpr halias
      split at h
      · next hinherited =>
        split at h
        · cases h
        · next howns =>
          cases h
          exact .unresolved halias hinherited (mt horder.ownsSlot_iff.mpr howns)
      · next hinherited =>
        have hinherited : f.isInherited = false := Bool.eq_false_iff.mpr hinherited
        split at h
        · next hbad =>
          cases h
          obtain ⟨hlocal, hcode, hsize, haddress⟩ := hbad
          -- The flag of an alias is one of those that stand for no code, and it is not set here.
          simp only [f.hasNoCode_eq, halias, Bool.false_or, Bool.not_eq_true', Bool.or_eq_false_iff]
            at hcode
          exact .address hlocal halias hinherited hcode.1 hcode.2 hsize haddress
        · cases h
  · intro h
    cases h with
    | aliasTarget halias h => rw [if_pos halias, if_neg (mt aliasTarget_any_iff.mp h)]
    | unresolved halias hinherited h =>
      rw [if_neg (by simp [halias]), if_pos hinherited, if_neg (mt horder.ownsSlot_iff.mp h)]
    | address hlocal halias hinherited hprototype hundefined hcode h =>
      have hhas : f.hasNoCode = false := by simp [f.hasNoCode_eq, halias, hprototype, hundefined]
      rw [if_neg (by simp [halias]), if_neg (by simp [hinherited]),
        if_pos ⟨hlocal, by simp [hhas], hcode, h⟩]
      rfl

/-- A slot has no fault exactly if it is sound. -/
theorem slotFault?_eq_none_iff (horder : OffsetsIncrease p.inherits) :
    p.slotFault? index f = none ↔ p.SoundSlot index f := by
  rw [Option.eq_none_iff_forall_ne_some]
  simp only [ne_eq, slotFault?_eq_some_iff horder]
  constructor
  · intro h
    constructor
    · intro halias
      exact Classical.byContradiction fun htarget => h _ (.aliasTarget halias htarget)
    · intro halias hinherited
      exact Classical.byContradiction fun howned => h _ (.unresolved halias hinherited howned)
    · intro hlocal halias hinherited hprototype hundefined hcode
      refine Nat.lt_of_not_le fun hle => ?_
      exact h _ (.address hlocal halias hinherited hprototype hundefined hcode hle)
  · intro hsound fault h
    cases h with
    | aliasTarget halias h => exact h (hsound.aliasTarget halias)
    | unresolved halias hinherited h => exact h (hsound.owner halias hinherited)
    | address hlocal halias hinherited hprototype hundefined hcode h =>
      exact Nat.not_lt.mpr h
        (hsound.address hlocal halias hinherited hprototype hundefined hcode)

end Slots

section Tables

variable {p : Program}

theorem functionFault?_eq_none_iff (horder : OffsetsIncrease p.inherits) :
    p.functionFault? = none ↔ p.lastInherited.toNat ≤ p.functions.length ∧
      ∀ (index : Nat) (f : FunctionEntry), p.functions[index]? = some f → p.SoundSlot index f := by
  unfold functionFault?
  split
  · next hlt => simp [Nat.not_le.mpr hlt]
  · next hlt =>
    simp only [findSome?_zipIdx_eq_none_iff, slotFault?_eq_none_iff horder]
    exact (and_iff_right (Nat.le_of_not_lt hlt)).symm

theorem functionFault?_eq_some_iff (horder : OffsetsIncrease p.inherits) {fault : Fault} :
    p.functionFault? = some fault ↔
      (p.functions.length < p.lastInherited.toNat ∧
        fault = .functionCount p.lastInherited p.functions.length) ∨
      (p.lastInherited.toNat ≤ p.functions.length ∧
        ∃ index f, p.functions[index]? = some f ∧ p.SlotFault index f fault ∧
          ∀ j g, j < index → p.functions[j]? = some g → p.SoundSlot j g) := by
  unfold functionFault?
  split
  · next hlt => simp [hlt, Nat.not_le.mpr hlt, eq_comm]
  · next hlt =>
    simp only [findSome?_zipIdx_eq_some_iff, slotFault?_eq_none_iff horder,
      slotFault?_eq_some_iff horder, hlt, Nat.le_of_not_lt hlt, false_and, true_and, false_or]

theorem classFault?_eq_none_iff :
    p.classFault? = none ↔ ∀ c ∈ p.classes, c.name.toNat < p.strings.length := by
  unfold classFault?
  rw [findSome?_zipIdx_eq_none_iff]
  constructor
  · intro h c hc
    obtain ⟨i, hi⟩ := List.mem_iff_getElem?.mp hc
    simpa using h i c hi
  · intro h i c hi
    simpa using h c (List.mem_of_getElem? hi)

theorem classFault?_eq_some_iff {fault : Fault} :
    p.classFault? = some fault ↔
      ∃ index c, p.classes[index]? = some c ∧ p.strings.length ≤ c.name.toNat ∧
        (∀ j d, j < index → p.classes[j]? = some d → d.name.toNat < p.strings.length) ∧
        fault = .className index c.name p.strings.length := by
  unfold classFault?
  rw [findSome?_zipIdx_eq_some_iff]
  refine exists_congr fun index => exists_congr fun c => and_congr_right fun _ => ?_
  constructor
  · rintro ⟨hc, hbefore⟩
    obtain ⟨hle, rfl⟩ : p.strings.length ≤ c.name.toNat ∧
        .className index c.name p.strings.length = fault := by simpa using hc
    exact ⟨hle, fun j d hj hd => by simpa using hbefore j d hj hd, rfl⟩
  · rintro ⟨hle, hbefore, rfl⟩
    exact ⟨if_pos hle, fun j d hj hd => if_neg (Nat.not_le.mpr (hbefore j d hj hd))⟩

/-- The check of one program finds nothing exactly if its tables agree with each other. -/
theorem ownFault?_eq_none_iff : p.ownFault? = none ↔ p.Consistent := by
  unfold ownFault?
  simp only [Option.or_eq_none_iff, orderFault?_eq_none_iff, classFault?_eq_none_iff]
  constructor
  · rintro ⟨horder, hfunctions, hclasses⟩
    obtain ⟨hcount, hslots⟩ := (functionFault?_eq_none_iff horder).mp hfunctions
    exact ⟨horder, hcount, hslots, hclasses⟩
  · rintro ⟨horder, hcount, hslots, hclasses⟩
    exact ⟨horder, (functionFault?_eq_none_iff horder).mpr ⟨hcount, hslots⟩, hclasses⟩

/-- **The check of one program finds its first fault.** -/
theorem ownFault?_eq_some_iff {fault : Fault} : p.ownFault? = some fault ↔ p.FirstFault fault := by
  unfold ownFault?
  constructor
  · intro h
    rcases Option.or_eq_some_iff.mp h with horder | ⟨horder, h⟩
    · obtain ⟨i, previous, link, hprevious, hlink, hbefore, hnot, rfl⟩ :=
        (orderFault?_eq_some_iff 0 p.inherits fault).mp horder
      rw [Nat.zero_add]
      exact .inheritOrder hprevious hlink hbefore hnot
    -- From here on the links are in order, so that owners of slots are what they should be.
    have horder := (orderFault?_eq_none_iff 0 p.inherits).mp horder
    rcases Option.or_eq_some_iff.mp h with hfunctions | ⟨hfunctions, hclasses⟩
    · rcases (functionFault?_eq_some_iff horder).mp hfunctions with
        ⟨hlt, rfl⟩ | ⟨hcount, index, f, hf, hslot, hbefore⟩
      · exact .functionCount horder hlt
      · exact .slot horder hcount hf hbefore hslot
    · obtain ⟨hcount, hslots⟩ := (functionFault?_eq_none_iff horder).mp hfunctions
      obtain ⟨index, c, hc, hle, hbefore, rfl⟩ := classFault?_eq_some_iff.mp hclasses
      exact .className horder hcount hslots hc hbefore hle
  · intro h
    cases h with
    | inheritOrder hprevious hlink hbefore h =>
      have horder := (orderFault?_eq_some_iff 0 p.inherits _).mpr
        ⟨_, _, _, hprevious, hlink, hbefore, h, rfl⟩
      rw [horder, Option.some_or, Nat.zero_add]
    | functionCount horder h =>
      rw [(orderFault?_eq_none_iff 0 p.inherits).mpr horder, Option.none_or,
        (functionFault?_eq_some_iff horder).mpr (.inl ⟨h, rfl⟩), Option.some_or]
    | slot horder hcount hf hbefore h =>
      rw [(orderFault?_eq_none_iff 0 p.inherits).mpr horder, Option.none_or,
        (functionFault?_eq_some_iff horder).mpr (.inr ⟨hcount, _, _, hf, h, hbefore⟩),
        Option.some_or]
    | className horder hcount hslots hc hbefore h =>
      rw [(orderFault?_eq_none_iff 0 p.inherits).mpr horder, Option.none_or,
        (functionFault?_eq_none_iff horder).mpr ⟨hcount, hslots⟩, Option.none_or]
      exact classFault?_eq_some_iff.mpr ⟨_, _, hc, h, hbefore, rfl⟩

end Tables

/-! ### A program and its ancestors -/

mutual

/-- A program and its ancestors, each with the trail to it: the ancestors of each link in turn, and
the program itself last. -/
def visits : Program → List (List Program × Program)
  | ⟨filename, code, inherits, functions, lastInherited, globals, strings, classes, lineInfo⟩ =>
    linkVisits inherits ++ [([], ⟨filename, code, inherits, functions, lastInherited, globals,
      strings, classes, lineInfo⟩)]

/-- The ancestors of each link in turn. -/
def linkVisits : List (Inherit Program) → List (List Program × Program)
  | [] => []
  | ⟨program, _, _⟩ :: rest =>
    (visits program).map (fun (trail, q) => (program :: trail, q)) ++ linkVisits rest

end

theorem visits_eq (p : Program) : p.visits = linkVisits p.inherits ++ [([], p)] := by
  cases p
  rw [visits]

theorem mem_linkVisits_iff {links : List (Inherit Program)} {trail : List Program} {q : Program} :
    (trail, q) ∈ linkVisits links ↔
      ∃ link ∈ links, ∃ rest, (rest, q) ∈ link.program.visits ∧ trail = link.program :: rest := by
  induction links with
  | nil => simp [linkVisits]
  | cons link rest ih => simp [linkVisits, ih, eq_comm]

/-- The ancestors on the list are those at the end of a trail. -/
theorem mem_visits_iff {p : Program} {trail : List Program} {q : Program} :
    (trail, q) ∈ p.visits ↔ p.Trail trail q := by
  induction p using ancestor_induction generalizing trail with
  | step p ih =>
    rw [visits_eq, List.mem_append, mem_linkVisits_iff, List.mem_singleton]
    constructor
    · rintro (⟨link, hlink, rest, hrest, rfl⟩ | h)
      · exact .cons hlink ((ih link hlink).mp hrest)
      · cases h
        exact .nil _
    · intro h
      cases h with
      | nil => exact .inr rfl
      | cons hlink htrail => exact .inl ⟨_, hlink, _, (ih _ hlink).mpr htrail, rfl⟩

end Program

/-- A fault of an ancestor as it is reported of a program: under the name of each program on the
trail to the ancestor. -/
def Fault.under (fault : Fault) (trail : List Program) : Fault :=
  trail.foldr (fun q inner => .ancestor q.filename inner) fault

namespace Program

/-- The fault of a program on the list, as it is reported. -/
def visitFault? (visit : List Program × Program) : Option Fault :=
  visit.2.ownFault?.map fun fault => fault.under visit.1

theorem visitFault?_cons (program : Program) (visit : List Program × Program) :
    visitFault? (program :: visit.1, visit.2) =
      (visitFault? visit).map (.ancestor program.filename) := by
  rw [visitFault?, visitFault?, Option.map_map]
  rfl

/-- What is found first in the ancestors of the links is the first fault of the first link that has
one, under the name of its program. -/
theorem ancestorFault?_eq_findSome? {links : List (Inherit Program)}
    (h : ∀ link ∈ links, link.program.fault? = link.program.visits.findSome? visitFault?) :
    ancestorFault? links = (linkVisits links).findSome? visitFault? := by
  induction links with
  | nil => rw [ancestorFault?, linkVisits, List.findSome?_nil]
  | cons link rest ih =>
    obtain ⟨hlink, hrest⟩ := List.forall_mem_cons.mp h
    have hunder : visitFault? ∘ (fun (trail, q) => (link.program :: trail, q)) =
        Option.map (.ancestor link.program.filename) ∘ visitFault? :=
      funext fun visit => visitFault?_cons link.program visit
    rw [ancestorFault?, linkVisits, List.findSome?_append, List.findSome?_map, hunder,
      ← List.map_findSome?, ← hlink, ih hrest]
    cases link.program.fault? <;> rfl

/-- **The check goes through the program and its ancestors and reports what it finds first.** -/
theorem fault?_eq_findSome? (p : Program) : p.fault? = p.visits.findSome? visitFault? := by
  induction p using ancestor_induction with
  | step p ih =>
    have hself : visitFault? ([], p) = p.ownFault? := by
      cases h : p.ownFault? <;> simp [visitFault?, h, Fault.under]
    rw [fault?_eq, visits_eq, List.findSome?_append, ancestorFault?_eq_findSome? ih,
      List.findSome?_singleton, hself]

theorem visitFault?_eq_none_iff {visit : List Program × Program} :
    visitFault? visit = none ↔ visit.2.Consistent := by
  rw [visitFault?, Option.map_eq_none_iff, ownFault?_eq_none_iff]

/-- A program is accepted exactly if it and all its ancestors are consistent. -/
theorem fault?_eq_none_iff {p : Program} : p.fault? = none ↔ p.Throughout Consistent := by
  rw [fault?_eq_findSome?, List.findSome?_eq_none_iff]
  constructor
  · intro h trail q htrail
    exact visitFault?_eq_none_iff.mp (h (trail, q) (mem_visits_iff.mpr htrail))
  · rintro h ⟨trail, q⟩ hvisit
    exact visitFault?_eq_none_iff.mpr (h trail q (mem_visits_iff.mp hvisit))

/-- **The check accepts exactly what is consistent throughout**, and otherwise reports the first
fault of the first program that has one. -/
theorem fault?_spec (p : Program) :
    (p.fault? = none ↔ p.Throughout Consistent) ∧
      ∀ fault, p.fault? = some fault ↔
        ∃ (before : List (List Program × Program)) (trail : List Program) (q : Program)
          (after : List (List Program × Program)) (own : Fault),
          p.visits = before ++ (trail, q) :: after ∧ (∀ visit ∈ before, visit.2.Consistent) ∧
            ¬ q.Consistent ∧ q.FirstFault own ∧ fault = own.under trail := by
  refine ⟨fault?_eq_none_iff, fun fault => ?_⟩
  rw [fault?_eq_findSome?, List.findSome?_eq_some_iff]
  constructor
  · rintro ⟨before, ⟨trail, q⟩, after, hsplit, hfault, hbefore⟩
    obtain ⟨own, hown, rfl⟩ := Option.map_eq_some_iff.mp hfault
    have hq : ¬ q.Consistent := by
      rw [← ownFault?_eq_none_iff, hown]
      simp
    refine ⟨before, trail, q, after, own, hsplit, ?_, hq, ownFault?_eq_some_iff.mp hown, rfl⟩
    exact fun visit hvisit => visitFault?_eq_none_iff.mp (hbefore visit hvisit)
  · rintro ⟨before, trail, q, after, own, hsplit, hbefore, -, hown, rfl⟩
    refine ⟨before, (trail, q), after, hsplit, ?_, ?_⟩
    · exact Option.map_eq_some_iff.mpr ⟨own, ownFault?_eq_some_iff.mpr hown, rfl⟩
    · exact fun visit hvisit => visitFault?_eq_none_iff.mpr (hbefore visit hvisit)

end Program
end LpcInspect
