import LpcInspect.Json.Record

/-!
# Reading records back

A record is read with exactly the values it was written with, and a list is read back item by item.
Both need the nesting that is left to be positive.
-/

namespace LpcInspect.Json

/-- Reading every item of a list succeeds if reading each one does. -/
theorem mapM_eq_some {α β : Type} {f : α → Option β} {g : α → β} {xs : List α}
    (h : ∀ x ∈ xs, f x = some (g x)) : xs.mapM f = some (xs.map g) := by
  induction xs with
  | nil => rfl
  | cons x xs ih =>
    rw [List.mapM_cons, h x (List.mem_cons_self ..),
      ih fun y hy => h y (List.mem_cons_of_mem _ hy)]
    rfl

/-- Reading every item of a list fails if reading one does. -/
theorem mapM_eq_none {α β : Type} {f : α → Option β} {x : α} {xs : List α} (hx : x ∈ xs)
    (h : f x = none) : xs.mapM f = none := by
  induction xs with
  | nil => cases hx
  | cons y xs ih =>
    rw [List.mapM_cons]
    rcases List.mem_cons.mp hx with rfl | hmem
    · rw [h]
      rfl
    · rw [ih hmem]
      cases f y <;> rfl

/-- Among members with different names, each is found by its name. -/
theorem member?_of_mem {members : List (String × Json)} (hnodup : (members.map Prod.fst).Nodup)
    {name : String} {value : Json} (h : (name, value) ∈ members) :
    member? (members.map fun (key, value) => (some key, value)) name = some (some value) := by
  have hfilter : members.filter (fun m => m.1 == name) = [(name, value)] := by
    induction members with
    | nil => cases h
    | cons m rest ih =>
      rw [List.map_cons, List.nodup_cons] at hnodup
      rcases List.mem_cons.mp h with rfl | hmem
      · have hrest : rest.filter (fun m => m.1 == name) = [] := by
          rw [List.filter_eq_nil_iff]
          intro other hother heq
          exact hnodup.1 (List.mem_map.mpr ⟨other, hother, eq_of_beq heq⟩)
        rw [List.filter_cons, if_pos (beq_self_eq_true name), hrest]
      · have hne : ¬(m.1 == name) = true := by
          intro heq
          exact hnodup.1 (List.mem_map.mpr ⟨(name, value), hmem, (eq_of_beq heq).symm⟩)
        rw [List.filter_cons, if_neg hne, ih hnodup.2 hmem]
  have hmap : (members.map fun (key, value) => (some key, value)).filter
      (fun m => m.1 == some name) = [(some name, value)] := by
    rw [List.filter_map]
    exact congrArg (List.map _) hfilter
  rw [member?, hmap]

/-- **A record is read with the values it was written with.** -/
theorem fields?_record {nesting : Nat} (hnesting : 0 < nesting) {names : List String}
    (hnodup : names.Nodup) {members : List (String × Json)}
    (hnames : members.map Prod.fst = names) :
    fields? nesting names (record members) = some (members.map fun m => some m.2) := by
  subst hnames
  have hkeys : (members.map fun (key, value) => ((some key : Option String), value)).all
      (fun m => m.1.isSome) = true := by
    simp
  rw [record, fields?, if_pos ⟨hnesting, hkeys⟩, List.mapM_map]
  exact mapM_eq_some fun m hm => member?_of_mem hnodup hm

theorem fields?_zero (names : List String) (value : Json) : fields? 0 names value = none := by
  cases value <;> simp [fields?]

theorem list?_zero {α : Type} (read? : Json → Option α) (value : Json) :
    list? 0 read? value = none := by
  cases value <;> simp [list?]

/-- **A list is read back item by item.** -/
theorem list?_map {α : Type} {nesting : Nat} (hnesting : 0 < nesting) {read? : Json → Option α}
    {write : α → Json} {xs : List α} (h : ∀ x ∈ xs, read? (write x) = some x) :
    list? nesting read? (.array (xs.map write)) = some xs := by
  have hread : xs.mapM (read? ∘ write) = some (xs.map id) := mapM_eq_some h
  rw [list?, if_pos hnesting, List.mapM_map, hread, List.map_id]

/-- A list with an item that cannot be read cannot be read. -/
theorem list?_eq_none {α β : Type} {nesting : Nat} {read? : Json → Option α} {write : β → Json}
    {x : β} {xs : List β} (hx : x ∈ xs) (h : read? (write x) = none) :
    list? nesting read? (.array (xs.map write)) = none := by
  rw [list?, List.mapM_map, mapM_eq_none hx h, ite_self]

theorem uint8?_natural (x : UInt8) : uint8? (.natural x.toNat) = some x := by
  rw [uint8?, below?, if_pos x.toNat_lt, Option.map_some, UInt8.ofNat_toNat]

theorem uint16?_natural (x : UInt16) : uint16? (.natural x.toNat) = some x := by
  rw [uint16?, below?, if_pos x.toNat_lt, Option.map_some, UInt16.ofNat_toNat]

end LpcInspect.Json
