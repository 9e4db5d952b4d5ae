import LpcInspect.Bisect

/-!
# What a search by halving finds

A search by halving finds the last place where a property holds, provided that the property never
holds again after it has failed. To be at most a given number is such a property of keys that do not
decrease, and keys may repeat: then the last of them is found. Without such a proviso, the property
still holds at the place that is found.
-/

namespace LpcInspect

section Found

variable {n low high k : Nat} {p : Nat → Bool}

/-- If the property holds just below the interval that is left, it holds just below the point where
the search ends. -/
theorem holds_of_partitionPointIn (hlow : ∀ i, low = i + 1 → p i = true)
    (h : partitionPointIn p low high = k + 1) : p k = true := by
  fun_induction partitionPointIn p low high with
  | case1 low high hlt middle hp ih =>
    refine ih (fun i hi => ?_) h
    obtain rfl : middle = i := Nat.succ.inj hi
    exact hp
  | case2 low high hlt middle hp ih => exact ih hlow h
  | case3 low high hlt => exact hlow k h

/-- The property holds at the place that is found, whether or not it holds up to some point. -/
theorem holds_of_lastHolding? (h : lastHolding? n p = some k) : p k = true := by
  unfold lastHolding? at h
  split at h
  · cases h
  · next m hm =>
    cases h
    exact holds_of_partitionPointIn (by simp) hm

end Found

/-- `p` does not hold again among `0, …, n - 1` after it has failed. -/
def HoldsUpTo (n : Nat) (p : Nat → Bool) : Prop :=
  ∀ i j, i ≤ j → j < n → p j = true → p i = true

namespace HoldsUpTo

variable {n : Nat} {p : Nat → Bool}

/-- There is a point below which the property holds and from which on it does not. -/
theorem exists_point (h : HoldsUpTo n p) :
    ∃ k, k ≤ n ∧ (∀ i, i < k → p i = true) ∧ ∀ i, k ≤ i → i < n → p i = false := by
  induction n with
  | zero => exact ⟨0, Nat.le_refl 0, by simp, by simp⟩
  | succ n ih =>
    by_cases hn : p n = true
    · refine ⟨n + 1, Nat.le_refl _, fun i hi => ?_, fun i hi hlt => by omega⟩
      exact h i n (Nat.le_of_lt_succ hi) (Nat.lt_succ_self n) hn
    · obtain ⟨k, hk, hbelow, habove⟩ := ih fun i j hij hj => h i j hij (Nat.lt_succ_of_lt hj)
      refine ⟨k, Nat.le_succ_of_le hk, hbelow, fun i hi hlt => ?_⟩
      rcases Nat.lt_succ_iff_lt_or_eq.mp hlt with hlt | rfl
      · exact habove i hi hlt
      · exact Bool.eq_false_iff.mpr hn

/-- The search finds `k` exactly if `k` is the last place where the property holds. -/
theorem lastHolding?_eq_some_iff (h : HoldsUpTo n p) {k : Nat} :
    lastHolding? n p = some k ↔ k < n ∧ p k = true ∧ ∀ i, k < i → i < n → p i = false := by
  obtain ⟨m, hm, hbelow, habove⟩ := h.exists_point
  rw [lastHolding?, partitionPoint_eq hm hbelow habove]
  constructor
  · cases m with
    | zero => simp
    | succ m =>
      intro hk
      obtain rfl : m = k := Option.some.inj hk
      exact ⟨hm, hbelow m (Nat.lt_succ_self m), habove⟩
  · rintro ⟨hk, hpk, hlast⟩
    have hlt : k < m := by
      rcases Nat.lt_or_ge k m with hlt | hge
      · exact hlt
      · exact absurd (habove k hge hk) (by simp [hpk])
    obtain rfl : m = k + 1 := by
      rcases Nat.lt_or_ge (k + 1) m with hgt | hle
      · exact absurd (hlast (k + 1) (Nat.lt_succ_self k) (by omega)) (by simp [hbelow _ hgt])
      · omega
    rfl

/-- The search finds nothing exactly if the property holds nowhere. -/
theorem lastHolding?_eq_none_iff (h : HoldsUpTo n p) :
    lastHolding? n p = none ↔ ∀ i, i < n → p i = false := by
  obtain ⟨m, hm, hbelow, habove⟩ := h.exists_point
  rw [lastHolding?, partitionPoint_eq hm hbelow habove]
  cases m with
  | zero => simpa using fun i hi => habove i (Nat.zero_le i) hi
  | succ m =>
    simp only [reduceCtorEq, false_iff]
    intro hnone
    exact absurd (hnone m hm) (by simp [hbelow m (Nat.lt_succ_self m)])

end HoldsUpTo

/-! ### Keys that do not decrease -/

section Keys

variable {α : Type} {key : α → Nat} {xs : List α}

/-- Keys that do not decrease are at most a bound up to some place. -/
theorem holdsUpTo_of_pairwise (h : xs.Pairwise fun a b => key a ≤ key b) (bound : Nat) :
    HoldsUpTo xs.length fun i => xs[i]?.any fun x => key x ≤ bound := by
  intro i j hij hj hkey
  have hi : i < xs.length := by omega
  simp only [List.getElem?_eq_getElem, hi, hj, Option.any_some, decide_eq_true_eq] at hkey ⊢
  rcases Nat.lt_or_eq_of_le hij with hlt | rfl
  · exact Nat.le_trans (List.pairwise_iff_getElem.mp h i j hi hj hlt) hkey
  · exact hkey

/-- The last key that is at most a bound is found, and no later one is. -/
theorem lastHolding?_key_eq_some_iff (h : xs.Pairwise fun a b => key a ≤ key b) {bound k : Nat} :
    lastHolding? xs.length (fun i => xs[i]?.any fun x => key x ≤ bound) = some k ↔
      ∃ x, xs[k]? = some x ∧ key x ≤ bound ∧
        ∀ i y, k < i → xs[i]? = some y → bound < key y := by
  rw [(holdsUpTo_of_pairwise h bound).lastHolding?_eq_some_iff]
  constructor
  · rintro ⟨hk, hkey, hlast⟩
    refine ⟨xs[k], List.getElem?_eq_getElem hk, by simpa [hk] using hkey, fun i y hi hy => ?_⟩
    have hlt := (List.getElem?_eq_some_iff.mp hy).1
    simpa [hy] using hlast i hi hlt
  · rintro ⟨x, hx, hkey, hlast⟩
    refine ⟨(List.getElem?_eq_some_iff.mp hx).1, by simpa [hx] using hkey, fun i hi hlt => ?_⟩
    simpa [hlt] using hlast i xs[i] hi (List.getElem?_eq_getElem hlt)

/-- No key is found exactly if all of them are above the bound. -/
theorem lastHolding?_key_eq_none_iff (h : xs.Pairwise fun a b => key a ≤ key b) {bound : Nat} :
    lastHolding? xs.length (fun i => xs[i]?.any fun x => key x ≤ bound) = none ↔
      ∀ x ∈ xs, bound < key x := by
  rw [(holdsUpTo_of_pairwise h bound).lastHolding?_eq_none_iff, List.forall_mem_iff_forall_getElem]
  constructor
  · intro hnone i hi
    simpa [hi] using hnone i hi
  · intro habove i hi
    simpa [hi] using habove i hi

end Keys
end LpcInspect
