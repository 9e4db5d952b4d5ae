/-!
# Search by halving

`partitionPoint n p` finds where `p` stops holding among `0, …, n - 1`, if it holds exactly up to
some point, with a number of tests that grows as the logarithm of `n`.
-/

namespace LpcInspect

/-- The point in `[low, high]` where `p` stops holding. -/
def partitionPointIn (p : Nat → Bool) (low high : Nat) : Nat :=
  if low < high then
    let middle := (low + high) / 2
    if p middle then partitionPointIn p (middle + 1) high else partitionPointIn p low middle
  else low
termination_by high - low

/-- The point below or at `n` where `p` stops holding. -/
def partitionPoint (n : Nat) (p : Nat → Bool) : Nat := partitionPointIn p 0 n

/-- The last of `0, …, n - 1` at which `p` holds, if it holds exactly up to some point. -/
def lastHolding? (n : Nat) (p : Nat → Bool) : Option Nat :=
  match partitionPoint n p with
  | 0 => none
  | k + 1 => some k

/-- A search for a property that holds exactly below `k` finds `k`. -/
theorem partitionPointIn_eq {p : Nat → Bool} {low high k : Nat}
    (below : ∀ i, i < k → i < high → p i = true) (above : ∀ i, k ≤ i → i < high → p i = false)
    (hlow : low ≤ k) (hhigh : k ≤ high) : partitionPointIn p low high = k := by
  fun_induction partitionPointIn p low high with
  | case1 low high h middle hp ih =>
    have hk : middle < k := by
      rcases Nat.lt_or_ge middle k with hlt | hge
      · exact hlt
      · have := above middle hge (by omega)
        simp_all
    exact ih below above hk hhigh
  | case2 low high h middle hp ih =>
    have hk : k ≤ middle := by
      rcases Nat.lt_or_ge middle k with hlt | hge
      · have := below middle hlt (by omega)
        simp_all
      · exact hge
    exact ih (fun i hi hm => below i hi (by omega)) (fun i hi hm => above i hi (by omega)) hlow hk
  | case3 low high h => omega

/-- The partition point of a property that holds exactly below `k` is `k`. -/
theorem partitionPoint_eq {n k : Nat} {p : Nat → Bool} (hk : k ≤ n)
    (below : ∀ i, i < k → p i = true) (above : ∀ i, k ≤ i → i < n → p i = false) :
    partitionPoint n p = k :=
  partitionPointIn_eq (fun i hi _ => below i hi) above (Nat.zero_le k) hk

end LpcInspect
