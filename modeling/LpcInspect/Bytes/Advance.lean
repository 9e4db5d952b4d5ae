import LpcInspect.Bytes.Reader

/-!
# Reads go forward

A read that succeeds never moves its reader back, and stays in the same window.
-/

namespace LpcInspect

/-- A computation that never moves its reader back when it succeeds. -/
def Advances {α : Type} (m : Decode α) : Prop :=
  ∀ ⦃r : Reader⦄ ⦃x : α⦄ ⦃r' : Reader⦄, m r = .ok (x, r') → r.position ≤ r'.position

namespace Advances

variable {α β : Type}

theorem pure (x : α) : Advances (pure x : Decode α) := by
  intro r y r' h
  cases h
  exact Nat.le_refl _

theorem bind {m : Decode α} {f : α → Decode β} (hm : Advances m) (hf : ∀ x, Advances (f x)) :
    Advances (m >>= f) := by
  intro r y r' h
  cases hs : m r with
  | error e => simp [Bind.bind, StateT.bind, Except.bind, hs] at h
  | ok found =>
    have hf' : f found.1 found.2 = .ok (y, r') := by
      simpa [Bind.bind, StateT.bind, Except.bind, hs] using h
    exact Nat.le_trans (hm hs) (hf found.1 hf')

theorem offset : Advances Reader.offset := by
  intro r x r' h
  cases h
  exact Nat.le_refl _

theorem take (count : Nat) : Advances (Reader.take count) := by
  intro r x r' h
  unfold Reader.take at h
  split at h
  · cases h
    exact Nat.le_add_right _ _
  · cases h

theorem skip (count : Nat) : Advances (Reader.skip count) := by
  intro r x r' h
  unfold Reader.skip at h
  split at h
  · cases h
    exact Nat.le_add_right _ _
  · cases h

theorem uint8 : Advances Reader.uint8 := bind (take 1) fun _ => pure _

theorem uint16 : Advances Reader.uint16 := bind (take 2) fun _ => pure _

theorem int16 : Advances Reader.int16 := bind (take 2) fun _ => pure _

theorem int32 : Advances Reader.int32 := bind (take 4) fun _ => pure _

theorem uint64 : Advances Reader.uint64 := bind (take 8) fun _ => pure _

theorem int64 : Advances Reader.int64 := bind (take 8) fun _ => pure _

theorem uint8s (count : Nat) : Advances (Reader.uint8s count) := by
  induction count with
  | zero => exact pure _
  | succ count ih => exact bind uint8 fun _ => bind ih fun _ => pure _

end Advances
end LpcInspect
