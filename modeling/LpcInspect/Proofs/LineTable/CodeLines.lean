import LpcInspect.Proofs.Bisect
import LpcInspect.Proofs.LineTable.Acceptance

/-!
# The lines of code bytes

The runs of code bytes of a table are `Adjoining`: each of them starts where the one before it ends.
A run may be empty, and then the next one starts at the same address. So many runs may start at an
address, but each address before the end lies in exactly one run. The search by halving finds the
last run that does not start after the address, and that is the one. `lineAfter?` goes through the
runs from the first one on and counts code bytes instead, and has the same answers for every table
that can be decoded.
-/

namespace LpcInspect

namespace AddressSegment

/-- The address after the last byte of a run. -/
def stop (s : AddressSegment) : Nat := s.start + s.span.toNat

/-- An address lies in a run. -/
def Covers (s : AddressSegment) (address : Nat) : Prop := s.start ≤ address ∧ address < s.stop

theorem start_le_stop (s : AddressSegment) : s.start ≤ s.stop := Nat.le_add_right _ _

end AddressSegment

namespace LineTable

/-- The number of code bytes of some runs. -/
def codeTotal : List AddressSegment → Nat
  | [] => 0
  | s :: rest => s.span.toNat + codeTotal rest

/-- The line of the code byte that comes after `count` others. The addresses of the runs are not
looked at. -/
def lineAfter? (count : Nat) : List AddressSegment → Option UInt32
  | [] => none
  | s :: rest =>
    if count < s.span.toNat then some s.line else lineAfter? (count - s.span.toNat) rest

/-- The first run starts at `start`, and each other one where the one before it ends. -/
def Adjoining (start : Nat) : List AddressSegment → Prop
  | [] => True
  | s :: rest => s.start = start ∧ Adjoining s.stop rest

theorem lineAfter?_eq_none_iff {count : Nat} {runs : List AddressSegment} :
    lineAfter? count runs = none ↔ codeTotal runs ≤ count := by
  induction runs generalizing count with
  | nil => simp [lineAfter?, codeTotal]
  | cons s rest ih =>
    unfold lineAfter? codeTotal
    by_cases hin : count < s.span.toNat
    · simp only [if_pos hin, reduceCtorEq, false_iff]
      omega
    · rw [if_neg hin, ih]
      omega

/-! ### Runs that adjoin -/

namespace Adjoining

variable {start : Nat} {runs : List AddressSegment}

theorem start_le (h : Adjoining start runs) : ∀ s ∈ runs, start ≤ s.start := by
  induction runs generalizing start with
  | nil => simp
  | cons first rest ih =>
    obtain ⟨rfl, hrest⟩ := h
    intro s hs
    rcases List.mem_cons.mp hs with rfl | hs
    · exact Nat.le_refl _
    · exact Nat.le_trans first.start_le_stop (ih hrest s hs)

theorem pairwise (h : Adjoining start runs) :
    runs.Pairwise fun s later => s.stop ≤ later.start := by
  induction runs generalizing start with
  | nil => exact .nil
  | cons first rest ih => exact .cons h.2.start_le (ih h.2)

/-- A run ends before any later one starts, or where it starts. -/
theorem stop_le_start (h : Adjoining start runs) {i j : Nat} {s later : AddressSegment}
    (hi : runs[i]? = some s) (hj : runs[j]? = some later) (hij : i < j) :
    s.stop ≤ later.start := by
  obtain ⟨hi', rfl⟩ := List.getElem?_eq_some_iff.mp hi
  obtain ⟨hj', rfl⟩ := List.getElem?_eq_some_iff.mp hj
  exact List.pairwise_iff_getElem.mp h.pairwise i j hi' hj' hij

theorem stop_le (h : Adjoining start runs) : ∀ s ∈ runs, s.stop ≤ start + codeTotal runs := by
  induction runs generalizing start with
  | nil => simp
  | cons first rest ih =>
    obtain ⟨rfl, hrest⟩ := h
    have htotal : first.start + codeTotal (first :: rest) = first.stop + codeTotal rest := by
      rw [codeTotal, AddressSegment.stop, Nat.add_assoc]
    rw [htotal]
    intro s hs
    rcases List.mem_cons.mp hs with rfl | hs
    · exact Nat.le_add_right _ _
    · exact ih hrest s hs

/-- **An address before the end lies in some run**, and this is where counting code bytes ends. -/
theorem exists_covers (h : Adjoining start runs) {address : Nat} (hle : start ≤ address)
    (hlt : address < start + codeTotal runs) :
    ∃ (k : Nat) (s : AddressSegment), runs[k]? = some s ∧ s.Covers address ∧
      lineAfter? (address - start) runs = some s.line := by
  induction runs generalizing start with
  | nil =>
    simp only [codeTotal] at hlt
    omega
  | cons first rest ih =>
    obtain ⟨rfl, hrest⟩ := h
    have hstop : first.stop = first.start + first.span.toNat := rfl
    unfold lineAfter?
    by_cases hin : address < first.stop
    · refine ⟨0, first, rfl, ⟨hle, hin⟩, if_pos ?_⟩
      omega
    · simp only [codeTotal] at hlt
      obtain ⟨k, s, hk, hcovers, hline⟩ := ih hrest (by omega) (by omega)
      refine ⟨k + 1, s, hk, hcovers, ?_⟩
      rw [if_neg (by omega), Nat.sub_sub, ← hstop, hline]

/-- No address lies in two runs. -/
theorem eq_of_covers (h : Adjoining start runs) {i j address : Nat} {s s' : AddressSegment}
    (hi : runs[i]? = some s) (hj : runs[j]? = some s') (hs : s.Covers address)
    (hs' : s'.Covers address) : i = j := by
  obtain ⟨hle, hlt⟩ := hs
  obtain ⟨hle', hlt'⟩ := hs'
  rcases Nat.lt_trichotomy i j with hij | hij | hij
  · have := h.stop_le_start hi hj hij
    omega
  · exact hij
  · have := h.stop_le_start hj hi hij
    omega

end Adjoining

/-- The runs of a table are read one after the other, each where the last one ended. -/
theorem adjoining_addressSegments (start : Nat) (runs : List (UInt8 × UInt32)) :
    Adjoining start (LineBlob.addressSegments start runs) := by
  induction runs generalizing start with
  | nil => trivial
  | cons run rest ih => exact ⟨rfl, ih _⟩

theorem adjoining_of_decode {p : Program} {width : Nat} {t : LineTable}
    (h : decode p width = .ok t) : Adjoining 0 t.addresses.toList := by
  obtain ⟨blob, hp, hregular⟩ := exists_regular_of_decode h
  obtain ⟨b, -, -, -, -, -, -, hok⟩ := decode_of_regular hp hregular
  rw [h] at hok
  cases hok
  exact adjoining_addressSegments 0 b.addresses

/-! ### The search -/

/-- The search finds the run that an address lies in: no later run starts before its end. -/
theorem absoluteLine?_of_covers {t : LineTable} (h : Adjoining 0 t.addresses.toList) {k : Nat}
    {s : AddressSegment} {address : Nat} (hk : t.addresses[k]? = some s)
    (hs : s.Covers address) : t.absoluteLine? address = some s.line := by
  have horder : t.addresses.toList.Pairwise fun a b => a.start ≤ b.start :=
    h.pairwise.imp fun {a _} hab => Nat.le_trans a.start_le_stop hab
  rw [← Array.getElem?_toList] at hk
  have hlast : ∀ i later, k < i → t.addresses.toList[i]? = some later → address < later.start := by
    intro i later hi hlater
    exact Nat.lt_of_lt_of_le hs.2 (h.stop_le_start hk hlater hi)
  have hfound := (lastHolding?_key_eq_some_iff horder).mpr ⟨s, hk, hs.1, hlast⟩
  simp only [Array.getElem?_toList, Array.length_toList] at hfound hk
  rw [absoluteLine?, hfound]
  simp only [hk, Option.bind_some]
  exact if_pos hs.2

/-- After the end of all runs there is no line, whatever run the search finds. -/
theorem absoluteLine?_of_stop_le {t : LineTable} {address : Nat}
    (h : ∀ s ∈ t.addresses.toList, s.stop ≤ address) : t.absoluteLine? address = none := by
  unfold absoluteLine?
  split
  · rfl
  · rename_i k _
    cases hk : t.addresses[k]? with
    | none => rfl
    | some s =>
      have hstop := h s (Array.mem_toList_iff.mpr (Array.mem_of_getElem? hk))
      exact if_neg (Nat.not_lt.mpr hstop)

/-- **The lines of code bytes.** An address before the end of all runs has the line of the one run
that it lies in, empty runs notwithstanding, and every other address has none. -/
theorem absoluteLine?_covering {p : Program} {width : Nat} {t : LineTable}
    (h : decode p width = .ok t) (address : Nat) :
    (t.absoluteLine? address = none ↔ codeTotal t.addresses.toList ≤ address) ∧
    (address < codeTotal t.addresses.toList → ∃ (k : Nat) (s : AddressSegment),
      t.addresses[k]? = some s ∧ s.Covers address ∧ t.absoluteLine? address = some s.line ∧
      ∀ (j : Nat) (other : AddressSegment), t.addresses[j]? = some other →
        other.Covers address → j = k) ∧
    t.absoluteLine? address = lineAfter? address t.addresses.toList := by
  have hruns := adjoining_of_decode h
  rcases Nat.lt_or_ge address (codeTotal t.addresses.toList) with hlt | hge
  · obtain ⟨k, s, hk, hcovers, hcount⟩ :=
      hruns.exists_covers (Nat.zero_le address) (by rwa [Nat.zero_add])
    rw [Array.getElem?_toList] at hk
    have hline := absoluteLine?_of_covers hruns hk hcovers
    refine ⟨?_, fun _ => ⟨k, s, hk, hcovers, hline, fun j other hj hother => ?_⟩, ?_⟩
    · simp only [hline, reduceCtorEq, false_iff]
      omega
    · rw [← Array.getElem?_toList] at hj hk
      exact hruns.eq_of_covers hj hk hother hcovers
    · rw [hline, ← hcount, Nat.sub_zero]
  · have hnone : t.absoluteLine? address = none := by
      apply absoluteLine?_of_stop_le
      intro s hs
      have := hruns.stop_le s hs
      omega
    refine ⟨iff_of_true hnone hge, fun hlt => absurd hlt (Nat.not_lt.mpr hge), ?_⟩
    rw [hnone, lineAfter?_eq_none_iff.mpr hge]

/-- Runs of which those at both ends and two between the others are empty. -/
def emptyRuns : LineBlob := ⟨2, [], [(0, 1), (3, 5), (0, 9), (0, 10), (2, 7), (0, 8)]⟩

theorem absoluteLine?_emptyRuns :
    ∃ t, decode { lineInfo := some emptyRuns.encode.toArray } 2 = .ok t ∧
      t.absoluteLine? 0 = some 5 ∧ t.absoluteLine? 3 = some 7 ∧ t.absoluteLine? 5 = none := by
  have hencodable : emptyRuns.Encodable := ⟨.inl rfl, by simp [emptyRuns, Bytes.capacity]⟩
  have hdecode := decode_of_starts hencodable (by decide) (List.prefix_refl _)
    (p := { lineInfo := some emptyRuns.encode.toArray }) rfl
  refine ⟨_, hdecode, ?_, ?_, ?_⟩
  · rw [(absoluteLine?_covering hdecode 0).2.2]
    rfl
  · rw [(absoluteLine?_covering hdecode 3).2.2]
    rfl
  · rw [(absoluteLine?_covering hdecode 5).1]
    exact Nat.le_refl 5

end LineTable
end LpcInspect
