import LpcInspect.Proofs.Assembly.RoundTrip
import LpcInspect.Proofs.Listing.Items
import LpcInspect.Proofs.Listing.Nesting

/-!
# Raising the greatest depth of switches

The settings limit how deep switches may lie in each other. A switch that lies deeper is passed over
with a diagnostic, and its body and its table are not shown. Under a higher limit such a switch may
have its body listed, and that is all that changes: the windows around it go on at the same address,
with the same source line shown last and the same functions still to come.

`Disassembler.item_raise` says what a higher limit does to one item. Along a window it follows that
the listing under the lower limit, without these diagnostics, is found in the listing under the
higher one, and that a listing without these diagnostics does not change at all.
-/

namespace LpcInspect

/-- Whether a record says that a switch lies inside of too many others. -/
def Record.isNestingTooDeep : Record → Bool
  | .diagnostic _ .nestingTooDeep => true
  | _ => false

namespace Disassembler

/-- The disassembler with another greatest depth of switches. -/
def withMaxSwitchDepth (d : Disassembler) (limit : Nat) : Disassembler :=
  { d with settings := { d.settings with maxSwitchDepth := limit } }

section Raise

variable (d : Disassembler) {limit limit' : Nat}

@[simp] theorem maxSwitchDepth_withMaxSwitchDepth (limit : Nat) :
    (d.withMaxSwitchDepth limit).settings.maxSwitchDepth = limit := rfl

@[simp] theorem operandReader_withMaxSwitchDepth (limit position stop : Nat) :
    (d.withMaxSwitchDepth limit).operandReader position stop = d.operandReader position stop := rfl

/-- **A higher limit changes an item only where the lower one hides a body.** There the diagnostic
goes and the body comes, and the window goes on at the same address. -/
theorem item_raise (h : limit ≤ limit') (depth position stop : Nat) (opcode : UInt8) :
    (d.withMaxSwitchDepth limit').item depth position stop opcode =
        (d.withMaxSwitchDepth limit).item depth position stop opcode ∨
      ∃ i next table,
        (d.withMaxSwitchDepth limit).item depth position stop opcode =
          ⟨[.instruction i, .diagnostic position .nestingTooDeep], next, none⟩ ∧
        (d.withMaxSwitchDepth limit').item depth position stop opcode =
          ⟨[.instruction i], next, some table⟩ := by
  rcases item_cases d.opcodes opcode with
    ⟨cause, hitem⟩ | ⟨mnemonic, hitem⟩ | ⟨mnemonic, encoding, -, hitem⟩
  · left
    rw [hitem (d.withMaxSwitchDepth limit') rfl, hitem (d.withMaxSwitchDepth limit) rfl]
  · rw [hitem (d.withMaxSwitchDepth limit') rfl, hitem (d.withMaxSwitchDepth limit) rfl]
    simp only [switchItem, operandReader_withMaxSwitchDepth, maxSwitchDepth_withMaxSwitchDepth]
    split
    · exact .inl rfl
    · split
      · exact .inl rfl
      · by_cases hlow : limit < depth
        · by_cases hhigh : limit' < depth
          · simp [hlow, hhigh]
          · simp [hlow, hhigh]
        · have hhigh : ¬limit' < depth := fun hlt => hlow (Nat.lt_of_le_of_lt h hlt)
          simp [hlow, hhigh]
  · left
    rw [hitem (d.withMaxSwitchDepth limit') rfl, hitem (d.withMaxSwitchDepth limit) rfl]
    rfl

/-- The listing under the lower limit, without what it says about hidden bodies, is found in the
listing under the higher one. -/
theorem listing_raise_sublist (h : limit ≤ limit') (depth stop : Nat) (shown : Option Location)
    (markers : List Marker) (position : Nat) :
    (((d.withMaxSwitchDepth limit).listing depth stop shown markers position).filter
      (!·.isNestingTooDeep)).Sublist
      ((d.withMaxSwitchDepth limit').listing depth stop shown markers position) := by
  induction depth, stop, position using (d.withMaxSwitchDepth limit).window_induction
    generalizing shown markers with
  | done depth stop position hdone =>
    rw [listing_of_done hdone]
    exact List.nil_sublist _
  | item depth stop position opcode hpos hopcode ihBody ihNext =>
    have hopcode' : (d.withMaxSwitchDepth limit').program.code[position]? = some opcode := hopcode
    have hheading : (((d.withMaxSwitchDepth limit).heading shown markers position).filter
        (!·.isNestingTooDeep)).Sublist
        ((d.withMaxSwitchDepth limit').heading shown markers position) := List.filter_sublist
    rw [listing_of_some hpos hopcode, listing_of_some hpos hopcode']
    simp only [List.filter_append]
    rcases d.item_raise h depth position stop opcode with hitem | ⟨i, next, table, hlow, hhigh⟩
    · -- Both limits treat the item alike, and its body is compared one level down.
      rw [hitem]
      refine ((hheading.append List.filter_sublist).append ?_).append (ihNext _ _)
      cases hbody : ((d.withMaxSwitchDepth limit).item depth position stop opcode).body? with
      | none => exact List.nil_sublist _
      | some table =>
        rw [bodyListing, bodyListing, List.filter_append]
        exact (ihBody table hbody none []).append List.filter_sublist
    · -- Only the higher limit lists the body, whatever the body shows.
      rw [hlow] at ihNext ⊢
      rw [hhigh]
      exact ((hheading.append (List.Sublist.refl [.instruction i])).append
        (List.nil_sublist _)).append (ihNext _ _)

/-- A listing that hides no body is the same under every higher limit. -/
theorem listing_raise_eq (h : limit ≤ limit') (depth stop : Nat) (shown : Option Location)
    (markers : List Marker) (position : Nat)
    (hnone : ∀ record ∈ (d.withMaxSwitchDepth limit).listing depth stop shown markers position,
      record.isNestingTooDeep = false) :
    (d.withMaxSwitchDepth limit').listing depth stop shown markers position =
      (d.withMaxSwitchDepth limit).listing depth stop shown markers position := by
  induction depth, stop, position using (d.withMaxSwitchDepth limit).window_induction
    generalizing shown markers with
  | done depth stop position hdone =>
    have hdone' : position < stop → (d.withMaxSwitchDepth limit').program.code[position]? = none :=
      hdone
    rw [listing_of_done hdone, listing_of_done hdone']
  | item depth stop position opcode hpos hopcode ihBody ihNext =>
    have hopcode' : (d.withMaxSwitchDepth limit').program.code[position]? = some opcode := hopcode
    rw [listing_of_some hpos hopcode] at hnone
    simp only [List.forall_mem_append] at hnone
    obtain ⟨⟨⟨-, hitems⟩, hbodies⟩, hrest⟩ := hnone
    rw [listing_of_some hpos hopcode, listing_of_some hpos hopcode']
    rcases d.item_raise h depth position stop opcode with hitem | ⟨i, next, table, hlow, hhigh⟩
    · have hbodyListing : (d.withMaxSwitchDepth limit').bodyListing depth
            ((d.withMaxSwitchDepth limit).item depth position stop opcode).body? =
          (d.withMaxSwitchDepth limit).bodyListing depth
            ((d.withMaxSwitchDepth limit).item depth position stop opcode).body? := by
        cases hbody : ((d.withMaxSwitchDepth limit).item depth position stop opcode).body? with
        | none => rfl
        | some table =>
          rw [hbody, bodyListing, List.forall_mem_append] at hbodies
          rw [bodyListing, bodyListing, ihBody table hbody none [] hbodies.1]
          rfl
      rw [hitem, hbodyListing, ← ihNext _ _ hrest]
      rfl
    · rw [hlow] at hitems
      exact absurd (hitems _ (.tail _ (.head _))) (by simp [Record.isNestingTooDeep])

end Raise

/-- **Raising the greatest depth of switches only reveals more**, and changes nothing if no switch
was nested too deeply. -/
theorem decode_raise_depth (d : Disassembler) {limit limit' : Nat} (h : limit ≤ limit')
    (start stop : Nat) :
    (((d.withMaxSwitchDepth limit).decode start stop).filter (!·.isNestingTooDeep)).Sublist
        ((d.withMaxSwitchDepth limit').decode start stop) ∧
      ((∀ record ∈ (d.withMaxSwitchDepth limit).decode start stop,
          record.isNestingTooDeep = false) →
        (d.withMaxSwitchDepth limit').decode start stop =
          (d.withMaxSwitchDepth limit).decode start stop) := by
  rw [decode_eq_outermost_listing, decode_eq_outermost_listing]
  exact ⟨d.listing_raise_sublist h 1 _ _ _ _, d.listing_raise_eq h 1 _ _ _ _⟩

/-- The inner one of two switches is hidden under the limit one, and nothing is hidden under the
limit two. -/
theorem decode_raise_depth_nested :
    let p : Program := { code := CodeTree.nested.bytes.toArray, strings := [[97]] }
    let d : Disassembler := { program := p, opcodes := .standard }
    1 ≤ 2 ∧ 2 ≤ 32 ∧
      ((d.withMaxSwitchDepth 1).decode 0 p.size)[3]? = some (.diagnostic 11 .nestingTooDeep) ∧
      (((d.withMaxSwitchDepth 1).decode 0 p.size).filter (!·.isNestingTooDeep)).Sublist
        ((d.withMaxSwitchDepth 2).decode 0 p.size) ∧
      (∀ record ∈ (d.withMaxSwitchDepth 2).decode 0 p.size, record.isNestingTooDeep = false) ∧
      (d.withMaxSwitchDepth 32).decode 0 p.size = (d.withMaxSwitchDepth 2).decode 0 p.size := by
  intro p d
  have hhidden : ((d.withMaxSwitchDepth 1).decode 0 p.size)[3]? =
      some (.diagnostic 11 .nestingTooDeep) := by
    rw [decode, Cursor.getElem?_toList]
    decide +kernel
  have hfits : CodeTree.nested.Fits := by simp only [CodeTree.nested, CodeTree.Fits]; decide
  have hlisting : (d.withMaxSwitchDepth 2).decodeAll = CodeTree.nested.records p .standard 0 :=
    decodeAll_of_code rfl rfl rfl rfl rfl hfits (by decide)
  have hnone : ∀ record ∈ (d.withMaxSwitchDepth 2).decode 0 p.size,
      record.isNestingTooDeep = false := by
    intro record hrecord
    have hall : (CodeTree.nested.records p .standard 0).all (!·.isNestingTooDeep) = true := by rfl
    simpa using List.all_eq_true.mp hall record (hlisting ▸ hrecord)
  exact ⟨by decide, by decide, hhidden, (decode_raise_depth d (by decide) 0 p.size).1, hnone,
    (decode_raise_depth d (by decide) 0 p.size).2 hnone⟩

end Disassembler
end LpcInspect
