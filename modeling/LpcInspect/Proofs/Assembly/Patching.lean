import LpcInspect.Proofs.Assembly.CodeTree
import LpcInspect.Proofs.LineTable.Runs

/-!
# Fields that are patched later

A call of a writer appends bytes or patches a field of two bytes, `Writer.next?_cases`. A patch
replaces the bytes of its field and no others, so it may be made before or after any call that
leaves the field alone, `Writer.next?_of_patch?`, and before or after any number of them,
`Writer.run?_of_patch?`. A field that is reserved first and patched when its value is known
therefore comes out as if it had been emitted with its value, whatever is emitted, reserved and
patched in between. The header of a line table is written in this way.
-/

namespace LpcInspect

namespace Writer

/-- The writer that a call leaves, if it is not refused. -/
def next? (w : Writer) (s : Step) : Option Writer := (w.step? s).map Prod.snd

/-- The writer after calls made one after the other, if none of them is refused. -/
def run? (w : Writer) : List Step → Option Writer
  | [] => some w
  | s :: steps => (w.next? s).bind (·.run? steps)

/-- Two fields of two bytes have no byte in common. -/
def Apart (a b : Nat) : Prop := a + 2 ≤ b ∨ b + 2 ≤ a

namespace Step

/-- A call that patches no byte of the field at an offset. -/
def Spares (field : Nat) : Step → Prop
  | .patch offset _ => Apart offset field
  | _ => True

/-- A call that patches no byte after the first `size`. -/
def Fits (size : Nat) : Step → Prop
  | .patch offset _ => offset + 2 ≤ size
  | _ => True

/-- The bytes that a call appends. -/
def bytes : Step → Bytes
  | .scalar value => value.encode
  | .opcode op => [op.byte]
  | .withUInt8 op operand => [op.byte] ++ [operand]
  | .withUInt16 op operand => [op.byte] ++ (Scalar.uint16 operand).encode
  | .push tags => [Opcode.push.byte] ++ [UInt8.ofNat tags.length] ++ tags
  | .number value => [Opcode.number.byte] ++ (Scalar.int64 value).encode
  | .real bits => [Opcode.real.byte] ++ (Scalar.float64 bits).encode
  | .shortInt value => [Opcode.shortInt.byte] ++ (Scalar.int16 value).encode
  | .call function args =>
    [Opcode.call.byte] ++ (Scalar.uint16 function).encode ++ [args] ++ (Scalar.uint16 0).encode
  | .callInherited link function args =>
    [Opcode.callInherited.byte] ++ [link] ++ (Scalar.uint16 function).encode ++ [args] ++
      (Scalar.uint16 0).encode
  | .switch fields => [Opcode.switch.byte] ++ fields.bytes
  | .patch _ _ => []
  | .reserve => (Scalar.uint16 0).encode

/-- Every patch among the calls lies inside the first `size` bytes and what the calls before it
append to them. -/
def AllFit (size : Nat) : List Step → Prop
  | [] => True
  | s :: steps => s.Fits size ∧ AllFit (size + s.bytes.length) steps

end Step

theorem run?_append (w : Writer) (steps more : List Step) :
    w.run? (steps ++ more) = (w.run? steps).bind (·.run? more) := by
  induction steps generalizing w with
  | nil => rfl
  | cons s steps ih => simp only [List.cons_append, run?, Option.bind_assoc, ih]

/-- Writers are equal if they have the same bytes. -/
theorem ext_getElem? {w w' : Writer} (h : ∀ i : Nat, w.buffer[i]? = w'.buffer[i]?) : w = w' := by
  cases w
  cases w'
  exact congrArg mk (Array.ext_getElem? h)

/-! ### One patch -/

section Patch

variable {w w' : Writer} {a b : Nat} {x y : UInt16}

theorem next?_patch (w : Writer) (a : Nat) (x : UInt16) : w.next? (.patch a x) = w.patch? a x := by
  simp only [next?, step?, Option.map_map]
  exact Option.map_id'

theorem exists_patch? (h : a + 2 ≤ w.offset) (x : UInt16) : ∃ w', w.patch? a x = some w' :=
  ⟨_, if_pos h⟩

theorem le_of_patch? (h : w.patch? a x = some w') : a + 2 ≤ w.offset := by
  unfold patch? at h
  split at h
  · assumption
  · cases h

/-- **A patch replaces the two bytes of its field and no others.** -/
theorem getElem?_of_patch? (h : w.patch? a x = some w') (i : Nat) :
    w'.buffer[i]? = if i = a then some (UInt8.ofNat x.toNat)
      else if i = a + 1 then some (UInt8.ofNat (x.toNat / 256)) else w.buffer[i]? := by
  have hle : a + 2 ≤ w.buffer.size := le_of_patch? h
  rw [patch?, if_pos hle] at h
  cases h
  simp only [Array.getElem?_setIfInBounds, Array.size_setIfInBounds]
  by_cases hlow : i = a
  · subst hlow
    rw [if_neg (by omega), if_pos rfl, if_pos (by omega), if_pos rfl]
  · by_cases hhigh : i = a + 1
    · subst hhigh
      rw [if_pos rfl, if_pos (by omega), if_neg hlow, if_pos rfl]
    · rw [if_neg (Ne.symm hhigh), if_neg (Ne.symm hlow), if_neg hlow, if_neg hhigh]

/-- A patch may be made before or after bytes are appended. -/
theorem patch?_bytes_of_patch? (h : w.patch? a x = some w') (bs : Bytes) :
    (w.bytes bs).patch? a x = some (w'.bytes bs) := by
  have hle := le_of_patch? h
  have hsize : w'.buffer.size = w.buffer.size := offset_of_patch? h
  have hin : a + 2 ≤ (w.bytes bs).offset := by
    rw [offset_bytes]
    omega
  obtain ⟨v, hv⟩ := exists_patch? hin x
  rw [hv, Option.some_inj]
  apply ext_getElem?
  intro i
  rw [getElem?_of_patch? hv, buffer_bytes, buffer_bytes, Array.getElem?_append,
    Array.getElem?_append, getElem?_of_patch? h, hsize]
  unfold offset at hle
  by_cases hi : i < w.buffer.size
  · rw [if_pos hi, if_pos hi]
  · rw [if_neg hi, if_neg hi, if_neg (by omega), if_neg (by omega)]

/-- A patch of one field may be made before or after that of another, if they are apart. -/
theorem patch?_bind_of_patch? (hab : Apart b a) (h : w.patch? a x = some w') (y : UInt16) :
    (w.patch? b y).bind (·.patch? a x) = w'.patch? b y := by
  by_cases hb : b + 2 ≤ w.offset
  · obtain ⟨v, hv⟩ := exists_patch? hb y
    obtain ⟨u, hu⟩ := exists_patch? (offset_of_patch? hv ▸ le_of_patch? h) x
    obtain ⟨u', hu'⟩ := exists_patch? (offset_of_patch? h ▸ hb) y
    rw [hv, Option.bind_some, hu, hu', Option.some_inj]
    apply ext_getElem?
    intro i
    rw [getElem?_of_patch? hu, getElem?_of_patch? hu', getElem?_of_patch? h,
      getElem?_of_patch? hv]
    -- At most one of the two patches has a byte for `i`.
    unfold Apart at hab
    grind
  · have hlt : w'.offset < b + 2 := by
      rw [offset_of_patch? h]
      omega
    rw [(patch?_eq_none_iff w b y).mpr (Nat.lt_of_not_le hb),
      (patch?_eq_none_iff w' b y).mpr hlt]
    rfl

/-- A patch that is refused is refused after any other patch too. -/
theorem patch?_bind_of_lt (h : w.offset < a + 2) (x : UInt16) (b : Nat) (y : UInt16) :
    (w.patch? b y).bind (·.patch? a x) = none := by
  cases hv : w.patch? b y with
  | none => rfl
  | some v =>
    rw [Option.bind_some, patch?_eq_none_iff, offset_of_patch? hv]
    exact h

/-- **Patches of fields that are apart commute.** -/
theorem patch?_comm (hab : Apart a b) (w : Writer) (x y : UInt16) :
    (w.patch? a x).bind (·.patch? b y) = (w.patch? b y).bind (·.patch? a x) := by
  by_cases ha : a + 2 ≤ w.offset
  · obtain ⟨w', hw'⟩ := exists_patch? ha x
    rw [patch?_bind_of_patch? (Or.symm hab) hw', hw', Option.bind_some]
  · have hlt := Nat.lt_of_not_le ha
    rw [patch?_bind_of_lt hlt, (patch?_eq_none_iff w a x).mpr hlt]
    rfl

end Patch

/-! ### Calls -/

/-- **What a call can do**: it patches a field, or it appends its bytes and is never refused. -/
theorem next?_cases (s : Step) :
    (∃ offset value, s = .patch offset value) ∨
      (∀ size, s.Fits size) ∧ ∀ w : Writer, w.next? s = some (w.bytes s.bytes) := by
  cases s with
  | patch offset value => exact .inl ⟨offset, value, rfl⟩
  | switch fields =>
    refine .inr ⟨fun _ => trivial, fun w => ?_⟩
    rw [next?, step?, switch_eq_bytes]
    rfl
  | _ =>
    refine .inr ⟨fun _ => trivial, fun w => ?_⟩
    simp only [next?, step?, withOffset, Option.map_some, Step.bytes, push, number, real, shortInt,
      call, callInherited, reserve, opcode_eq_bytes, withUInt8_eq_bytes, withUInt16_eq_bytes,
      uint8_eq_bytes, uint16_eq_bytes, scalar_eq_bytes, bytes_bytes]

/-- A call is refused only if it patches bytes that are not there. -/
theorem exists_next?_iff (w : Writer) (s : Step) :
    (∃ w', w.next? s = some w') ↔ s.Fits w.offset := by
  rcases next?_cases s with ⟨offset, value, rfl⟩ | ⟨hfits, happends⟩
  · rw [next?_patch]
    exact ⟨fun ⟨_, h⟩ => le_of_patch? h, fun h => exists_patch? h value⟩
  · exact ⟨fun _ => hfits _, fun _ => ⟨_, happends w⟩⟩

/-- The buffer grows by the bytes of the call. -/
theorem offset_of_next? {w w' : Writer} {s : Step} (h : w.next? s = some w') :
    w'.offset = w.offset + s.bytes.length := by
  rcases next?_cases s with ⟨offset, value, rfl⟩ | ⟨-, happends⟩
  · rw [next?_patch] at h
    exact offset_of_patch? h
  · rw [happends, Option.some_inj] at h
    rw [← h, offset_bytes]

/-- A run gives a result exactly when every patch in it lies inside the buffer at its turn. -/
theorem exists_run?_iff (w : Writer) (steps : List Step) :
    (∃ w', w.run? steps = some w') ↔ Step.AllFit w.offset steps := by
  induction steps generalizing w with
  | nil => exact ⟨fun _ => trivial, fun _ => ⟨w, rfl⟩⟩
  | cons s steps ih =>
    rw [Step.AllFit, ← exists_next?_iff]
    cases hs : w.next? s with
    | none => simp [run?, hs]
    | some v => simp [run?, hs, ih, offset_of_next? hs]

/-- **One call** that leaves a field alone may be made before or after the field is patched. -/
theorem next?_of_patch? {w w' : Writer} {a : Nat} {x : UInt16} {s : Step} (hs : s.Spares a)
    (h : w.patch? a x = some w') : (w.next? s).bind (·.patch? a x) = w'.next? s := by
  rcases next?_cases s with ⟨offset, value, rfl⟩ | ⟨-, happends⟩
  · rw [next?_patch, next?_patch]
    exact patch?_bind_of_patch? hs h value
  · rw [happends, happends, Option.bind_some]
    exact patch?_bytes_of_patch? h s.bytes

/-- **Any calls** that leave a field alone may be made before or after the field is patched. -/
theorem run?_of_patch? {w w' : Writer} {a : Nat} {x : UInt16} {steps : List Step}
    (hsteps : ∀ s ∈ steps, s.Spares a) (h : w.patch? a x = some w') :
    (w.run? steps).bind (·.patch? a x) = w'.run? steps := by
  induction steps generalizing w w' with
  | nil => exact h
  | cons s steps ih =>
    obtain ⟨hs, hrest⟩ := List.forall_mem_cons.mp hsteps
    rw [run?, run?, ← next?_of_patch? hs h]
    cases hv : w.next? s with
    | none => rfl
    | some v =>
      -- The field is still inside the buffer after the call, so it can be patched there.
      have hle : a + 2 ≤ v.offset := by
        have := le_of_patch? h
        have := offset_of_next? hv
        omega
      obtain ⟨v', hv'⟩ := exists_patch? hle x
      rw [Option.bind_some, Option.bind_some, hv', Option.bind_some]
      exact ih hrest hv'

/-- If a patch turns what one call leaves into what another call leaves, it may be made after any
calls that leave the field alone. -/
theorem run?_patch_eq {w v v' : Writer} {deferred direct : Step} {a : Nat} {x : UInt16}
    {steps : List Step} (hsteps : ∀ s ∈ steps, s.Spares a) (hdeferred : w.next? deferred = some v)
    (hdirect : w.next? direct = some v') (h : v.patch? a x = some v') (more : List Step) :
    w.run? (deferred :: (steps ++ .patch a x :: more)) = w.run? (direct :: (steps ++ more)) := by
  calc w.run? (deferred :: (steps ++ .patch a x :: more))
      = ((v.run? steps).bind (·.patch? a x)).bind (·.run? more) := by
        simp only [run?, hdeferred, Option.bind_some, run?_append, next?_patch, Option.bind_assoc]
    _ = w.run? (direct :: (steps ++ more)) := by
        rw [run?_of_patch? hsteps h, run?, hdirect, Option.bind_some, run?_append]

/-! ### Deferred fields -/

/-- A field that is reserved and patched at once. -/
theorem patch?_reserve (w : Writer) (x : UInt16) :
    w.reserve.2.patch? w.reserve.1 x = some (w.uint16 x) := by
  have h := w.patch?_bytes [] (Scalar.uint16 0).encode [] rfl x
  rw [List.append_nil, List.append_nil] at h
  exact h

/-- The three offsets in the header of a switch. -/
inductive SwitchOffset where
  | tableStart
  | tableEnd
  | fallback
  deriving DecidableEq, Repr

/-- The place of an offset in the header. -/
def SwitchOffset.place : SwitchOffset → Nat
  | .tableStart => 1
  | .tableEnd => 3
  | .fallback => 5

/-- The header with another value for one of its offsets. -/
def SwitchFields.set (fields : SwitchFields) (value : UInt16) : SwitchOffset → SwitchFields
  | .tableStart => { fields with tableStart := value }
  | .tableEnd => { fields with tableEnd := value }
  | .fallback => { fields with fallback := value }

/-- The default target is the last field of the header. -/
theorem patch?_fallback (w : Writer) (fields : SwitchFields) (after : Bytes) (value : UInt16) :
    (w.bytes ([Opcode.switch.byte] ++ (fields.bytes ++ after))).patch? (w.offset + 1 + 5) value =
      some (w.bytes ([Opcode.switch.byte] ++
        ({ fields with fallback := value }.bytes ++ after))) :=
  w.patch?_bytes
    ([Opcode.switch.byte, fields.tableType] ++ (Scalar.uint16 fields.tableStart).encode ++
      (Scalar.uint16 fields.tableEnd).encode)
    (Scalar.uint16 fields.fallback).encode after rfl value

/-- A header of a switch that is patched at once. -/
theorem patch?_switch (w : Writer) (fields : SwitchFields) (o : SwitchOffset) (x : UInt16) :
    (w.switch fields).2.patch? ((w.switch fields).1 + o.place) x =
      some (w.switch (fields.set x o)).2 := by
  rw [switch_eq_bytes, switch_eq_bytes, ← List.append_nil fields.bytes,
    ← List.append_nil (fields.set x o).bytes]
  cases o with
  | tableStart => exact w.patch?_tableStart fields [] x
  | tableEnd => exact w.patch?_tableEnd fields [] x
  | fallback => exact w.patch?_fallback fields [] x

end Writer

/-! ### Line tables -/

namespace LineBlob

/-- Emit a run of lines. -/
def emitFile (w : Writer) (run : UInt16 × UInt16) : Writer := (w.uint16 run.1).uint16 run.2

/-- Emit a run of code bytes. -/
def emitAddress (width : Nat) (w : Writer) (run : UInt8 × UInt32) : Writer :=
  if width = 4 then (w.uint8 run.1).uint32 run.2 else (w.uint8 run.1).uint16 run.2.toUInt16

/-- Write a line table as its parts become known: the two words of the header are reserved, and each
is patched when the runs that it counts have been emitted. -/
def write? (b : LineBlob) : Option Writer := do
  let (total, w) := Writer.empty.reserve
  let (words, w) := w.reserve
  let w := b.files.foldl emitFile w
  let w ← w.patch? words (UInt16.ofNat (w.offset / 2))
  let w := b.addresses.foldl (emitAddress b.width) w
  w.patch? total (UInt16.ofNat w.offset)

theorem emitFile_eq_bytes (w : Writer) (run : UInt16 × UInt16) :
    emitFile w run = w.bytes (fileBytes run) := by
  rw [emitFile, Writer.uint16_eq_bytes, Writer.uint16_eq_bytes, Writer.bytes_bytes, fileBytes]

theorem emitAddress_eq_bytes (width : Nat) (w : Writer) (run : UInt8 × UInt32) :
    emitAddress width w run = w.bytes (addressBytes width run) := by
  unfold emitAddress addressBytes
  split
  · exact w.bytes_bytes _ _
  · exact w.bytes_bytes _ _

/-- **No patch of the header is refused, and the buffer is the encoding of the table.** -/
theorem write?_eq (b : LineBlob) : b.write? = some ⟨b.encode.toArray⟩ := by
  have hfiles (w : Writer) : b.files.foldl emitFile w = w.bytes (b.files.flatMap fileBytes) :=
    TableFields.foldl_eq_bytes emitFile_eq_bytes w b.files
  have haddresses (w : Writer) : b.addresses.foldl (emitAddress b.width) w =
      w.bytes (b.addresses.flatMap (addressBytes b.width)) :=
    TableFields.foldl_eq_bytes (emitAddress_eq_bytes b.width) w b.addresses
  have hwords (x : UInt16) := Writer.patch?_bytes_of_patch?
    (Writer.empty.reserve.2.patch?_reserve x) (b.files.flatMap fileBytes)
  have htotal (x y : UInt16) := Writer.patch?_bytes_of_patch?
    (Writer.empty.patch?_reserve y) ((Scalar.uint16 x).encode ++ b.body)
  have hstart : (Writer.empty.reserve.2.reserve.2.bytes (b.files.flatMap fileBytes)).offset =
      4 + 4 * b.files.length := by
    rw [Writer.offset_bytes, length_files]
    rfl
  -- All that follows the first word is appended to it.
  have hrest (x : UInt16) : ((Writer.empty.reserve.2.uint16 x).bytes
      (b.files.flatMap fileBytes)).bytes (b.addresses.flatMap (addressBytes b.width)) =
      Writer.empty.reserve.2.bytes ((Scalar.uint16 x).encode ++ b.body) := by
    rw [Writer.uint16_eq_bytes, Writer.bytes_bytes, Writer.bytes_bytes, body]
  have hstop (x : UInt16) :
      (Writer.empty.reserve.2.bytes ((Scalar.uint16 x).encode ++ b.body)).offset =
        4 + b.body.length := by
    rw [Writer.offset_bytes, List.length_append, ← Nat.add_assoc]
    rfl
  simp only [write?, hfiles, haddresses, hstart, hwords, Option.bind_eq_bind, Option.bind_some,
    hrest, hstop, htotal]
  rw [Writer.uint16_eq_bytes, Writer.bytes_bytes, ← List.append_assoc, ← encode]
  simp [Writer.bytes, Writer.empty]

end LineBlob

/-- **A field that is patched later comes out as if it had been emitted with its value**, and a run
is refused only for a patch outside the buffer. -/
theorem Writer.run?_deferred (w : Writer) :
    (∀ (x : UInt16) (steps more : List Step), (∀ s ∈ steps, s.Spares w.reserve.1) →
      w.run? (.reserve :: (steps ++ .patch w.reserve.1 x :: more)) =
        w.run? (.scalar (.uint16 x) :: (steps ++ more))) ∧
    (∀ (fields : SwitchFields) (o : SwitchOffset) (x : UInt16) (steps more : List Step),
      (∀ s ∈ steps, s.Spares ((w.switch fields).1 + o.place)) →
      w.run? (.switch fields :: (steps ++ .patch ((w.switch fields).1 + o.place) x :: more)) =
        w.run? (.switch (fields.set x o) :: (steps ++ more))) ∧
    (∀ steps : List Step, (∃ w', w.run? steps = some w') ↔ Step.AllFit w.offset steps) ∧
    (∀ (a b : Nat) (x y : UInt16), Apart a b →
      (w.patch? a x).bind (·.patch? b y) = (w.patch? b y).bind (·.patch? a x)) ∧
    (∀ (a : Nat) (x : UInt16) (w' : Writer), w.patch? a x = some w' →
      w'.offset = w.offset ∧
      ∀ i : Nat, w'.buffer[i]? = if i = a then some (UInt8.ofNat x.toNat)
        else if i = a + 1 then some (UInt8.ofNat (x.toNat / 256)) else w.buffer[i]?) ∧
    (∀ (a : Nat) (x : UInt16), (w.step? (.patch a x) = none ↔ w.offset < a + 2) ∧
      (w.offset < a + 2 → w.after (.patch a x) = w)) ∧
    ∀ b : LineBlob, b.write? = some ⟨b.encode.toArray⟩ := by
  refine ⟨fun x steps more hsteps => run?_patch_eq hsteps rfl rfl (w.patch?_reserve x) more,
    fun fields o x steps more hsteps =>
      run?_patch_eq hsteps rfl rfl (w.patch?_switch fields o x) more,
    w.exists_run?_iff, fun a b x y hab => patch?_comm hab w x y,
    fun a x w' h => ⟨offset_of_patch? h, getElem?_of_patch? h⟩, fun a x => ?_, LineBlob.write?_eq⟩
  have hnone : w.step? (.patch a x) = none ↔ w.offset < a + 2 := by
    rw [step?, Option.map_eq_none_iff, patch?_eq_none_iff]
  refine ⟨hnone, fun h => ?_⟩
  rw [after, hnone.mpr h]
  rfl

/-- A switch between a field and its patch, with the patches out of order. -/
theorem Writer.run?_deferred_nested :
    (∀ s ∈ [Step.switch ⟨254, 0, 0, 9⟩, .opcode .push, .patch 4 8], s.Spares 0) ∧
    (∀ s ∈ [Step.opcode .push], s.Spares 4) ∧
    Writer.empty.run? [.reserve, .switch ⟨254, 0, 0, 9⟩, .opcode .push, .patch 4 8, .patch 0 11] =
      Writer.empty.run? [.scalar (.uint16 11), .switch ⟨254, 8, 0, 9⟩, .opcode .push] := by
  have hall : ∀ s ∈ [Step.switch ⟨254, 0, 0, 9⟩, .opcode .push, .patch 4 8], s.Spares 0 := by
    simp [Step.Spares, Apart]
  have hpush : ∀ s ∈ [Step.opcode .push], s.Spares 4 := by
    simp [Step.Spares]
  have hreserve : Writer.empty.reserve.1 = 0 := rfl
  have hstart : ((Writer.empty.uint16 11).switch ⟨254, 0, 0, 9⟩).1 +
      SwitchOffset.tableStart.place = 4 := rfl
  have hscalar (steps : List Step) : Writer.empty.run? (.scalar (.uint16 11) :: steps) =
      (Writer.empty.uint16 11).run? steps := rfl
  have houter := (run?_deferred Writer.empty).1 11 _ [] (hreserve ▸ hall)
  have hinner := (run?_deferred (Writer.empty.uint16 11)).2.1 ⟨254, 0, 0, 9⟩ .tableStart 8
    [.opcode .push] [] (hstart ▸ hpush)
  rw [hreserve, hscalar] at houter
  rw [hstart] at hinner
  rw [hscalar]
  exact ⟨hall, hpush, houter.trans hinner⟩

end LpcInspect
