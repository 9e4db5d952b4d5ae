import Mathlib.Data.List.Basic
import LpcInspect.Proofs.Listing.Items

/-!
# The bytes of operands

`Encoding.operandSize` is the number of bytes that an operand takes. Its first byte decides it for a
push, a `foreach` and a function value, and the layout alone for everything else. The fields of an
operand always take this number of bytes, and any bytes of this number are the fields of an operand,
so an operand is read exactly if the window has as many bytes left: `Operand.read_bytes`.

What is shown of an operand gives the bytes back but for those that are not shown, and the target of
a jump gives back how far it jumps. A longer window changes nothing about an operand that is read.
-/

namespace LpcInspect

/-! ### How many bytes an operand takes -/

/-- The number of bytes after the byte of a function value that has its kind. -/
def FunctionKind.fieldSize (kind : UInt8) : Nat :=
  if kind = localFunction ∨ kind = simulEfun ∨ kind = efun then 2
  else if kind = functional then 3
  else if kind = anonymous then 4
  else 0

/-- The number of bytes of an operand, which in three layouts its first byte says. -/
def Encoding.operandSize (first : UInt8) : Encoding → Nat
  | .bare | .switch => 0
  | .push => 1 + first.toNat
  | .foreach => if ForeachFlag.isSet first ForeachFlag.mapping then 3 else 2
  | .functionConstructor => 1 + FunctionKind.fieldSize (FunctionKind.ofByte first)
  | .byte | .negByte | .localSlot | .globalSlot | .expandVarargs | .classRef | .shortString => 1
  | .forwardBranch | .backwardBranch | .address | .count | .efun | .shortInt | .string => 2
  | .whileDec | .simulEfun | .efunV => 3
  | .loopCondLocal => 4
  | .callByAddress => 5
  | .callInherited => 6
  | .loopCondNumber => 7
  | .number | .real => 8

theorem FunctionFields.length_bytes (fields : FunctionFields) {first : UInt8}
    (hfirst : ∀ b ∈ fields.bytes.head?, b = first) :
    fields.bytes.length = 1 + FunctionKind.fieldSize (FunctionKind.ofByte first) := by
  cases fields with
  | localFunction kind index hkind | simulEfun kind index hkind | efun kind index hkind
  | functional kind args unused hkind | anonymous kind args locals length hkind =>
    rw [← hfirst kind rfl, hkind]
    rfl
  | unknown kind hkind =>
    simp only [List.mem_cons, List.not_mem_nil, or_false, not_or] at hkind
    rw [← hfirst kind rfl, FunctionKind.fieldSize, if_neg (by simp [hkind]), if_neg hkind.2.2.2.1,
      if_neg hkind.2.2.2.2]
    rfl

/-- The fields of an operand take the number of bytes that their first byte says. -/
theorem OperandFields.length_bytes {e : Encoding} (fields : OperandFields e) {first : UInt8}
    (hfirst : ∀ b ∈ fields.bytes.head?, b = first) :
    fields.bytes.length = e.operandSize first := by
  cases fields with
  | push tags hcount =>
    have hlength : (UInt8.ofNat tags.length).toNat = tags.length :=
      UInt8.toNat_ofNat_of_lt (Nat.lt_succ_of_le hcount)
    rw [← hfirst (UInt8.ofNat tags.length) rfl, Encoding.operandSize, hlength, Nat.add_comm]
    rfl
  | foreach flags left right hright =>
    rw [← hfirst flags rfl, Encoding.operandSize, ← hright]
    cases right <;> rfl
  | functionConstructor value => exact value.length_bytes hfirst
  | _ => rfl

/-! ### Any bytes of the right number are an operand -/

/-- Bytes of two numbers one after the other. -/
theorem exists_append_of_length {bytes : Bytes} {m n : Nat} (h : bytes.length = m + n) :
    ∃ xs ys : Bytes, xs.length = m ∧ ys.length = n ∧ xs ++ ys = bytes := by
  refine ⟨bytes.take m, bytes.drop m, ?_, ?_, List.take_append_drop m bytes⟩
  · rw [List.length_take]
    omega
  · rw [List.length_drop]
    omega

theorem FunctionFields.exists_of_length {kind : UInt8} {rest : Bytes}
    (h : rest.length = FunctionKind.fieldSize (FunctionKind.ofByte kind)) :
    ∃ fields : FunctionFields, fields.bytes = kind :: rest := by
  unfold FunctionKind.fieldSize at h
  split at h
  · next hkind =>
    obtain ⟨index, rfl⟩ := exists_uint16_encode h
    rcases hkind with hkind | hkind | hkind
    · exact ⟨.localFunction kind index hkind, rfl⟩
    · exact ⟨.simulEfun kind index hkind, rfl⟩
    · exact ⟨.efun kind index hkind, rfl⟩
  · next hindex =>
    split at h
    · next hkind =>
      obtain ⟨args, unused, rfl⟩ := exists_callTail h
      exact ⟨.functional kind args unused hkind, rfl⟩
    · next hfunctional =>
      split at h
      · next hkind =>
        obtain ⟨args, rest, rfl⟩ := List.exists_cons_of_length_eq_add_one h
        obtain ⟨locals, length, rfl⟩ := exists_callTail (Nat.succ.inj h)
        exact ⟨.anonymous kind args locals length hkind, rfl⟩
      · next hanonymous =>
        rw [List.length_eq_zero_iff] at h
        refine ⟨.unknown kind ?_, by rw [h]; rfl⟩
        simp only [not_or] at hindex
        simp [hindex, hfunctional, hanonymous]

/-- **Any bytes of the number that the first one says are the fields of an operand.** -/
theorem OperandFields.exists_of_length {e : Encoding} (he : e ≠ .switch) {bytes : Bytes}
    {first : UInt8} (hfirst : ∀ b ∈ bytes.head?, b = first)
    (h : bytes.length = e.operandSize first) :
    ∃ fields : OperandFields e, fields.bytes = bytes := by
  cases e with
  | switch => exact absurd rfl he
  | bare => exact ⟨.bare, (List.length_eq_zero_iff.mp h).symm⟩
  | push =>
    rw [Encoding.operandSize, Nat.add_comm] at h
    obtain ⟨count, tags, rfl⟩ := List.exists_cons_of_length_eq_add_one h
    obtain rfl : count = first := hfirst count rfl
    have hlength : tags.length = count.toNat := Nat.succ.inj h
    have hcount : tags.length ≤ 255 := hlength ▸ Nat.le_of_lt_succ count.toNat_lt
    refine ⟨.push tags hcount, ?_⟩
    rw [OperandFields.bytes, hlength, UInt8.ofNat_toNat]
    rfl
  | forwardBranch | backwardBranch | address | count | efun | string =>
    obtain ⟨value, rfl⟩ := exists_uint16_encode h
    refine ⟨by constructor; exact value, ?_⟩
    rfl
  | byte | negByte | localSlot | globalSlot | expandVarargs | classRef | shortString =>
    obtain ⟨value, rfl⟩ := List.length_eq_one_iff.mp h
    refine ⟨by constructor; exact value, ?_⟩
    rfl
  | foreach =>
    rw [Encoding.operandSize] at h
    by_cases hmapping : ForeachFlag.isSet first ForeachFlag.mapping = true
    · rw [if_pos hmapping] at h
      obtain ⟨flags, left, right, rfl⟩ := List.length_eq_three.mp h
      obtain rfl : flags = first := hfirst flags rfl
      exact ⟨.foreach flags left (some right) hmapping.symm, rfl⟩
    · rw [if_neg hmapping] at h
      obtain ⟨flags, left, rfl⟩ := List.length_eq_two.mp h
      obtain rfl : flags = first := hfirst flags rfl
      exact ⟨.foreach flags left none (by simpa using hmapping), rfl⟩
  | whileDec =>
    obtain ⟨slot, offset, rfl⟩ := exists_callTail h
    exact ⟨.whileDec slot offset, rfl⟩
  | loopCondNumber =>
    obtain ⟨slot, rest, rfl⟩ := List.exists_cons_of_length_eq_add_one h
    obtain ⟨xs, ys, hxs, hys, rfl⟩ := exists_append_of_length (m := 4) (n := 2) (Nat.succ.inj h)
    obtain ⟨bound, rfl⟩ : ∃ x, (Scalar.int32 x).encode = xs :=
      ⟨_, ScalarKind.int32.encode_decode hxs⟩
    obtain ⟨offset, rfl⟩ := exists_uint16_encode hys
    exact ⟨.loopCondNumber slot bound offset, rfl⟩
  | loopCondLocal =>
    obtain ⟨slot, rest, rfl⟩ := List.exists_cons_of_length_eq_add_one h
    obtain ⟨bound, offset, rfl⟩ := exists_callTail (Nat.succ.inj h)
    exact ⟨.loopCondLocal slot bound offset, rfl⟩
  | callByAddress =>
    obtain ⟨xs, ys, hxs, hys, rfl⟩ := exists_append_of_length (m := 2) (n := 3) h
    obtain ⟨index, rfl⟩ := exists_uint16_encode hxs
    obtain ⟨args, unused, rfl⟩ := exists_callTail hys
    exact ⟨.callByAddress index args unused, rfl⟩
  | callInherited =>
    obtain ⟨xs, ys, hxs, hys, rfl⟩ := exists_append_of_length (m := 3) (n := 3) h
    obtain ⟨ancestor, index, rfl⟩ := exists_callTail hxs
    obtain ⟨args, unused, rfl⟩ := exists_callTail hys
    exact ⟨.callInherited ancestor index args unused, rfl⟩
  | simulEfun | efunV =>
    obtain ⟨xs, ys, hxs, hys, rfl⟩ := exists_append_of_length (m := 2) (n := 1) h
    obtain ⟨index, rfl⟩ := exists_uint16_encode hxs
    obtain ⟨args, rfl⟩ := List.length_eq_one_iff.mp hys
    refine ⟨by constructor <;> assumption, ?_⟩
    rfl
  | functionConstructor =>
    rw [Encoding.operandSize, Nat.add_comm] at h
    obtain ⟨kind, rest, rfl⟩ := List.exists_cons_of_length_eq_add_one h
    obtain rfl : kind = first := hfirst kind rfl
    obtain ⟨fields, hfields⟩ := FunctionFields.exists_of_length (Nat.succ.inj h)
    exact ⟨.functionConstructor fields, hfields⟩
  | shortInt =>
    obtain ⟨value, hvalue⟩ : ∃ x, (Scalar.int16 x).encode = bytes :=
      ⟨_, ScalarKind.int16.encode_decode h⟩
    exact ⟨.shortInt value, hvalue⟩
  | number =>
    obtain ⟨value, hvalue⟩ : ∃ x, (Scalar.int64 x).encode = bytes :=
      ⟨_, ScalarKind.int64.encode_decode h⟩
    exact ⟨.number value, hvalue⟩
  | real =>
    obtain ⟨bits, hbits⟩ : ∃ x, (Scalar.uint64 x).encode = bytes :=
      ⟨_, ScalarKind.uint64.encode_decode h⟩
    exact ⟨.real bits, hbits⟩

/-! ### The bytes that an operand keeps -/

/-- The two high bits of a tag. -/
def PushClass.tagBits : PushClass → UInt8
  | .string => 0
  | .number => 0x40
  | .globalSlot => 0x80
  | .localSlot => 0xc0

/-- The tag of one value of a push. -/
def PushSlot.tag (s : PushSlot) : UInt8 := s.kind.tagBits + s.index

@[simp] theorem PushSlot.tag_ofTag (t : UInt8) : (PushSlot.ofTag t).tag = t := by
  have hindex : (t &&& 0x3f).toNat = t.toNat % 64 := by
    rw [UInt8.toNat_and]
    exact Nat.and_two_pow_sub_one_eq_mod t.toNat 6
  have hlt := t.toNat_lt
  apply UInt8.toNat_inj.mp
  simp only [tag, ofTag, PushClass.ofTag, UInt8.toNat_add, hindex, UInt8.lt_iff_toNat_lt,
    UInt8.reduceToNat]
  -- The classes are the four quarters of the tags, and the index counts within one.
  repeat' split
  all_goals
    simp only [PushClass.tagBits, UInt8.reduceToNat]
    omega

/-- The bytes of a function value at a position, with zeros for what it does not keep: the high bits
of a known kind and the two unused bytes of an expression. The length of a body is kept by where the
body ends. -/
def FunctionValue.keptBytes (position : Nat) : FunctionValue → Bytes
  | .localFunction index _ => FunctionKind.localFunction :: (Scalar.uint16 index).encode
  | .simulEfun index _ => FunctionKind.simulEfun :: (Scalar.uint16 index).encode
  | .efun index _ => FunctionKind.efun :: (Scalar.uint16 index).encode
  | .functional args => [FunctionKind.functional, args, 0, 0]
  | .anonymous args locals endsAt =>
    [FunctionKind.anonymous, args, locals] ++
      (Scalar.uint16 (UInt16.ofNat (endsAt - (position + 4)))).encode
  | .unknown kind => [kind]

/-- The bytes of an operand at a position, with zeros for what it does not keep: the last three
bytes of a call, and what a function value does not keep. The index of a string takes one or two
bytes. -/
def Operand.keptBytes (e : Encoding) (position : Nat) : Operand → Bytes
  | .bare | .switch _ => []
  | .push slots => UInt8.ofNat slots.length :: slots.map PushSlot.tag
  | .branch x _ | .address x | .count x | .efun x => (Scalar.uint16 x).encode
  | .byte x | .negByte x | .localSlot x | .globalSlot x _ | .expandVarargs x | .classRef x _ => [x]
  | .foreach flags left right => [flags, left] ++ right.toList
  | .whileDec slot offset _ => [slot] ++ (Scalar.uint16 offset).encode
  | .loopCond slot (.number bound) offset _ =>
    [slot] ++ (Scalar.int32 bound).encode ++ (Scalar.uint16 offset).encode
  | .loopCond slot (.localSlot bound) offset _ => [slot, bound] ++ (Scalar.uint16 offset).encode
  | .call index _ => (Scalar.uint16 index).encode ++ [0, 0, 0]
  | .callInherited ancestor index _ => [ancestor] ++ (Scalar.uint16 index).encode ++ [0, 0, 0]
  | .simulEfun index args _ | .efunV index args => (Scalar.uint16 index).encode ++ [args]
  | .function value => value.keptBytes position
  | .shortInt value => (Scalar.int16 value).encode
  | .number value => (Scalar.int64 value).encode
  | .real bits => (Scalar.uint64 bits).encode
  | .string index _ =>
    if e = .shortString then [index.toUInt8] else (Scalar.uint16 index).encode

/-- The bytes of an operand with zeros for those that are not shown. -/
def Encoding.shownBytes : Encoding → Bytes → Bytes
  | .callByAddress, bytes => bytes.take 2 ++ [0, 0, 0]
  | .callInherited, bytes => bytes.take 3 ++ [0, 0, 0]
  | .functionConstructor, first :: rest =>
    let kind := FunctionKind.ofByte first
    if kind = FunctionKind.functional then kind :: rest.take 1 ++ [0, 0]
    else if FunctionKind.fieldSize kind = 0 then first :: rest
    else kind :: rest
  | _, bytes => bytes

theorem FunctionFields.keptBytes_value (fields : FunctionFields) (p : Program)
    (opcodes : OpcodeTable) (position : Nat) :
    (fields.value p opcodes position).keptBytes position =
      Encoding.functionConstructor.shownBytes fields.bytes := by
  cases fields with
  | localFunction kind index hkind | simulEfun kind index hkind | efun kind index hkind
  | functional kind args unused hkind =>
    simp only [bytes, List.singleton_append, Encoding.shownBytes, hkind]
    rfl
  | anonymous kind args locals length hkind =>
    simp only [bytes, value, List.singleton_append, Encoding.shownBytes, hkind,
      FunctionValue.keptBytes, Nat.add_sub_cancel_left, UInt16.ofNat_toNat]
    rfl
  | unknown kind hkind =>
    simp only [List.mem_cons, List.not_mem_nil, or_false, not_or] at hkind
    simp [bytes, value, Encoding.shownBytes, FunctionKind.fieldSize, FunctionValue.keptBytes, hkind]

theorem OperandFields.keptBytes_operand {e : Encoding} (fields : OperandFields e) (p : Program)
    (opcodes : OpcodeTable) (position : Nat) :
    (fields.operand p opcodes position).keptBytes e position = e.shownBytes fields.bytes := by
  cases fields with
  | push tags hcount =>
    simp [operand, bytes, Operand.keptBytes, Encoding.shownBytes, Function.comp_def]
  | functionConstructor value => exact value.keptBytes_value p opcodes position
  | shortString index => simp [operand, bytes, Operand.keptBytes, Encoding.shownBytes]
  | _ => rfl

/-! ### How far a jump goes -/

/-- The layouts of the instructions that jump. -/
def Encoding.jumps : List Encoding :=
  [.forwardBranch, .backwardBranch, .whileDec, .loopCondNumber, .loopCondLocal]

/-- The distance in the operand of a jump. -/
def Operand.distance? : Operand → Option UInt16
  | .branch offset _ | .whileDec _ offset _ | .loopCond _ _ offset _ => some offset
  | _ => none

/-- The distance of a jump, told from its target and from where its operand starts and ends. -/
def Operand.measured? (e : Encoding) (start next : Nat) : Operand → Option UInt16
  | .branch _ target => some (if e = .forwardBranch then target - wrap next else wrap next - target)
  | .whileDec _ _ target => some (wrap start - target)
  | .loopCond _ _ _ target => some (wrap (next - 2) - target)
  | _ => none

theorem OperandFields.measured?_operand {e : Encoding} (fields : OperandFields e) (p : Program)
    (opcodes : OpcodeTable) (position : Nat) :
    (fields.operand p opcodes position).measured? e position (position + fields.bytes.length) =
      (fields.operand p opcodes position).distance? := by
  have hforward (base offset : UInt16) : base + offset - base = offset := by grind
  have hback (base offset : UInt16) : base - (base - offset) = offset := by grind
  cases fields with
  | forwardBranch offset => exact congrArg some (hforward _ offset)
  | backwardBranch offset | whileDec slot offset | loopCondNumber slot bound offset
  | loopCondLocal slot bound offset => exact congrArg some (hback _ offset)
  | _ => rfl

theorem OperandFields.isSome_distance?_operand {e : Encoding} (fields : OperandFields e)
    (p : Program) (opcodes : OpcodeTable) (position : Nat) :
    (fields.operand p opcodes position).distance?.isSome ↔ e ∈ Encoding.jumps := by
  cases fields <;> simp [OperandFields.operand, Operand.distance?, Encoding.jumps]

/-! ### Reading operands -/

namespace Operand

section

variable {p : Program} {opcodes : OpcodeTable} {e : Encoding} (he : e ≠ .switch) {r : Reader}

include he

/-- An operand that is read ends after the number of bytes that its first byte says. -/
theorem size_of_read {x : Operand} {r' : Reader} (h : read p opcodes e r = .ok (x, r')) :
    ∃ fields : OperandFields e, r.Holds fields.bytes ∧ x = fields.operand p opcodes r.position ∧
      r' = r.seek (r.position + fields.bytes.length) ∧
      fields.bytes.length = e.operandSize (r.bytes.getD r.position 0) := by
  obtain ⟨fields, hholds, hx, hr'⟩ := eq_of_read he h
  exact ⟨fields, hholds, hx, hr', fields.length_bytes hholds.head_eq⟩

/-- **An operand is read exactly if the window has all of its bytes.** -/
theorem read_ok_iff :
    (∃ x r', read p opcodes e r = .ok (x, r')) ↔
      e.operandSize (r.bytes.getD r.position 0) ≤ r.remaining := by
  constructor
  · rintro ⟨x, r', h⟩
    obtain ⟨fields, hholds, -, -, hsize⟩ := size_of_read he h
    rw [← hsize]
    exact hholds.length_le_remaining
  · intro h
    obtain ⟨hholds, hlength⟩ := Reader.holds_extract h
    obtain ⟨fields, hfields⟩ := OperandFields.exists_of_length he hholds.head_eq hlength
    exact ⟨_, _, read_of_holds fields (hfields ▸ hholds)⟩

end

/-- **Operands and their bytes.** An operand is read exactly if its bytes are left in the window,
and it gives them back but for those that are not shown. -/
theorem read_bytes (p : Program) (opcodes : OpcodeTable) {e : Encoding} (he : e ≠ .switch)
    (r : Reader) :
    let size := e.operandSize (r.bytes.getD r.position 0)
    ((∃ x r', read p opcodes e r = .ok (x, r')) ↔ size ≤ r.remaining) ∧
    (∀ x r', read p opcodes e r = .ok (x, r') →
      r' = r.seek (r.position + size) ∧
      x.keptBytes e r.position =
        e.shownBytes (r.bytes.extract r.position (r.position + size)).toList ∧
      (x.distance?.isSome ↔ e ∈ Encoding.jumps) ∧
      x.measured? e r.position r'.position = x.distance?) ∧
    (∀ s x r', s.Extends r → read p opcodes e r = .ok (x, r') →
      read p opcodes e s = .ok (x, s.seek r'.position)) ∧
    (∀ s error, r.Extends s → read p opcodes e r = .error error →
      ∃ error', read p opcodes e s = .error error') := by
  refine ⟨read_ok_iff he, ?_, ?_, ?_⟩
  · intro x r' h
    obtain ⟨fields, hholds, rfl, rfl, hsize⟩ := size_of_read he h
    rw [← hsize, hholds.extract_eq]
    exact ⟨rfl, fields.keptBytes_operand p opcodes r.position,
      fields.isSome_distance?_operand p opcodes r.position,
      fields.measured?_operand p opcodes r.position⟩
  · intro s x r' hs h
    exact (reads he p opcodes).of_extends hs h
  · intro s error hs h
    cases hread : read p opcodes e s with
    | error error' => exact ⟨error', rfl⟩
    | ok found =>
      rw [(reads he p opcodes).of_extends hs hread] at h
      cases h

/-- A function value with a body of three bytes, with a bit above its kind. -/
def functionBody : Array UInt8 := #[0x16, 1, 2, 3, 0, 9, 9, 9]

theorem read_functionBody :
    (∃ x r', read {} .standard .functionConstructor (.ofBuffer functionBody 0) = .ok (x, r') ∧
      r'.position = 5 ∧ x.keptBytes .functionConstructor 0 = [6, 1, 2, 3, 0]) ∧
    ∃ error, read {} .standard .functionConstructor (.window functionBody 4 0) = .error error := by
  have hlayout : Encoding.functionConstructor ≠ .switch := by decide
  obtain ⟨hwhole, hread, -⟩ := read_bytes {} .standard hlayout (.ofBuffer functionBody 0)
  obtain ⟨x, r', h⟩ := hwhole.mpr (by decide)
  obtain ⟨rfl, hbytes, -, -⟩ := hread x r' h
  refine ⟨⟨x, _, h, rfl, hbytes⟩, ?_⟩
  obtain ⟨hcut, -⟩ := read_bytes {} .standard hlayout (.window functionBody 4 0)
  cases hfound : read {} .standard .functionConstructor (.window functionBody 4 0) with
  | error error => exact ⟨error, rfl⟩
  | ok found => exact absurd (hcut.mp ⟨found.1, found.2, hfound⟩) (by decide)

end Operand
end LpcInspect
