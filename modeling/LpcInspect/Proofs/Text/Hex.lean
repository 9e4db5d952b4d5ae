import LpcInspect.Text.Blank
import LpcInspect.Text.Hex

/-!
# Hexadecimal text is read back

Every byte string is the one that its digits stand for. The digits hold no white space, so a reader
that takes white space away at both ends finds them all.
-/

namespace LpcInspect

/-- A text without blanks is not trimmed. -/
theorem trimBlanks_eq_self {text : String} (h : ∀ c ∈ text.toList, isBlank c = false) :
    trimBlanks text = text := by
  have hdrop (chars : List Char) (hchars : ∀ c ∈ chars, isBlank c = false) :
      chars.dropWhile isBlank = chars := by
    cases chars with
    | nil => rfl
    | cons c rest => rw [List.dropWhile_cons, hchars c (List.mem_cons_self ..)]; rfl
  rw [trimBlanks, hdrop _ h, hdrop _ fun c hc => h c (List.mem_reverse.mp hc), List.reverse_reverse,
    String.ofList_toList]

namespace Hex

theorem digitValue?_digit : ∀ n < 16, digitValue? (digit n) = some n := by decide

theorem isBlank_digit : ∀ n < 16, isBlank (digit n) = false := by decide

/-- The two digits of a byte are read as the byte. -/
theorem decodeFrom_encodeByte (found : Bytes) (b : UInt8) (rest : List Char) :
    decodeFrom found (encodeByte b ++ rest) = decodeFrom (b :: found) rest := by
  have hb := b.toNat_lt
  have hvalue : 16 * (b.toNat / 16) + b.toNat % 16 = b.toNat := Nat.div_add_mod _ _
  simp only [encodeByte, List.cons_append, List.nil_append, decodeFrom,
    digitValue?_digit (b.toNat / 16) (by omega), digitValue?_digit (b.toNat % 16) (by omega),
    hvalue, UInt8.ofNat_toNat]

theorem decodeFrom_flatMap_encodeByte (found bytes : Bytes) :
    decodeFrom found (bytes.flatMap encodeByte) = some (found.reverse ++ bytes) := by
  induction bytes generalizing found with
  | nil => simp [decodeFrom]
  | cons b rest ih => rw [List.flatMap_cons, decodeFrom_encodeByte, ih]; simp

/-- **Hexadecimal text is read back**, also after trimming. -/
theorem decode?_trimBlanks_encode (bytes : Bytes) :
    decode? (trimBlanks (encode bytes)) = some bytes := by
  have hblank : ∀ c ∈ (encode bytes).toList, isBlank c = false := by
    intro c hc
    rw [encode, String.toList_ofList, List.mem_flatMap] at hc
    obtain ⟨b, -, hc⟩ := hc
    have hb := b.toNat_lt
    simp only [encodeByte, List.mem_cons, List.not_mem_nil, or_false] at hc
    rcases hc with rfl | rfl <;> exact isBlank_digit _ (by omega)
  rw [trimBlanks_eq_self hblank, decode?, encode, String.toList_ofList,
    decodeFrom_flatMap_encodeByte]
  rfl

end Hex
end LpcInspect
