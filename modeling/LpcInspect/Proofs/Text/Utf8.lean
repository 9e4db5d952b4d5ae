import LpcInspect.Text.Utf8

/-!
# Well-formed UTF-8 is written back

A scan keeps of the character it is in the middle of only the bits of its code point.
`Pending.Follows` says which bytes those bits stand for: whatever completes the character, the
character is written as the bytes seen and the bytes that complete it. The invariant holds at the
first byte of a sequence by the ranges of UTF-8, and every further byte keeps it. So bytes without
faults are the encoding of the text they decode to.
-/

namespace LpcInspect.Utf8

/-! ### Sequences of bytes -/

theorem val_ofNat {n : Nat} (h : n.isValidChar) : (Char.ofNat n).val.toNat = n := by
  rw [Char.ofNat, dif_pos h]
  rfl

theorem ofNat_eq_iff (n : Nat) (b : UInt8) : UInt8.ofNat n = b ↔ n % 256 = b.toNat := by
  rw [← UInt8.toNat_inj, UInt8.toNat_ofNat']

/-- A byte below 128 is its own character. -/
theorem encodeChar_one {b : UInt8} (h : b.toNat < 0x80) :
    String.utf8EncodeChar (Char.ofNat b.toNat) = [b] := by
  rw [String.utf8EncodeChar, val_ofNat (.inl (by omega))]
  rw [if_pos (Nat.le_of_lt_succ h)]
  simp only [List.cons.injEq, ofNat_eq_iff, and_true]
  omega

/-- Two bytes in their ranges are a character. -/
theorem encodeChar_two {b c : UInt8} (hb : 0xc2 ≤ b.toNat ∧ b.toNat < 0xe0)
    (hc : 0x80 ≤ c.toNat ∧ c.toNat ≤ 0xbf) :
    String.utf8EncodeChar (Char.ofNat (b.toNat % 32 * 64 + payload c)) = [b, c] := by
  simp only [payload]
  rw [String.utf8EncodeChar, val_ofNat (.inl (by omega))]
  rw [if_neg (by omega), if_pos (by omega)]
  simp only [List.cons.injEq, ofNat_eq_iff, and_true]
  omega

/-- Three bytes in their ranges are a character: none that fits in two bytes, and no surrogate. -/
theorem encodeChar_three {b c d : UInt8} (hb : 0xe0 ≤ b.toNat ∧ b.toNat < 0xf0)
    (hc : 0x80 ≤ c.toNat ∧ c.toNat ≤ 0xbf) (hd : 0x80 ≤ d.toNat ∧ d.toNat ≤ 0xbf)
    (hleast : b.toNat = 0xe0 → 0xa0 ≤ c.toNat) (hsurrogate : b.toNat = 0xed → c.toNat ≤ 0x9f) :
    String.utf8EncodeChar (Char.ofNat ((b.toNat % 16 * 64 + payload c) * 64 + payload d)) =
      [b, c, d] := by
  simp only [payload]
  rw [String.utf8EncodeChar, val_ofNat (by simp only [Nat.isValidChar]; omega)]
  rw [if_neg (by omega), if_neg (by omega), if_pos (by omega)]
  simp only [List.cons.injEq, ofNat_eq_iff, and_true]
  omega

/-- Four bytes in their ranges are a character: none that fits in three bytes, and none after the
last code point. -/
theorem encodeChar_four {b c d e : UInt8} (hb : 0xf0 ≤ b.toNat ∧ b.toNat ≤ 0xf4)
    (hc : 0x80 ≤ c.toNat ∧ c.toNat ≤ 0xbf) (hd : 0x80 ≤ d.toNat ∧ d.toNat ≤ 0xbf)
    (he : 0x80 ≤ e.toNat ∧ e.toNat ≤ 0xbf) (hleast : b.toNat = 0xf0 → 0x90 ≤ c.toNat)
    (hlast : b.toNat = 0xf4 → c.toNat ≤ 0x8f) :
    String.utf8EncodeChar (Char.ofNat
      (((b.toNat % 8 * 64 + payload c) * 64 + payload d) * 64 + payload e)) = [b, c, d, e] := by
  simp only [payload]
  rw [String.utf8EncodeChar, val_ofNat (by simp only [Nat.isValidChar]; omega)]
  rw [if_neg (by omega), if_neg (by omega), if_neg (by omega)]
  simp only [List.cons.injEq, ofNat_eq_iff, and_true]
  omega

/-! ### Pending characters -/

/-- The bytes that complete a character: the first one in the range it asks for, then continuation
bytes. -/
def Pending.Completes (p : Pending) : Bytes → Prop
  | [] => False
  | b :: rest =>
    (p.low ≤ b ∧ b ≤ p.high) ∧ rest.length = p.missing - 1 ∧ ∀ c ∈ rest, 0x80 ≤ c ∧ c ≤ 0xbf

/-- The code point of a pending character with the bytes that complete it. -/
def Pending.codePoint (p : Pending) (tail : Bytes) : Nat :=
  tail.foldl (fun bits b => bits * 64 + payload b) p.bits

/-- A character is pending after the bytes seen: whatever completes it, it is written as the bytes
seen and those that complete it. -/
def Pending.Follows (p : Pending) (seen : Bytes) : Prop :=
  ∀ tail, p.Completes tail →
    String.utf8EncodeChar (Char.ofNat (p.codePoint tail)) = seen ++ tail

/-- What the state of a scan says about the bytes after the last character found. -/
def Spells : Option Pending → Bytes → Prop
  | none, seen => seen = []
  | some p, seen => p.Follows seen

/-- The characters of items without faults. -/
def encodeItems (items : List Item) : Bytes := (items.filterMap id).flatMap String.utf8EncodeChar

section First

variable {b low high : UInt8} {bits : Nat}

theorem follows_two (hb : 0xc2 ≤ b.toNat ∧ b.toNat < 0xe0) :
    Pending.Follows ⟨b.toNat % 32, 1, 0x80, 0xbf⟩ [b] := by
  rintro (_ | ⟨c, rest⟩) htail
  · cases htail
  · obtain ⟨hc, hlength, -⟩ := htail
    obtain rfl := List.length_eq_zero_iff.mp hlength
    exact encodeChar_two hb hc

theorem follows_three (hb : 0xe0 ≤ b.toNat ∧ b.toNat < 0xf0) (hbits : b.toNat % 16 = bits)
    (hlow : 0x80 ≤ low) (hhigh : high ≤ 0xbf) (hleast : b.toNat = 0xe0 → 0xa0 ≤ low)
    (hsurrogate : b.toNat = 0xed → high ≤ 0x9f) : Pending.Follows ⟨bits, 2, low, high⟩ [b] := by
  rintro (_ | ⟨c, rest⟩) htail
  · cases htail
  · obtain ⟨hc, hlength, hrest⟩ := htail
    obtain ⟨d, rfl⟩ := List.length_eq_one_iff.mp hlength
    rw [← hbits]
    exact encodeChar_three hb ⟨UInt8.le_trans hlow hc.1, UInt8.le_trans hc.2 hhigh⟩
      (hrest d (List.mem_singleton_self d)) (fun h => UInt8.le_trans (hleast h) hc.1)
      fun h => UInt8.le_trans hc.2 (hsurrogate h)

theorem follows_four (hb : 0xf0 ≤ b.toNat ∧ b.toNat ≤ 0xf4) (hbits : b.toNat % 8 = bits)
    (hlow : 0x80 ≤ low) (hhigh : high ≤ 0xbf) (hleast : b.toNat = 0xf0 → 0x90 ≤ low)
    (hlast : b.toNat = 0xf4 → high ≤ 0x8f) : Pending.Follows ⟨bits, 3, low, high⟩ [b] := by
  rintro (_ | ⟨c, rest⟩) htail
  · cases htail
  · obtain ⟨hc, hlength, hrest⟩ := htail
    obtain ⟨d, e, rfl⟩ : ∃ d e, rest = [d, e] := by
      match rest, hlength with
      | [d, e], _ => exact ⟨d, e, rfl⟩
    rw [← hbits]
    exact encodeChar_four hb ⟨UInt8.le_trans hlow hc.1, UInt8.le_trans hc.2 hhigh⟩
      (hrest d (by simp)) (hrest e (by simp)) (fun h => UInt8.le_trans (hleast h) hc.1)
      fun h => UInt8.le_trans hc.2 (hlast h)

/-- The ranges of first bytes, in numbers. -/
theorem start_eq (b : UInt8) :
    start b =
      if b.toNat < 0x80 then (none, [some (Char.ofNat b.toNat)])
      else if b.toNat < 0xc2 then (none, [none])
      else if b.toNat < 0xe0 then (some ⟨b.toNat % 32, 1, 0x80, 0xbf⟩, [])
      else if b.toNat = 0xe0 then (some ⟨0, 2, 0xa0, 0xbf⟩, [])
      else if b.toNat = 0xed then (some ⟨13, 2, 0x80, 0x9f⟩, [])
      else if b.toNat < 0xf0 then (some ⟨b.toNat % 16, 2, 0x80, 0xbf⟩, [])
      else if b.toNat = 0xf0 then (some ⟨0, 3, 0x90, 0xbf⟩, [])
      else if b.toNat < 0xf4 then (some ⟨b.toNat % 8, 3, 0x80, 0xbf⟩, [])
      else if b.toNat = 0xf4 then (some ⟨4, 3, 0x80, 0x8f⟩, [])
      else (none, [none]) := by
  simp only [start, UInt8.lt_iff_toNat_lt, ← UInt8.toNat_inj, UInt8.reduceToNat]

/-- **The first byte of a sequence** is a character, a fault, or makes a character pending. -/
theorem start_cases (b : UInt8) :
    (b.toNat < 0x80 ∧ start b = (none, [some (Char.ofNat b.toNat)])) ∨ start b = (none, [none]) ∨
      ∃ p : Pending, start b = (some p, []) ∧ 0x80 ≤ p.low ∧ p.high ≤ 0xbf ∧ p.Follows [b] := by
  have hpending {bits missing : Nat} {low high : UInt8} (hlow : 0x80 ≤ low) (hhigh : high ≤ 0xbf)
      (hp : Pending.Follows ⟨bits, missing, low, high⟩ [b]) :
      ∃ p : Pending, (some (Pending.mk bits missing low high), ([] : List Item)) = (some p, []) ∧
        0x80 ≤ p.low ∧ p.high ≤ 0xbf ∧ p.Follows [b] := ⟨_, rfl, hlow, hhigh, hp⟩
  generalize hstart : start b = found
  rw [start_eq] at hstart
  -- One case per range of first bytes, in the order of the scan: ASCII, the bytes that start
  -- nothing, two bytes, three (`e0` and `ed` ask for more), four (`f0` and `f4` do), and the rest.
  repeat' split at hstart
  all_goals subst hstart
  · exact .inl ⟨‹_›, rfl⟩
  all_goals right
  · exact .inl rfl
  · exact .inr (hpending (by decide) (by decide) (follows_two (by omega)))
  · exact .inr (hpending (by decide) (by decide)
      (follows_three (by omega) (by omega) (by decide) (by decide) (fun _ => by decide) (by omega)))
  · exact .inr (hpending (by decide) (by decide)
      (follows_three (by omega) (by omega) (by decide) (by decide) (by omega) (fun _ => by decide)))
  · exact .inr (hpending (by decide) (by decide)
      (follows_three (by omega) rfl (by decide) (by decide) (by omega) (by omega)))
  · exact .inr (hpending (by decide) (by decide)
      (follows_four (by omega) (by omega) (by decide) (by decide) (fun _ => by decide) (by omega)))
  · exact .inr (hpending (by decide) (by decide)
      (follows_four (by omega) rfl (by decide) (by decide) (by omega) (by omega)))
  · exact .inr (hpending (by decide) (by decide)
      (follows_four (by omega) (by omega) (by decide) (by decide) (by omega) (fun _ => by decide)))
  · exact .inl rfl

/-- The first byte of a sequence, unless it is a fault, spells its character or makes it pending. -/
theorem spells_start (b : UInt8) (h : none ∉ (start b).2) :
    ∃ seen, Spells (start b).1 seen ∧ [b] = encodeItems (start b).2 ++ seen := by
  rcases start_cases b with ⟨hb, hstart⟩ | hstart | ⟨p, hstart, -, -, hp⟩
  · rw [hstart]
    refine ⟨[], rfl, ?_⟩
    simp [encodeItems, encodeChar_one hb]
  · rw [hstart] at h
    exact absurd (List.mem_singleton_self _) h
  · rw [hstart]
    exact ⟨[b], hp, rfl⟩

end First

/-- A continuation byte completes a pending character or brings it one byte further. -/
theorem spells_continue {p : Pending} {seen : Bytes} {b : UInt8} (hp : p.Follows seen)
    (hb : p.low ≤ b ∧ b ≤ p.high) :
    ∃ seen', Spells (feed (some p) b).1 seen' ∧
      seen ++ [b] = encodeItems (feed (some p) b).2 ++ seen' := by
  rw [feed, if_pos hb]
  by_cases hlast : p.missing ≤ 1
  · have hcompletes : p.Completes [b] := ⟨hb, by simp; omega, by simp⟩
    refine ⟨[], ?_, ?_⟩
    · simp [hlast, Spells]
    · have hchar := hp [b] hcompletes
      simp only [Pending.codePoint, List.foldl] at hchar
      simp [hlast, encodeItems, hchar]
  · refine ⟨seen ++ [b], ?_, ?_⟩
    · simp only [hlast, if_false, Spells]
      rintro (_ | ⟨c, rest⟩) htail
      · cases htail
      · obtain ⟨hc, hlength, hrest⟩ := htail
        have hchar := hp (b :: c :: rest) ⟨hb, by simp at hlength ⊢; omega, by
          intro x hx
          rcases List.mem_cons.mp hx with rfl | hx
          · exact hc
          · exact hrest x hx⟩
        rw [List.append_assoc]
        exact hchar
    · simp [hlast, encodeItems]

/-- **One byte of a scan without faults** adds itself to the bytes spelled. -/
theorem spells_feed {p : Option Pending} {seen : Bytes} {b : UInt8} (hp : Spells p seen)
    (h : none ∉ (feed p b).2) :
    ∃ seen', Spells (feed p b).1 seen' ∧ seen ++ [b] = encodeItems (feed p b).2 ++ seen' := by
  cases p with
  | none =>
    obtain rfl : seen = [] := hp
    exact spells_start b h
  | some p =>
    by_cases hb : p.low ≤ b ∧ b ≤ p.high
    · exact spells_continue hp hb
    · rw [feed, if_neg hb] at h
      exact absurd (List.mem_cons_self ..) h

/-- A scan gives what its first byte completes, then what the other bytes do. -/
theorem scanFrom_cons (p : Option Pending) (b : UInt8) (rest : Bytes) :
    scanFrom p [] (b :: rest) = (feed p b).2 ++ scanFrom (feed p b).1 [] rest := by
  have hfound := scanFrom_found (feed p b).1 ((feed p b).2.reverse ++ []) rest
  rw [List.append_nil, List.reverse_reverse] at hfound
  rw [← hfound, ← List.append_nil (feed p b).2.reverse]
  cases p <;> rfl

/-- A scan without faults spells its bytes. -/
theorem encodeItems_scanFrom {p : Option Pending} {seen bytes : Bytes} (hp : Spells p seen)
    (h : none ∉ scanFrom p [] bytes) : encodeItems (scanFrom p [] bytes) = seen ++ bytes := by
  induction bytes generalizing p seen with
  | nil =>
    cases p with
    | none =>
      obtain rfl : seen = [] := hp
      rfl
    | some p => exact absurd (List.mem_singleton_self _) h
  | cons b rest ih =>
    rw [scanFrom_cons, List.mem_append, not_or] at h
    obtain ⟨seen', hseen', hspelled⟩ := spells_feed hp h.1
    rw [scanFrom_cons, encodeItems, List.filterMap_append, List.flatMap_append]
    have hrest := ih hseen' h.2
    rw [encodeItems] at hrest
    rw [hrest, ← List.append_assoc, show seen ++ b :: rest = seen ++ [b] ++ rest by simp, hspelled]
    rfl

/-- **Well-formed UTF-8 is written back**: bytes that decode to a text are the encoding of it. -/
theorem encode_of_decode? {bytes : Bytes} {text : String} (h : decode? bytes = some text) :
    encode text = bytes := by
  unfold decode? at h
  dsimp only at h
  split at h
  · next hall =>
    cases h
    have hnone : none ∉ scan bytes := by
      intro hmem
      have := List.all_eq_true.mp hall none hmem
      cases this
    have hstart : Spells none [] := rfl
    rw [encode, String.toList_ofList]
    exact encodeItems_scanFrom hstart hnone
  · cases h

end LpcInspect.Utf8
