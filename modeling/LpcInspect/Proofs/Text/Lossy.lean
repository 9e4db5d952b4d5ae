import LpcInspect.Proofs.Text.Utf8
import LpcInspect.Text.Span

/-!
# Replacing bytes that are not text, piece by piece

A scan decides about a byte by the character that is pending before it. A byte that is no
continuation byte ends what is pending, so bytes may be cut in front of it: what is read of the
whole is what is read of the parts, however ill-formed the first part is. A text begins with such a
byte, and the newline and the backslash are such bytes. Hence the text of a line can be made of the
texts of its pieces, and newlines can be escaped before or after bytes are replaced.
-/

namespace LpcInspect.Utf8

/-! ### Pending characters of a scan -/

/-- A character that a scan can be in the middle of: it asks for a continuation byte, and some of
its bytes have been seen. -/
structure Pending.Proper (p : Pending) : Prop where
  low : 0x80 ≤ p.low
  high : p.high ≤ 0xbf
  follows : ∃ seen, seen ≠ [] ∧ p.Follows seen

/-- What holds of the state of every scan. -/
def ProperState : Option Pending → Prop
  | none => True
  | some p => p.Proper

/-- A byte of the range of continuation bytes. -/
def IsContinuation (b : UInt8) : Prop := 0x80 ≤ b ∧ b ≤ 0xbf

/-- Bytes that do not begin inside of a character. -/
def StartsCharacter (bytes : Bytes) : Prop := ∀ b ∈ bytes.head?, ¬IsContinuation b

/-- A continuation byte starts no character. -/
theorem start_of_isContinuation {b : UInt8} (h : IsContinuation b) : start b = (none, [none]) := by
  have hlow : ¬b < 0x80 := UInt8.not_lt.mpr h.1
  have hhigh : b < 0xc2 := UInt8.lt_of_le_of_lt h.2 (by decide)
  rw [start, if_neg hlow, if_pos hhigh]

theorem proper_start (b : UInt8) : ProperState (start b).1 := by
  rcases start_cases b with ⟨-, hstart⟩ | hstart | ⟨p, hstart, hlow, hhigh, hp⟩
  · rw [hstart]
    trivial
  · rw [hstart]
    trivial
  · rw [hstart]
    exact ⟨hlow, hhigh, [b], List.cons_ne_nil _ _, hp⟩

/-- **One byte of a scan** leaves a proper state. -/
theorem proper_feed {p : Option Pending} (hp : ProperState p) (b : UInt8) :
    ProperState (feed p b).1 := by
  cases p with
  | none => exact proper_start b
  | some p =>
    by_cases hb : p.low ≤ b ∧ b ≤ p.high
    · obtain ⟨seen, hseen, hfollows⟩ := hp.follows
      obtain ⟨seen', hseen', hspelled⟩ := spells_continue hfollows hb
      rw [feed, if_pos hb] at hseen' hspelled ⊢
      by_cases hlast : p.missing ≤ 1
      · simp [hlast, ProperState]
      · simp only [hlast, if_false] at hseen' hspelled ⊢
        refine ⟨UInt8.le_refl _, UInt8.le_refl _, seen', ?_, hseen'⟩
        rintro rfl
        simp [encodeItems] at hspelled
    · rw [feed, if_neg hb]
      exact proper_start b

/-- The fault of a pending character that is not completed. -/
def pendingFault : Option Pending → List Item
  | none => []
  | some _ => [none]

theorem scanFrom_nil (p : Option Pending) : scanFrom p [] [] = pendingFault p := by
  cases p <;> rfl

/-- A byte that is no continuation byte ends what is pending and starts anew. -/
theorem feed_of_not_isContinuation {p : Option Pending} (hp : ProperState p) {b : UInt8}
    (hb : ¬IsContinuation b) : feed p b = ((start b).1, pendingFault p ++ (start b).2) := by
  cases p with
  | none => rfl
  | some p =>
    have hrange : ¬(p.low ≤ b ∧ b ≤ p.high) := fun h =>
      hb ⟨UInt8.le_trans hp.low h.1, UInt8.le_trans h.2 hp.high⟩
    rw [feed, if_neg hrange]
    rfl

/-- **A scan may be cut in front of a character**, whatever stands before the cut. -/
theorem scanFrom_append {p : Option Pending} (hp : ProperState p) (bytes : Bytes) {more : Bytes}
    (hmore : StartsCharacter more) :
    scanFrom p [] (bytes ++ more) = scanFrom p [] bytes ++ scan more := by
  induction bytes generalizing p with
  | nil =>
    rw [List.nil_append, scanFrom_nil, scan]
    cases more with
    | nil => simp [scanFrom_nil, pendingFault]
    | cons b rest =>
      rw [scanFrom_cons, scanFrom_cons, feed_of_not_isContinuation hp (hmore b rfl),
        List.append_assoc]
      rfl
  | cons b rest ih =>
    rw [List.cons_append, scanFrom_cons, scanFrom_cons, ih (proper_feed hp b), List.append_assoc]

theorem scan_append (bytes : Bytes) {more : Bytes} (hmore : StartsCharacter more) :
    scan (bytes ++ more) = scan bytes ++ scan more :=
  scanFrom_append (p := none) trivial bytes hmore

theorem lossy_append (bytes : Bytes) {more : Bytes} (hmore : StartsCharacter more) :
    lossy (bytes ++ more) = lossy bytes ++ lossy more := by
  rw [lossy, scan_append bytes hmore, List.map_append, String.ofList_append]
  rfl

/-! ### Text in a scan -/

/-- The bytes that complete a pending character give it. -/
theorem scanFrom_of_completes {p : Pending} {tail : Bytes} (h : p.Completes tail) (rest : Bytes) :
    scanFrom (some p) [] (tail ++ rest) = some (Char.ofNat (p.codePoint tail)) :: scan rest := by
  induction tail generalizing p with
  | nil => cases h
  | cons b tail ih =>
    obtain ⟨hb, hlength, hcontinue⟩ := h
    rw [List.cons_append, scanFrom_cons, feed, if_pos hb]
    by_cases hlast : p.missing ≤ 1
    · obtain rfl := List.length_eq_zero_iff.mp (show tail.length = 0 by omega)
      simp only [hlast, if_true]
      rfl
    · simp only [hlast, if_false, List.nil_append]
      refine ih ?_
      cases tail with
      | nil =>
        rw [List.length_nil] at hlength
        omega
      | cons c tail =>
        obtain ⟨hc, hrest⟩ := List.forall_mem_cons.mp hcontinue
        refine ⟨hc, ?_, hrest⟩
        rw [List.length_cons] at hlength
        dsimp only
        omega

section FirstByte

variable {b c : UInt8}

theorem start_two (hb : 0xc2 ≤ b.toNat ∧ b.toNat < 0xe0) :
    start b = (some ⟨b.toNat % 32, 1, 0x80, 0xbf⟩, []) := by
  rw [start_eq, if_neg (by omega), if_neg (by omega), if_pos (by omega)]

theorem start_three (hb : 0xe0 ≤ b.toNat ∧ b.toNat < 0xf0) (hc : IsContinuation c)
    (hleast : b.toNat = 0xe0 → 0xa0 ≤ c.toNat) (hsurrogate : b.toNat = 0xed → c.toNat ≤ 0x9f) :
    ∃ low high, start b = (some ⟨b.toNat % 16, 2, low, high⟩, []) ∧ low ≤ c ∧ c ≤ high := by
  rw [start_eq, if_neg (by omega), if_neg (by omega), if_neg (by omega)]
  by_cases he0 : b.toNat = 0xe0
  · rw [if_pos he0, he0]
    exact ⟨_, _, rfl, hleast he0, hc.2⟩
  · by_cases hed : b.toNat = 0xed
    · rw [if_neg he0, if_pos hed, hed]
      exact ⟨_, _, rfl, hc.1, hsurrogate hed⟩
    · rw [if_neg he0, if_neg hed, if_pos hb.2]
      exact ⟨_, _, rfl, hc⟩

theorem start_four (hb : 0xf0 ≤ b.toNat ∧ b.toNat ≤ 0xf4) (hc : IsContinuation c)
    (hleast : b.toNat = 0xf0 → 0x90 ≤ c.toNat) (hlast : b.toNat = 0xf4 → c.toNat ≤ 0x8f) :
    ∃ low high, start b = (some ⟨b.toNat % 8, 3, low, high⟩, []) ∧ low ≤ c ∧ c ≤ high := by
  rw [start_eq, if_neg (by omega), if_neg (by omega), if_neg (by omega), if_neg (by omega),
    if_neg (by omega), if_neg (by omega)]
  by_cases hf0 : b.toNat = 0xf0
  · rw [if_pos hf0, hf0]
    exact ⟨_, _, rfl, hleast hf0, hc.2⟩
  · by_cases hf4 : b.toNat = 0xf4
    · rw [if_neg hf0, if_neg (by omega), if_pos hf4, hf4]
      exact ⟨_, _, rfl, hc.1, hlast hf4⟩
    · rw [if_neg hf0, if_pos (by omega)]
      exact ⟨_, _, rfl, hc⟩

end FirstByte

/-- A character after the first 128 is written as a byte that makes it pending and the bytes that
complete it. -/
theorem exists_sequence (c : Char) (h : 0x80 ≤ c.val.toNat) :
    ∃ (b : UInt8) (tail : Bytes) (p : Pending), String.utf8EncodeChar c = b :: tail ∧
      start b = (some p, []) ∧ p.Completes tail ∧ p.codePoint tail = c.val.toNat := by
  have hvalid : c.val.toNat < 0xd800 ∨ 0xdfff < c.val.toNat ∧ c.val.toNat < 0x110000 := c.valid
  have hbyte {n : Nat} (hn : n < 256) : (UInt8.ofNat n).toNat = n := UInt8.toNat_ofNat_of_lt hn
  have htail (n : Nat) : (UInt8.ofNat (n % 64 + 128)).toNat = n % 64 + 128 := hbyte (by omega)
  have hcontinue (n : Nat) : IsContinuation (UInt8.ofNat (n % 64 + 128)) := by
    rw [IsContinuation, UInt8.le_iff_toNat_le, UInt8.le_iff_toNat_le, htail]
    simp only [UInt8.reduceToNat]
    omega
  unfold String.utf8EncodeChar
  dsimp only
  generalize c.val.toNat = v at h hvalid
  rw [if_neg (by omega)]
  -- Two, three or four bytes, by the size of the code point.
  by_cases htwo : v ≤ 0x7ff
  · rw [if_pos htwo]
    have hb : (UInt8.ofNat (v / 64 % 32 + 192)).toNat = v / 64 % 32 + 192 := hbyte (by omega)
    refine ⟨_, _, _, rfl, start_two (by omega), ⟨hcontinue v, rfl, by simp⟩, ?_⟩
    simp only [Pending.codePoint, List.foldl, payload, hb, htail]
    omega
  · rw [if_neg htwo]
    by_cases hthree : v ≤ 0xffff
    · rw [if_pos hthree]
      have hb : (UInt8.ofNat (v / 4096 % 16 + 224)).toNat = v / 4096 % 16 + 224 := hbyte (by omega)
      have hc := htail (v / 64)
      obtain ⟨low, high, hstart, hrange⟩ := start_three (b := UInt8.ofNat (v / 4096 % 16 + 224))
        (by omega) (hcontinue (v / 64)) (by omega) (by omega)
      refine ⟨_, _, _, rfl, hstart, ⟨hrange, rfl, ?_⟩, ?_⟩
      · exact List.forall_mem_singleton.mpr (hcontinue v)
      · simp only [Pending.codePoint, List.foldl, payload, hb, htail]
        omega
    · rw [if_neg hthree]
      have hb : (UInt8.ofNat (v / 262144 % 8 + 240)).toNat = v / 262144 % 8 + 240 :=
        hbyte (by omega)
      have hc := htail (v / 4096)
      obtain ⟨low, high, hstart, hrange⟩ := start_four (b := UInt8.ofNat (v / 262144 % 8 + 240))
        (by omega) (hcontinue (v / 4096)) (by omega) (by omega)
      refine ⟨_, _, _, rfl, hstart, ⟨hrange, rfl, ?_⟩, ?_⟩
      · exact List.forall_mem_cons.mpr
          ⟨hcontinue (v / 64), List.forall_mem_singleton.mpr (hcontinue v)⟩
      · simp only [Pending.codePoint, List.foldl, payload, hb, htail]
        omega

/-- A byte below 128 is a character, wherever a character may start. -/
theorem scan_cons_of_lt {b : UInt8} (hb : b < 0x80) (rest : Bytes) :
    scan (b :: rest) = some (Char.ofNat b.toNat) :: scan rest := by
  rw [scan, scanFrom_cons, feed, start, if_pos hb]
  rfl

/-- **A character is found** where it is written. -/
theorem scan_encodeChar (c : Char) (rest : Bytes) :
    scan (String.utf8EncodeChar c ++ rest) = some c :: scan rest := by
  by_cases h : c.val.toNat < 0x80
  · have hb : (UInt8.ofNat c.val.toNat).toNat = c.val.toNat :=
      UInt8.toNat_ofNat_of_lt (Nat.lt_trans h (by decide))
    have hascii : UInt8.ofNat c.val.toNat < 0x80 := by
      rw [UInt8.lt_iff_toNat_lt, hb]
      exact h
    rw [String.utf8EncodeChar, if_pos (Nat.le_of_lt_succ h), List.singleton_append,
      scan_cons_of_lt hascii, hb]
    exact congrArg (some · :: scan rest) (Char.ofNat_toNat c)
  · obtain ⟨b, tail, p, hencode, hstart, hcompletes, hpoint⟩ := exists_sequence c (by omega)
    rw [hencode, List.cons_append, scan, scanFrom_cons, feed, hstart, List.nil_append,
      scanFrom_of_completes hcompletes, hpoint]
    exact congrArg (some · :: scan rest) (Char.ofNat_toNat c)

/-- Text is found where it is written. -/
theorem scan_encode_append (text : String) (rest : Bytes) :
    scan (encode text ++ rest) = text.toList.map some ++ scan rest := by
  rw [encode]
  induction text.toList with
  | nil => rfl
  | cons c cs ih => rw [List.flatMap_cons, List.append_assoc, scan_encodeChar, ih]; rfl

theorem lossy_encode_append (text : String) (rest : Bytes) :
    lossy (encode text ++ rest) = text ++ lossy rest := by
  rw [lossy, scan_encode_append, List.map_append, List.map_map, String.ofList_append]
  congr 1
  exact (congrArg String.ofList (List.map_id _)).trans String.ofList_toList

/-- A text that is not empty does not begin inside of a character. -/
theorem startsCharacter_encode {text : String} (h : text ≠ "") (rest : Bytes) :
    StartsCharacter (encode text ++ rest) := by
  intro b hb hcontinue
  have hscan := scan_encode_append text rest
  cases hbytes : encode text ++ rest with
  | nil => simp [hbytes] at hb
  | cons first tail =>
    obtain rfl : first = b := by simpa [hbytes] using hb
    rw [hbytes, scan, scanFrom_cons, feed, start_of_isContinuation hcontinue] at hscan
    cases hchars : text.toList with
    | nil => exact h (String.toList_eq_nil_iff.mp hchars)
    | cons c cs => simp [hchars] at hscan

/-! ### Newlines in a scan -/

/-- No byte but a newline completes a newline. -/
theorem newline_notMem_feed {p : Option Pending} (hp : ProperState p) {b : UInt8} (hb : b ≠ 10) :
    some '\n' ∉ (feed p b).2 := by
  have hstart : some '\n' ∉ (start b).2 := by
    rcases start_cases b with ⟨hascii, hstart⟩ | hstart | ⟨p, hstart, -⟩
    · rw [hstart, List.mem_singleton, Option.some_inj]
      intro hchar
      have hencode := encodeChar_one (b := b) hascii
      rw [← hchar] at hencode
      exact hb (List.singleton_inj.mp hencode).symm
    · simp [hstart]
    · simp [hstart]
  cases p with
  | none => exact hstart
  | some p =>
    by_cases hrange : p.low ≤ b ∧ b ≤ p.high
    · rw [feed, if_pos hrange]
      by_cases hlast : p.missing ≤ 1
      · obtain ⟨seen, hseen, hfollows⟩ := hp.follows
        have hencode := hfollows [b] ⟨hrange, by simp; omega, by simp⟩
        simp only [hlast, if_true, List.mem_singleton, Option.some_inj]
        intro hchar
        have hnewline : String.utf8EncodeChar '\n' = seen ++ [b] := hchar ▸ hencode
        -- The character takes two bytes at least, a newline takes one.
        change [10] = seen ++ [b] at hnewline
        have hlength := congrArg List.length hnewline
        rw [List.length_append, List.length_singleton, List.length_singleton] at hlength
        have hpos := List.length_pos_iff.mpr hseen
        omega
      · simp [hlast]
    · rw [feed, if_neg hrange]
      simpa using hstart

/-- An item of a scan with newlines escaped. -/
def escapeItem : Item → List Item
  | some c => (Excerpt.escapeChar c).map some
  | none => [none]

/-- A byte below 128 is a character after the fault of what is pending. -/
theorem feed_of_lt {p : Option Pending} (hp : ProperState p) {b : UInt8} (hb : b < 0x80) :
    feed p b = (none, pendingFault p ++ [some (Char.ofNat b.toNat)]) := by
  have hcontinue : ¬IsContinuation b := fun h => UInt8.not_lt.mpr h.1 hb
  rw [feed_of_not_isContinuation hp hcontinue, start, if_pos hb]

/-- Items without newlines are not changed. -/
theorem flatMap_escapeItem {items : List Item} (h : some '\n' ∉ items) :
    items.flatMap escapeItem = items := by
  induction items with
  | nil => rfl
  | cons item items ih =>
    rw [List.mem_cons, not_or] at h
    rw [List.flatMap_cons, ih h.2]
    cases item with
    | none => rfl
    | some c =>
      have hc : c ≠ '\n' := fun hc => h.1 (hc ▸ rfl)
      rw [escapeItem, Excerpt.escapeChar, if_neg hc]
      rfl

/-- **Newlines may be escaped before a scan or after it.** -/
theorem scanFrom_escape {p : Option Pending} (hp : ProperState p) (bytes : Bytes) :
    scanFrom p [] (bytes.flatMap Excerpt.escapeByte) =
      (scanFrom p [] bytes).flatMap escapeItem := by
  induction bytes generalizing p with
  | nil => cases p <;> rfl
  | cons b rest ih =>
    rw [List.flatMap_cons, scanFrom_cons, List.flatMap_append, ← ih (proper_feed hp b)]
    by_cases hb : b = 10
    · -- The newline and the backslash in its place both end what is pending.
      subst hb
      have hfault : (pendingFault p).flatMap escapeItem = pendingFault p := by cases p <;> rfl
      rw [feed_of_lt hp (by decide), List.flatMap_append, hfault]
      show scanFrom p [] (92 :: 110 :: _) = _
      rw [scanFrom_cons, scanFrom_cons, feed_of_lt hp (by decide), List.append_assoc,
        List.append_assoc]
      rfl
    · rw [flatMap_escapeItem (newline_notMem_feed hp hb), Excerpt.escapeByte, if_neg hb,
        List.singleton_append, scanFrom_cons]

/-- The shown bytes of an excerpt read as its shown characters. -/
theorem lossy_excerpt (e : Excerpt) : lossy e.raw = e.text := by
  have hitem (item : Item) :
      (escapeItem item).map (·.getD '\ufffd') = Excerpt.escapeChar (item.getD '\ufffd') := by
    cases item with
    | none => rfl
    | some c => simp [escapeItem, Function.comp_def]
  have hscan : scan (e.visible.flatMap Excerpt.escapeByte) = (scan e.visible).flatMap escapeItem :=
    scanFrom_escape (p := none) trivial e.visible
  rw [e.raw_eq_flatMap, e.text_eq_flatMap, lossy, hscan, lossy, String.toList_ofList,
    List.map_flatMap, List.flatMap_map]
  exact congrArg String.ofList (congrArg (List.flatMap · _) (funext hitem))

end LpcInspect.Utf8
