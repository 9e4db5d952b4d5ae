import LpcInspect.Report

/-!
# Strings in a report

A report has a line for each string of a program, whatever bytes the string has. The excerpt that is
shown ends before the first NUL, and its newlines are written as two other bytes, so that the
newlines of the table of strings are the ends of its lines. `Excerpt.Shows` says which bytes of a
string are shown without computing them.
-/

namespace LpcInspect

namespace Excerpt

/-- The bytes that an excerpt shows: the first ones, within the limit and without a NUL, and as many
as there are or up to a NUL. -/
structure Shows (e : Excerpt) (shown : Bytes) : Prop where
  starts : shown <+: e.bytes
  length_le : shown.length ≤ e.limit
  nul_notMem : 0 ∉ shown
  ends : shown.length = min e.bytes.length e.limit ∨ e.bytes[shown.length]? = some 0

theorem Shows.length_le_of_shows {e : Excerpt} {shown other : Bytes} (h : e.Shows shown)
    (hother : e.Shows other) : other.length ≤ shown.length := by
  have hbytes := hother.starts.length_le
  have hlimit := hother.length_le
  rcases h.ends with hends | hnul
  · omega
  · -- A longer one would have the NUL at which the first one ends.
    rcases Nat.lt_or_ge shown.length other.length with hlt | hge
    · obtain ⟨rest, hrest⟩ := hother.starts
      rw [← hrest, List.getElem?_append_left hlt] at hnul
      exact absurd (List.mem_of_getElem? hnul) hother.nul_notMem
    · exact hge

/-- An excerpt shows one string of bytes only. -/
theorem Shows.unique {e : Excerpt} {shown other : Bytes} (h : e.Shows shown)
    (hother : e.Shows other) : other = shown := by
  have hlength : other.length = shown.length :=
    Nat.le_antisymm (h.length_le_of_shows hother) (hother.length_le_of_shows h)
  exact (List.prefix_of_prefix_length_le hother.starts h.starts (Nat.le_of_eq hlength)).eq_of_length
    hlength

/-- Bytes are taken up to the first NUL or all of them. -/
theorem takeWhile_ends (bytes : Bytes) :
    (bytes.takeWhile (· != 0)).length = bytes.length ∨
      bytes[(bytes.takeWhile (· != 0)).length]? = some 0 := by
  induction bytes with
  | nil => exact .inl rfl
  | cons b rest ih =>
    by_cases hb : b = 0
    · subst hb
      exact .inr rfl
    · simpa [List.takeWhile_cons, hb] using ih

theorem shows_visible (e : Excerpt) : e.Shows e.visible := by
  have hstarts : e.visible <+: e.bytes.take e.limit := List.takeWhile_prefix _
  have hle := hstarts.length_le
  rw [List.length_take] at hle
  refine ⟨hstarts.trans (List.take_prefix _ _), by omega, fun hzero => ?_, ?_⟩
  · simpa using List.all_eq_true.mp List.all_takeWhile 0 hzero
  · rcases takeWhile_ends (e.bytes.take e.limit) with hends | hnul
    · left
      rw [Nat.min_comm, ← List.length_take]
      exact hends
    · right
      rw [List.getElem?_take] at hnul
      split at hnul
      · exact hnul
      · cases hnul

/-! ### Newlines -/

theorem newline_notMem_escapeByte (b : UInt8) : 10 ∉ escapeByte b := by
  unfold escapeByte
  by_cases hb : b = 10
  · rw [if_pos hb]
    decide
  · rw [if_neg hb, List.mem_singleton]
    exact fun h => hb h.symm

theorem newline_notMem_raw (e : Excerpt) : 10 ∉ e.raw := by
  rw [e.raw_eq_flatMap]
  intro h
  obtain ⟨b, -, hb⟩ := List.mem_flatMap.mp h
  exact newline_notMem_escapeByte b hb

theorem nul_notMem_raw (e : Excerpt) : 0 ∉ e.raw := by
  rw [e.raw_eq_flatMap]
  intro h
  obtain ⟨b, hshown, hb⟩ := List.mem_flatMap.mp h
  unfold escapeByte at hb
  split at hb
  · revert hb
    decide
  · obtain rfl := List.mem_singleton.mp hb
    exact e.shows_visible.nul_notMem hshown

/-- Bytes are escaped line by line: what stands for a newline stands between two lines. -/
theorem flatMap_escapeByte (bytes : Bytes) :
    bytes.flatMap escapeByte = [92, 110].intercalate (bytes.splitOn 10) := by
  induction bytes with
  | nil => rfl
  | cons b rest ih =>
    obtain ⟨line, lines, hsplit⟩ := List.exists_cons_of_ne_nil (List.splitOn_ne_nil 10 rest)
    rw [hsplit] at ih
    rw [List.flatMap_cons, ih, List.splitOn_cons_eq_if_modifyHead, hsplit, escapeByte]
    by_cases hb : b = 10
    · simp [hb, List.intercalate_cons_cons]
    · simp [hb, List.intercalate_cons_cons_left]

-- The limit counts bytes before they are escaped.
example : (Excerpt.mk 4 [97, 10, 10, 10, 98]).raw = [97, 92, 110, 92, 110, 92, 110] := by decide

end Excerpt

/-! ### Lines of a page -/

namespace Page

theorem raw_append (lines more : List (List Span)) : raw (lines ++ more) = raw lines ++ raw more :=
  List.flatMap_append

/-- A page whose lines have no newline in them is cut into its lines at the newlines. -/
theorem splitOn_raw {lines : List (List Span)} (h : ∀ line ∈ lines, 10 ∉ Span.rawAll line) :
    (raw lines).splitOn 10 = lines.map Span.rawAll ++ [[]] := by
  induction lines with
  | nil => rfl
  | cons line lines ih =>
    obtain ⟨hline, hlines⟩ := List.forall_mem_cons.mp h
    have hraw : raw (line :: lines) = Span.rawAll line ++ 10 :: raw lines := by
      rw [raw, List.flatMap_cons, List.append_assoc]
      rfl
    rw [hraw, List.splitOn_append_cons_self_of_not_mem hline, ih hlines, List.map_cons,
      List.cons_append]

end Page

/-- Only a newline has the byte of a newline. -/
theorem Utf8.eq_newline_of_mem {c : Char} (h : 10 ∈ String.utf8EncodeChar c) : c = '\n' := by
  have hbyte {n : Nat} (hn : n < 256) (h : 10 = UInt8.ofNat n) : n = 10 := by
    have hn : (UInt8.ofNat n).toNat = n := UInt8.toNat_ofNat_of_lt hn
    rw [← h] at hn
    exact hn.symm
  unfold String.utf8EncodeChar at h
  dsimp only at h
  split at h
  · have hval := hbyte (by omega) (List.mem_singleton.mp h)
    exact Char.ext (UInt32.toNat_inj.mp hval)
  · -- All other bytes are at least 128.
    split at h
    · simp only [List.mem_cons, List.not_mem_nil, or_false] at h
      rcases h with h | h <;> have := hbyte (by omega) h <;> omega
    · split at h <;> simp only [List.mem_cons, List.not_mem_nil, or_false] at h
      · rcases h with h | h | h <;> have := hbyte (by omega) h <;> omega
      · rcases h with h | h | h | h <;> have := hbyte (by omega) h <;> omega

theorem Utf8.newline_notMem_encode {text : String} (h : '\n' ∉ text.toList) :
    10 ∉ Utf8.encode text := by
  intro hmem
  obtain ⟨c, hc, hbyte⟩ := List.mem_flatMap.mp hmem
  exact h (Utf8.eq_newline_of_mem hbyte ▸ hc)

/-! ### The table of strings -/

namespace Report

/-- The bytes of the line of a string: its index in a column of four characters, and its start. -/
def stringRow (index : Nat) (value : Bytes) : Bytes :=
  Utf8.encode (padLeft 4 (toString index) ++ ": ") ++ (Excerpt.listing value).raw

/-- The line of a string has no newline in it. -/
theorem newline_notMem_stringRow (index : Nat) (value : Bytes) : 10 ∉ stringRow index value := by
  have hdigits : '\n' ∉ Nat.toDigits 10 index := by
    intro h
    have hdigit := Nat.isDigit_of_mem_toDigits (by decide) (by decide) h
    revert hdigit
    decide
  have hindex : '\n' ∉ (padLeft 4 (toString index) ++ ": ").toList := by
    simp [padLeft, hdigits]
  rw [stringRow, List.mem_append, not_or]
  exact ⟨Utf8.newline_notMem_encode hindex, Excerpt.newline_notMem_raw _⟩

theorem map_rawAll_stringLines (p : Program) :
    (stringLines p).map Span.rawAll = Utf8.encode "STRINGS:" :: p.strings.mapIdx stringRow := by
  have htitle : Span.rawAll [.text "STRINGS:"] = Utf8.encode "STRINGS:" := List.append_nil _
  rw [stringLines, List.map_cons, List.map_map, htitle, List.mapIdx_eq_zipIdx_map]
  apply congrArg (List.cons _)
  apply List.map_congr_left
  intro entry _
  simp [Span.rawAll, Span.raw, stringRow]

/-- The table of strings is cut at its newlines into a title and a line for each string. -/
theorem splitOn_stringLines (p : Program) :
    (Page.raw (stringLines p)).splitOn 10 =
      Utf8.encode "STRINGS:" :: p.strings.mapIdx stringRow ++ [[]] := by
  rw [Page.splitOn_raw, map_rawAll_stringLines]
  intro line hline
  have hmem := List.mem_map_of_mem (f := Span.rawAll) hline
  rw [map_rawAll_stringLines, List.mem_cons, List.mem_mapIdx] at hmem
  rcases hmem with htitle | ⟨i, hi, hrow⟩
  · rw [htitle]
    exact Utf8.newline_notMem_encode (by decide)
  · rw [← hrow]
    exact newline_notMem_stringRow i _

/-- **One line for each string.** The excerpt of a string has neither a newline nor a NUL, so the
table of strings has a title and then one line for each of them. -/
theorem strings_one_line :
    (∀ e : Excerpt, ∃ shown, e.Shows shown ∧ (∀ other, e.Shows other → other = shown) ∧
      e.raw = shown.flatMap (fun b => if b = 10 then [92, 110] else [b]) ∧
      e.raw = [92, 110].intercalate (shown.splitOn 10)) ∧
    (∀ e : Excerpt, 10 ∉ e.raw ∧ 0 ∉ e.raw) ∧
    ∀ (p : Program) (opcodes : OpcodeTable) (settings : DecoderSettings) (options : ReportOptions),
      Page.raw (lines p opcodes settings options) =
        Page.raw ([.text ("NAME: /" ++ p.filename)] ::
          (inheritLines p ++ codeLines p ++ functionLines p ++ variableLines p)) ++
        Page.raw (stringLines p) ++
        Page.raw ((if options.disassemble then
            listingLines (.withLineTable p opcodes settings) else []) ++
          if options.lineNumbers then lineNumberLines p settings.lineAddressWidth else []) ∧
      (Page.raw (stringLines p)).splitOn 10 =
        Utf8.encode "STRINGS:" :: p.strings.mapIdx stringRow ++ [[]] := by
  refine ⟨fun e => ?_, fun e => ⟨e.newline_notMem_raw, e.nul_notMem_raw⟩,
    fun p opcodes settings options => ⟨?_, splitOn_stringLines p⟩⟩
  · exact ⟨e.visible, e.shows_visible, fun _ hother => e.shows_visible.unique hother,
      e.raw_eq_flatMap, e.raw_eq_flatMap.trans (Excerpt.flatMap_escapeByte e.visible)⟩
  · rw [← Page.raw_append, ← Page.raw_append, lines]
    simp only [List.cons_append, List.append_assoc]

end Report
end LpcInspect
