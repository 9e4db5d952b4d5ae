import LpcInspect.Proofs.Text.Lossy
import LpcInspect.Report

/-!
# The two forms of a listing

A record is shown as bytes or as text. Both forms are made piece by piece: the bytes of a file name
or of a string are copied into the one, and replaced where they are not text in the other. The text
is what the bytes read as, because such a piece is always followed by the end of the record or by a
text that is not empty (`Record.separated`). A line ends with a newline, so a listing can be read
line by line.
-/

namespace LpcInspect

namespace Span

/-- Whether nothing follows, or a text that is not empty. -/
def StartsText : List Span → Prop
  | [] => True
  | .text s :: _ => s ≠ ""
  | .bytes _ :: _ => False
  | .excerpt _ :: _ => False

/-- Each piece that is not a text is followed by the end or by a text. -/
def Separated : List Span → Prop
  | [] => True
  | .text _ :: rest => Separated rest
  | .bytes _ :: rest => StartsText rest ∧ Separated rest
  | .excerpt _ :: rest => StartsText rest ∧ Separated rest

theorem startsCharacter_rawAll {spans : List Span} (h : StartsText spans) :
    Utf8.StartsCharacter (rawAll spans) := by
  cases spans with
  | nil => intro b hb; cases hb
  | cons span rest =>
    cases span with
    | text s => exact Utf8.startsCharacter_encode h (rawAll rest)
    | bytes b => cases h
    | excerpt e => cases h

/-- **The bytes of a line read as its text.** -/
theorem lossy_rawAll {spans : List Span} (h : Separated spans) :
    Utf8.lossy (rawAll spans) = displayAll spans := by
  induction spans with
  | nil => rfl
  | cons span rest ih =>
    rw [rawAll_cons, displayAll_cons]
    cases span with
    | text s => rw [raw, Utf8.lossy_encode_append, ih h, display]
    | bytes b => rw [raw, Utf8.lossy_append b (startsCharacter_rawAll h.1), ih h.2, display]
    | excerpt e =>
      rw [raw, Utf8.lossy_append e.raw (startsCharacter_rawAll h.1), ih h.2, Utf8.lossy_excerpt,
        display]

end Span

/-! ### Records -/

theorem Operand.separated (operand : Operand) : Span.Separated operand.spans := by
  unfold spans
  -- The byte strings are a string, which a quote follows, and the name of a class, which ends.
  split <;> simp [Span.Separated, Span.StartsText]

theorem Instruction.separated (i : Instruction) : Span.Separated i.spans := by
  unfold spans
  split
  · trivial
  · split
    · trivial
    · exact i.operand.separated

theorem SwitchEntry.separated (e : SwitchEntry) : Span.Separated e.spans := by
  unfold spans
  split <;> simp [Span.Separated, Span.StartsText]

/-- No two byte strings of a record touch. -/
theorem Record.separated (r : Record) : Span.Separated r.spans := by
  cases r with
  | location place => simp [spans, Location.spans, Span.Separated, Span.StartsText]
  | functionStart | switchTable | switchMinimum | diagnostic => trivial
  | instruction i => exact i.separated
  | switchEntry entry => exact entry.separated

theorem Record.lossy_raw (r : Record) : Utf8.lossy r.raw = r.display := by
  rw [r.raw_eq, r.display_eq, Span.lossy_rawAll r.separated]

/-! ### Pages -/

namespace Page

/-- A page is read line by line: nothing that is pending goes on after a newline. -/
theorem display_cons (line : List Span) (lines : List (List Span)) :
    display (line :: lines) = Utf8.lossy (Span.rawAll line) ++ "\n" ++ display lines := by
  have hraw : raw (line :: lines) = Span.rawAll line ++ (Utf8.encode "\n" ++ raw lines) := by
    rw [raw, List.flatMap_cons, List.append_assoc]
    rfl
  have hnewline : Utf8.StartsCharacter (Utf8.encode "\n" ++ raw lines) :=
    Utf8.startsCharacter_encode (by decide) _
  rw [display, hraw, Utf8.lossy_append _ hnewline, Utf8.lossy_encode_append, String.append_assoc]
  rfl

theorem display_append (lines more : List (List Span)) :
    display (lines ++ more) = display lines ++ display more := by
  induction lines with
  | nil => simp [display, raw, Utf8.lossy, Utf8.scan, Utf8.scanFrom]
  | cons line lines ih =>
    rw [List.cons_append, display_cons, display_cons, ih]
    exact String.append_assoc.symm

/-- The bytes of a page of records are the bytes of the records, each with a newline. -/
theorem raw_records (records : List Record) :
    raw (records.map Record.spans) = records.flatMap fun r => r.raw ++ [10] := by
  simp only [raw, List.flatMap_map, Record.raw_eq]

/-- The text of a page of records has the texts of the records, each with a newline. -/
theorem display_records (records : List Record) :
    display (records.map Record.spans) =
      String.join (records.map fun r => r.display ++ "\n") := by
  induction records with
  | nil => rfl
  | cons r records ih =>
    rw [List.map_cons, display_cons, ih, ← r.raw_eq, r.lossy_raw, List.map_cons, String.join_cons]

end Page

namespace Report

/-- The text of the listing of a program. -/
theorem display_listingLines (d : Disassembler) :
    Page.display (listingLines d) =
      "\n;;;  *** Disassembly ***\n" ++
        String.join (d.decodeAll.map fun r => r.display ++ "\n") := by
  have hempty : Utf8.lossy (Span.rawAll []) = "" := rfl
  have htitle (s : String) : Utf8.lossy (Span.rawAll [.text s]) = s := by
    have hseparated : Span.Separated [.text s] := trivial
    rw [Span.lossy_rawAll hseparated, Span.displayAll_singleton, Span.display]
  rw [listingLines, List.cons_append, List.singleton_append, Page.display_cons, Page.display_cons,
    Page.display_records, hempty, htitle, ← String.append_assoc]
  rfl

/-- The listing and the line table come after the tables of a report. -/
theorem lines_eq_append (p : Program) (opcodes : OpcodeTable) (settings : DecoderSettings)
    (lineNumbers : Bool) :
    lines p opcodes settings ⟨true, lineNumbers⟩ =
      lines p opcodes settings .tablesOnly ++ listingLines (.withLineTable p opcodes settings) ++
        if lineNumbers then lineNumberLines p settings.lineAddressWidth else [] := by
  simp [lines, ReportOptions.tablesOnly]

end Report

/-- **The text of a listing is what its bytes read as**: of each record, of any records, each with a
newline after it, and of the listing in a report. -/
theorem Record.lossy_raw_eq_display :
    (∀ r : Record, Utf8.lossy r.raw = r.display) ∧
    (∀ records : List Record, Utf8.lossy (records.flatMap fun r => r.raw ++ [10]) =
      String.join (records.map fun r => r.display ++ "\n")) ∧
    ∀ (p : Program) (opcodes : OpcodeTable) (settings : DecoderSettings) (lineNumbers : Bool),
      Page.display (Report.lines p opcodes settings ⟨true, lineNumbers⟩) =
        Page.display (Report.lines p opcodes settings .tablesOnly) ++
        ("\n;;;  *** Disassembly ***\n" ++
          String.join ((Disassembler.withLineTable p opcodes settings).decodeAll.map fun r =>
            r.display ++ "\n")) ++
        (if lineNumbers then
          Page.display (Report.lineNumberLines p settings.lineAddressWidth) else "") := by
  refine ⟨Record.lossy_raw, fun records => ?_, fun p opcodes settings lineNumbers => ?_⟩
  · rw [← Page.display_records, Page.display, Page.raw_records]
  · rw [Report.lines_eq_append, Page.display_append, Page.display_append,
      Report.display_listingLines]
    cases lineNumbers <;> rfl

end LpcInspect
