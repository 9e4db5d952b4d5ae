import LpcInspect.Text.Excerpt

/-!
# Lines made of text and bytes

A line of a listing joins fixed words, names of the program, file names and excerpts of strings.
It has two forms: `Span.rawAll` keeps all bytes, and `Span.displayAll` is text, in which bytes that
are not text are replaced piece by piece.
-/

namespace LpcInspect

/-- A piece of a line. -/
inductive Span where
  /-- A text. -/
  | text (s : String)
  /-- A file name, which is a byte string. -/
  | bytes (b : Bytes)
  /-- The start of a string. -/
  | excerpt (e : Excerpt)
  deriving DecidableEq, Repr

namespace Span

/-- The bytes of a piece. -/
def raw : Span → Bytes
  | .text s => Utf8.encode s
  | .bytes b => b
  | .excerpt e => e.raw

/-- The characters of a piece. -/
def display : Span → String
  | .text s => s
  | .bytes b => Utf8.lossy b
  | .excerpt e => e.text

/-- The bytes of a line. -/
def rawAll (spans : List Span) : Bytes := spans.flatMap raw

/-- The characters of a line. -/
def displayAll (spans : List Span) : String := String.join (spans.map display)

@[simp] theorem rawAll_nil : rawAll [] = [] := rfl

@[simp] theorem rawAll_cons (span : Span) (spans : List Span) :
    rawAll (span :: spans) = span.raw ++ rawAll spans := List.flatMap_cons

@[simp] theorem displayAll_nil : displayAll [] = "" := rfl

@[simp] theorem displayAll_cons (span : Span) (spans : List Span) :
    displayAll (span :: spans) = span.display ++ displayAll spans := String.join_cons

@[simp] theorem displayAll_singleton (span : Span) : displayAll [span] = span.display := by
  rw [displayAll_cons, displayAll_nil, String.append_empty]

/-- The bytes of a line of texts are the encoding of its characters. -/
theorem rawAll_eq_encode {spans : List Span} (h : ∀ span ∈ spans, ∃ s, span = .text s) :
    rawAll spans = Utf8.encode (displayAll spans) := by
  induction spans with
  | nil => rfl
  | cons span spans ih =>
    obtain ⟨⟨s, rfl⟩, hspans⟩ := List.forall_mem_cons.mp h
    rw [rawAll_cons, displayAll_cons, Utf8.encode_append, ih hspans]
    rfl

end Span
end LpcInspect
