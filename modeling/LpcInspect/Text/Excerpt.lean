import LpcInspect.Text.Utf8

/-!
# Excerpts of byte strings

A listing shows the start of a string on one line: at most a given number of bytes, nothing from
the first NUL on, and a newline as a backslash followed by `n`. `Excerpt.raw` gives the shown bytes
as they are, `Excerpt.text` their characters.

Both are written piece by piece, where a piece ends after a newline, and `escape_eq_flatMap` says
that this is the same as to write one byte or character after the other.
-/

namespace LpcInspect

/-- A byte string of which at most `limit` bytes are shown. -/
structure Excerpt where
  limit : Nat
  bytes : Bytes
  deriving DecidableEq, Repr

namespace Excerpt

/-- The number of bytes shown of a string that an instruction names. -/
def operandLimit : Nat := 29

/-- The number of bytes shown of a string in a table of strings. -/
def listingLimit : Nat := 32

/-- The excerpt shown in an instruction. -/
def operand (bytes : Bytes) : Excerpt := ⟨operandLimit, bytes⟩

/-- The excerpt shown in a table of strings. -/
def listing (bytes : Bytes) : Excerpt := ⟨listingLimit, bytes⟩

/-- The bytes shown: those within the limit and before the first NUL. -/
def visible (e : Excerpt) : Bytes := (e.bytes.take e.limit).takeWhile (· != 0)

section Escape

variable {α : Type} [DecidableEq α] (newline : α) (mark : List α)

/-- The pieces of a list: each but the last ends with the newline that follows it. -/
def pieces : List α → List (List α)
  | [] => []
  | x :: rest =>
    if x = newline then [x] :: pieces rest
    else
      match pieces rest with
      | [] => [[x]]
      | piece :: more => (x :: piece) :: more

/-- A piece without the newline at its end, if it has one. -/
def line? (piece : List α) : Option (List α) :=
  if piece.getLast? = some newline then some piece.dropLast else none

/-- A piece with a mark in the place of the newline at its end. -/
def escapePiece (piece : List α) : List α :=
  match line? newline piece with
  | some line => line ++ mark
  | none => piece

/-- A list with a mark in the place of each newline, written piece by piece. -/
def escape (xs : List α) : List α := (pieces newline xs).flatMap (escapePiece newline mark)

end Escape

/-- The shown bytes. -/
def raw (e : Excerpt) : Bytes := escape 10 [92, 110] e.visible

/-- The shown characters; bytes that are not text, also those of a character cut by the limit, are
replaced. -/
def text (e : Excerpt) : String :=
  String.ofList (escape '\n' ['\\', 'n'] (Utf8.lossy e.visible).toList)

/-! ### One after the other -/

section Escape

variable {α : Type} [DecidableEq α] {newline : α}

theorem line?_cons {x : α} (hx : x ≠ newline) (piece : List α) :
    line? newline (x :: piece) = (line? newline piece).map (x :: ·) := by
  cases piece with
  | nil => simp [line?, hx]
  | cons y piece =>
    rw [line?, line?, List.getLast?_cons_cons, List.dropLast_cons_cons]
    split <;> rfl

/-- An element before the newline of a piece is written as it is. -/
theorem escapePiece_cons {x : α} (hx : x ≠ newline) (mark piece : List α) :
    escapePiece newline mark (x :: piece) = x :: escapePiece newline mark piece := by
  rw [escapePiece, escapePiece, line?_cons hx]
  cases line? newline piece <;> rfl

/-- **To write piece by piece is to write one element after the other.** -/
theorem escape_eq_flatMap (mark xs : List α) :
    escape newline mark xs = xs.flatMap fun x => if x = newline then mark else [x] := by
  induction xs with
  | nil => rfl
  | cons x rest ih =>
    rw [List.flatMap_cons, ← ih, escape, escape, pieces]
    by_cases hx : x = newline
    · have hpiece : escapePiece newline mark [x] = mark := by simp [escapePiece, line?, hx]
      rw [if_pos hx, if_pos hx, List.flatMap_cons, hpiece]
    · -- The element joins the first piece of the rest.
      rw [if_neg hx, if_neg hx]
      cases pieces newline rest with
      | nil => simp [escapePiece, line?, hx]
      | cons piece more =>
        rw [List.flatMap_cons, List.flatMap_cons, escapePiece_cons hx]
        rfl

end Escape

/-- A byte as shown: a newline is a backslash and `n`. -/
def escapeByte (b : UInt8) : Bytes := if b = 10 then [92, 110] else [b]

/-- A character as shown: a newline is a backslash and `n`. -/
def escapeChar (c : Char) : List Char := if c = '\n' then ['\\', 'n'] else [c]

theorem raw_eq_flatMap (e : Excerpt) : e.raw = e.visible.flatMap escapeByte :=
  escape_eq_flatMap _ _

theorem text_eq_flatMap (e : Excerpt) :
    e.text = String.ofList ((Utf8.lossy e.visible).toList.flatMap escapeChar) :=
  congrArg String.ofList (escape_eq_flatMap _ _)

end Excerpt
end LpcInspect
