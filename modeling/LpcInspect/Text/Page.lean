import LpcInspect.Text.Span

/-!
# Pages

A page is a list of lines, each of which ends with a newline.
-/

namespace LpcInspect.Page

/-- The bytes of a page. -/
def raw (lines : List (List Span)) : Bytes := lines.flatMap fun line => Span.rawAll line ++ [10]

/-- The text of a page, with the replacement character for bytes that are not text. -/
def display (lines : List (List Span)) : String := Utf8.lossy (raw lines)

/-- The lines of a text: it is cut after each newline, and a line loses its newline and one carriage
return right before it. The characters of the current line stand in `line`, the last one first, and
the lines found so far in `found`. -/
def linesFrom (found : List String) (line : List Char) : List Char → List String
  | [] => (if line.isEmpty then found else String.ofList line.reverse :: found).reverse
  | c :: rest =>
    if c = '\n' then
      let kept := match line with
        | '\r' :: line => line
        | line => line
      linesFrom (String.ofList kept.reverse :: found) [] rest
    else linesFrom found (c :: line) rest

/-- The lines of a text, without their ends. -/
def textLines (text : String) : List String := linesFrom [] [] text.toList

end LpcInspect.Page
