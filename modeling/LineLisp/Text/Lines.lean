/-
  LineLisp.Text.Lines — the lines of a text. A line feed ends a line, and a carriage return
  before it belongs to the end; what follows the last line feed is a line unless it is empty.
-/

namespace LineLisp.Text

/-- The characters without the carriage return at their front. -/
def dropReturn : List Char → List Char
  | '\r' :: cs => cs
  | cs => cs

/-- The lines of the characters after those, last one first, of an unfinished line. -/
def linesFrom (unfinished : List Char) : List Char → List (List Char)
  | [] => match unfinished with
    | [] => []
    | line => [line.reverse]
  | c :: cs =>
    if c = '\n' then (dropReturn unfinished).reverse :: linesFrom [] cs
    else linesFrom (c :: unfinished) cs

def lines (s : String) : List String := (linesFrom [] s.toList).map String.ofList

end LineLisp.Text
