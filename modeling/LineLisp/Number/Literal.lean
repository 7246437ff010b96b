/-
  LineLisp.Number.Literal — the numbers of the language as they are written. An optional
  sign and digits are an int if 32 bits hold it. Otherwise an optional sign, digits with at
  most one point among or beside them and at least one digit, and an optional exponent are
  a float: the nearest one, infinite beyond the largest. Nothing else is a number. Digits
  are the ASCII ones.
-/

import LineLisp.Number.Basic

namespace LineLisp.Number

/-- Whether a text starts with a minus sign, and the text without its sign. -/
def splitSign : List Char → Bool × List Char
  | '-' :: cs => (true, cs)
  | '+' :: cs => (false, cs)
  | cs => (false, cs)

/-- The value of a text of digits. -/
def digitsValue (ds : List Char) : Nat := Nat.ofDigitChars 10 ds 0

/-- The value of an optional sign and one or more digits. -/
def integer? (cs : List Char) : Option Int :=
  let (negative, ds) := splitSign cs
  if ds ≠ [] ∧ ds.all Char.isDigit then
    some (if negative then -(digitsValue ds : Int) else digitsValue ds)
  else none

/-- The scale that an exponent stands for; the empty text is no exponent. -/
def exponent? : List Char → Option Int
  | [] => some 0
  | c :: cs => if c = 'e' ∨ c = 'E' then integer? cs else none

/-- The digits after a point, and what follows them. -/
def splitFraction : List Char → List Char × List Char
  | '.' :: cs => (cs.takeWhile Char.isDigit, cs.dropWhile Char.isDigit)
  | cs => ([], cs)

/-- The sign and the numeral of a text such as `-12.5e-3`. -/
def decimal? (cs : List Char) : Option (Bool × Decimal) :=
  let (negative, unsigned) := splitSign cs
  let whole := unsigned.takeWhile Char.isDigit
  let (fraction, rest) := splitFraction (unsigned.dropWhile Char.isDigit)
  if whole = [] ∧ fraction = [] then none
  else (exponent? rest).map fun e =>
    (negative, ⟨digitsValue (whole ++ fraction), e - (fraction.length : Int)⟩)

/-- The number that a text is written for, if any. -/
def ofText? (s : String) : Option Number :=
  let cs := s.toList
  let float := (decimal? cs).map fun (negative, d) => Number.float (.ofDecimal negative d)
  match integer? cs with
  | some n => if Int32.minValue.toInt ≤ n ∧ n ≤ Int32.maxValue.toInt then
      some (.int (Int32.ofInt n)) else float
  | none => float

end LineLisp.Number
