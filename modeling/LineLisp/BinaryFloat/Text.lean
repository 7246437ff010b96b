/-
  LineLisp.BinaryFloat.Text — the text of a binary floating-point number: its shortest
  numeral, written positionally if the leading digit's place lies between the two bounds
  of the layout, and otherwise as a number from 1 to 10 with an exponent. The positional
  form always has a fraction; the other has one only if there is more than one digit.
-/

import LineLisp.BinaryFloat.Decimal

namespace LineLisp

/-- Where numerals are written positionally, and the words for what is no numeral. -/
structure FloatLayout where
  /-- The smallest power of ten at the leading digit. -/
  least : Int
  /-- The largest power of ten at the leading digit. -/
  greatest : Int
  nan : String
  infinity : String

namespace FloatLayout

/-- Positional from 0.0001 up to below 10^16. -/
def standard : FloatLayout := ⟨-4, 15, "NaN", "Infinity"⟩

/-- A numeral with the decimal point in its place: `digits` · 10^`scale`. -/
def positional (digits : List Char) (scale : Int) : List Char :=
  if 0 ≤ scale then digits ++ List.replicate scale.toNat '0' ++ ['.', '0']
  else
    let places := (-scale).toNat
    let padded := List.replicate (places + 1 - digits.length) '0' ++ digits
    padded.take (padded.length - places) ++ '.' :: padded.drop (padded.length - places)

/-- A numeral with one digit before the point and the exponent after an `e`. -/
def scientific (digits : List Char) (exponent : Int) : List Char :=
  let fraction := match digits.drop 1 with
    | [] => []
    | rest => '.' :: rest
  digits.take 1 ++ fraction ++ 'e' :: (toString exponent).toList

/-- The text of a numeral other than zero, without the zeros at the end of its digits. -/
def numeral (layout : FloatLayout) (d : Decimal) : List Char :=
  let all := Nat.toDigits 10 d.digits
  let digits := (all.reverse.dropWhile (· = '0')).reverse
  let scale := d.scale + (all.length - digits.length : Nat)
  let leading := scale + digits.length - 1
  if layout.least ≤ leading ∧ leading ≤ layout.greatest then positional digits scale
  else scientific digits leading

end FloatLayout

namespace BinaryFloat

variable {f : FloatFormat}

def magnitudeText (layout : FloatLayout) : BinaryFloat f → String
  | .nan => layout.nan
  | .infinite _ => layout.infinity
  | .finite _ m e _ =>
    if m = 0 then "0.0" else String.ofList (layout.numeral (shortest f m e))

def text (x : BinaryFloat f) : String :=
  (if x.isNegative then "-" else "") ++ x.magnitudeText .standard

end BinaryFloat

end LineLisp
