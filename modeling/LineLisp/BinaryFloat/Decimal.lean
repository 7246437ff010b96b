/-
  LineLisp.BinaryFloat.Decimal — decimal numerals and binary numbers. A numeral of digits
  `n` and scale `k` stands for n · 10^k and is read as the number nearest to that. The
  shortest numeral of a positive number is one of the fewest digits that is read as the
  number, the nearest such numeral to it, and the larger one of two equally near.
-/

import LineLisp.BinaryFloat.Round

namespace LineLisp

/-- An unsigned decimal numeral, digits · 10^scale. -/
structure Decimal where
  digits : Nat
  scale : Int
  deriving DecidableEq, Repr

namespace Decimal

def toRat (d : Decimal) : Rat := (d.digits : Rat) * 10 ^ d.scale

end Decimal

namespace BinaryFloat

variable {f : FloatFormat}

/-! ## Reading -/

/-- The number nearest to the numeral, with a sign. The second and third case are those in
    which 2^3 < 10 alone shows that the numeral is too large or rounds to zero; they keep
    powers of ten small. -/
def ofDecimal (negative : Bool) (d : Decimal) : BinaryFloat f :=
  if d.digits = 0 then zero negative
  else if f.maxExponent + f.precision ≤ 3 * d.scale then .infinite negative
  else if (d.digits.log2 : Int) + 1 + 3 * d.scale < f.minExponent then zero negative
  else ofRat negative (if negative then -d.toRat else d.toRat)

/-! ## Writing -/

/-- Whether the numeral is read as `x`, which has no sign. -/
def readsAs (x : BinaryFloat f) (d : Decimal) : Bool := ofDecimal false d = x

/-- The least `k` with r < 10^k, for the positive value `r` of a number of either format. -/
def decimalPoint (r : Rat) : Int :=
  let k := log2Quotient r.num.natAbs r.den * 30103 / 100000
  if r < 10 ^ k then k else if r < 10 ^ (k + 1) then k + 1 else k + 2

/-- Of the two numerals next to `r` at a scale, those that are read as `x`, the nearer one
    of two. -/
def candidate? (x : BinaryFloat f) (r : Rat) (scale : Int) : Option Decimal :=
  let scaled := r * 10 ^ (-scale)
  let below : Decimal := ⟨scaled.floor.toNat, scale⟩
  let above : Decimal := ⟨below.digits + 1, scale⟩
  match readsAs x below, readsAs x above with
  | true, true => if scaled - below.digits < above.digits - scaled then some below else some above
  | true, false => some below
  | false, true => some above
  | false, false => none

/-- All digits of the finite number m · 2^e. -/
def exactDecimal (m : Nat) (e : Int) : Decimal :=
  if 0 ≤ e then ⟨m * Nat.pow 2 e.toNat, 0⟩ else ⟨m * Nat.pow 5 (-e).toNat, e⟩

/-- A shortest numeral that is read as the finite number m · 2^e, which is not zero. No more
    than 17 digits are needed in either format. -/
def shortest (f : FloatFormat) (m : Nat) (e : Int) : Decimal :=
  let x : BinaryFloat f := ofParts false m e
  let point := decimalPoint x.toRat
  ((List.range' 1 17).findSome? fun n : Nat => candidate? x x.toRat (point - n)).getD
    (exactDecimal m e)

end BinaryFloat

end LineLisp
