/-
  LineLisp.BinaryFloat.Round — rounding of exact values to a format, to the nearest number
  and, halfway between two, to the one with an even significand; what lies beyond the
  largest number by half a unit or more becomes infinite. Sums, products and conversions
  are the exact results, rounded.
-/

import LineLisp.BinaryFloat.Basic

namespace LineLisp.BinaryFloat

variable {f : FloatFormat}

/-- The largest `k` with 2^k ≤ n / d, for positive `n` and `d`. -/
def log2Quotient (n d : Nat) : Int :=
  let k : Int := (n.log2 : Int) - d.log2
  if d * Nat.pow 2 k.toNat ≤ n * Nat.pow 2 (-k).toNat then k else k - 1

/-- The natural number nearest to n / d; halfway between two, the even one. -/
def nearestEven (n d : Nat) : Nat :=
  let q := n / d
  match compare (2 * (n % d)) d with
  | .lt => q
  | .eq => q + q % 2
  | .gt => q + 1

/-- The number nearest to n / d, for positive `n` and `d`, with a sign. -/
def ofQuotient (negative : Bool) (n d : Nat) : BinaryFloat f :=
  let e := max (log2Quotient n d - ((f.precision : Int) - 1)) f.minExponent
  let m := nearestEven (n * Nat.pow 2 (-e).toNat) (d * Nat.pow 2 e.toNat)
  if m = Nat.pow 2 f.precision then ofParts negative (Nat.pow 2 (f.precision - 1)) (e + 1)
  else ofParts negative m e

/-- The number nearest to `r`. Zero takes the sign `zeroSign`; a number other than zero
    keeps its own, also if it is rounded to zero. -/
def ofRat (zeroSign : Bool) (r : Rat) : BinaryFloat f :=
  if r = 0 then zero zeroSign else ofQuotient (r < 0) r.num.natAbs r.den

def ofInt (n : Int) : BinaryFloat f := ofRat false n

/-- The nearest number of another format. -/
def convert {g : FloatFormat} (x : BinaryFloat f) : BinaryFloat g :=
  match x with
  | .nan => .nan
  | .infinite s => .infinite s
  | .finite s _ _ _ => ofRat s x.toRat

/-- A sum of zero is negative only if both terms are negative zeros. -/
def add (x y : BinaryFloat f) : BinaryFloat f :=
  match x, y with
  | .nan, _ => .nan
  | _, .nan => .nan
  | .infinite s, .infinite t => if s = t then .infinite s else .nan
  | .infinite s, .finite .. => .infinite s
  | .finite .., .infinite t => .infinite t
  | .finite s _ _ _, .finite t _ _ _ => ofRat (s && t) (x.toRat + y.toRat)

/-- Zero times an infinity is not a number. -/
def mul (x y : BinaryFloat f) : BinaryFloat f :=
  match x, y with
  | .nan, _ => .nan
  | _, .nan => .nan
  | .infinite s, .infinite t => .infinite (s != t)
  | .infinite s, .finite t n _ _ => if n = 0 then .nan else .infinite (s != t)
  | .finite s m _ _, .infinite t => if m = 0 then .nan else .infinite (s != t)
  | .finite s _ _ _, .finite t _ _ _ => ofRat (s != t) (x.toRat * y.toRat)

end LineLisp.BinaryFloat
