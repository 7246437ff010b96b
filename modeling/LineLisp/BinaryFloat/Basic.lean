/-
  LineLisp.BinaryFloat.Basic — binary floating-point numbers of a given format, as exact
  values: not a number, an infinity, or a sign, a significand `m` and an exponent `e` that
  stand for m · 2^e. A finite number has one representation only: its significand has the
  full precision unless the exponent is the least one.
  - `single` and `double` are the two formats in use.
  - `toRat` is the exact value of a finite number.
  - `equal` compares as numbers: the two zeros are equal, not-a-number equals nothing.
-/

namespace LineLisp

/-- Significands have at most `precision` bits, exponents lie between the two bounds. -/
structure FloatFormat where
  precision : Nat
  minExponent : Int
  maxExponent : Int
  deriving DecidableEq, Repr

namespace FloatFormat

def single : FloatFormat := ⟨24, -149, 104⟩

def double : FloatFormat := ⟨53, -1074, 971⟩

/-- A significand and an exponent that are the representation of a number. -/
def Canonical (f : FloatFormat) (m : Nat) (e : Int) : Prop :=
  m < Nat.pow 2 f.precision ∧ e ≤ f.maxExponent ∧
    (e = f.minExponent ∨ f.minExponent < e ∧ Nat.pow 2 (f.precision - 1) ≤ m)

instance (f : FloatFormat) (m : Nat) (e : Int) : Decidable (f.Canonical m e) :=
  inferInstanceAs (Decidable (_ ∧ _ ∧ (_ ∨ _ ∧ _)))

end FloatFormat

inductive BinaryFloat (f : FloatFormat) where
  | nan
  | infinite (negative : Bool)
  | finite (negative : Bool) (significand : Nat) (exponent : Int)
      (canonical : f.Canonical significand exponent)
  deriving DecidableEq

abbrev Single := BinaryFloat .single

abbrev Double := BinaryFloat .double

namespace BinaryFloat

variable {f : FloatFormat}

/-- The number with this sign, significand and exponent; infinite if the format has none. -/
def ofParts (negative : Bool) (m : Nat) (e : Int) : BinaryFloat f :=
  if h : f.Canonical m e then .finite negative m e h else .infinite negative

/-- The zero of this sign. -/
def zero (negative : Bool) : BinaryFloat f := ofParts negative 0 f.minExponent

/-- The exact value of a finite number; zero stands in for the others. -/
def toRat : BinaryFloat f → Rat
  | .finite negative m e _ => (if negative then -1 else 1) * (m : Rat) * 2 ^ e
  | _ => 0

def isNaN : BinaryFloat f → Bool
  | .nan => true
  | _ => false

/-- Whether the sign is minus, also of a zero. -/
def isNegative : BinaryFloat f → Bool
  | .nan => false
  | .infinite negative => negative
  | .finite negative _ _ _ => negative

def isZero : BinaryFloat f → Bool
  | .finite _ m _ _ => m = 0
  | _ => false

/-- The number without its sign. -/
def abs : BinaryFloat f → BinaryFloat f
  | .nan => .nan
  | .infinite _ => .infinite false
  | .finite _ m e h => .finite false m e h

/-- Equality of numbers: the two zeros are equal, and not-a-number is equal to nothing. -/
def equal : BinaryFloat f → BinaryFloat f → Bool
  | .infinite s, .infinite t => s = t
  | .finite s m e _, .finite t n k _ => m = n && (m = 0 || (s = t && e = k))
  | _, _ => false

end BinaryFloat

end LineLisp
