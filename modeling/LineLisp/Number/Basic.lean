/-
  LineLisp.Number.Basic — numbers and their arithmetic. An operation with a double is done
  in double precision, otherwise one with a float in single precision, otherwise on whole
  numbers. Equality tells widths apart and follows IEEE 754 on floats and doubles.
-/

import LineLisp.BinaryFloat.Text
import LineLisp.Number.Whole

namespace LineLisp

inductive Number where
  | whole (n : Whole)
  | float (x : Single)
  | double (x : Double)
  deriving DecidableEq

namespace Number

def int (n : Int32) : Number := .whole (.int n)

def kind : Number → Kind
  | whole n => n.kind
  | float _ => .float
  | double _ => .double

/-- The value of a whole number; none for a float or a double. -/
def whole? : Number → Option Int
  | whole n => some n.toInt
  | _ => none

def toSingle : Number → Single
  | whole n => .ofInt n.toInt
  | float x => x
  | double x => x.convert

def toDouble : Number → Double
  | whole n => .ofInt n.toInt
  | float x => x.convert
  | double x => x

/-- An operation in the representation that its operands call for. -/
def combine (onWhole : Whole → Whole → Whole) (onSingle : Single → Single → Single)
    (onDouble : Double → Double → Double) : Number → Number → Number
  | whole m, whole n => whole (onWhole m n)
  | double x, b => double (onDouble x b.toDouble)
  | a, double y => double (onDouble a.toDouble y)
  | a, b => float (onSingle a.toSingle b.toSingle)

def add : Number → Number → Number := combine Whole.add BinaryFloat.add BinaryFloat.add

def mul : Number → Number → Number := combine Whole.mul BinaryFloat.mul BinaryFloat.mul

def abs : Number → Number
  | whole n => whole n.abs
  | float x => float x.abs
  | double x => double x.abs

/-- Equality of numbers of the same width. -/
def equal : Number → Number → Bool
  | whole m, whole n => m = n
  | float x, float y => x.equal y
  | double x, double y => x.equal y
  | _, _ => false

def text : Number → String
  | whole n => n.text
  | float x => x.text
  | double x => x.text

/-- The ratio of a circle's circumference to its diameter, in double precision. -/
def pi : Number := .double (.ofDecimal false ⟨3141592653589793, -15⟩)

end Number

end LineLisp
