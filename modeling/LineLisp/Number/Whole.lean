/-
  LineLisp.Number.Whole — whole numbers of four widths. A sum or a product is taken at 32
  bits if one operand has 32 bits, whatever the other, which is first cut to its low 32
  bits; otherwise at 64 bits if one has 64; and at 32 bits for two narrower ones, whose
  result then never overflows. Sums and products wrap around.
-/

import LineLisp.Kind

namespace LineLisp

inductive Whole where
  | byte (n : Int8)
  | short (n : Int16)
  | int (n : Int32)
  | long (n : Int64)
  deriving DecidableEq, Repr

namespace Whole

def toInt : Whole → Int
  | byte n => n.toInt
  | short n => n.toInt
  | int n => n.toInt
  | long n => n.toInt

def kind : Whole → Kind
  | byte _ => .byte
  | short _ => .short
  | int _ => .int
  | long _ => .long

/-- The low 32 bits; narrower numbers keep their value. -/
def toInt32 : Whole → Int32
  | byte n => n.toInt32
  | short n => n.toInt32
  | int n => n
  | long n => n.toInt32

def toInt64 : Whole → Int64
  | byte n => n.toInt64
  | short n => n.toInt64
  | int n => n.toInt64
  | long n => n

/-- Whether an operation on the two is one of 64 bits. -/
def usesLong (a b : Whole) : Bool :=
  a.kind ≠ .int && b.kind ≠ .int && (a.kind = .long || b.kind = .long)

/-- An operation at the width that its operands call for. -/
def combine (narrow : Int32 → Int32 → Int32) (wide : Int64 → Int64 → Int64) (a b : Whole) :
    Whole :=
  if usesLong a b then long (wide a.toInt64 b.toInt64) else int (narrow a.toInt32 b.toInt32)

def add : Whole → Whole → Whole := combine (· + ·) (· + ·)

def mul : Whole → Whole → Whole := combine (· * ·) (· * ·)

/-- The magnitude: the least 64-bit number gives the greatest; the least 32-bit number,
    whose magnitude has no 32-bit form, gives a 64-bit one. -/
def abs : Whole → Whole
  | long n => long (if n = .minValue then .maxValue else n.abs)
  | a => if a.toInt32 = .minValue then long (a.toInt64.abs) else int a.toInt32.abs

def text (a : Whole) : String := toString a.toInt

end Whole

end LineLisp
