/-
  LineLisp.Primitive — the procedures that every global scope starts with.
-/

namespace LineLisp

inductive Primitive where
  | add
  | multiply
  | abs
  deriving DecidableEq, Repr

namespace Primitive

/-- All of them. -/
def all : List Primitive := [add, multiply, abs]

theorem mem_all (p : Primitive) : p ∈ all := by cases p <;> decide

/-- The name that it is bound to and printed with. -/
def name : Primitive → String
  | add => "+"
  | multiply => "*"
  | abs => "abs"

/-- The number of arguments that it takes. -/
def arity : Primitive → Nat
  | add => 2
  | multiply => 2
  | abs => 1

end Primitive

end LineLisp
