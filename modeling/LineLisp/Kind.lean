/-
  LineLisp.Kind — the kinds of values, as error messages name them.
-/

namespace LineLisp

inductive Kind where
  | byte
  | short
  | int
  | long
  | float
  | double
  | symbol
  | list
  | procedure
  | nil
  deriving DecidableEq, Repr

namespace Kind

def name : Kind → String
  | byte => "byte"
  | short => "short"
  | int => "int"
  | long => "long"
  | float => "float"
  | double => "double"
  | symbol => "symbol"
  | list => "list"
  | procedure => "procedure"
  | nil => "nil"

end Kind

end LineLisp
