/-
  LineLisp.Text.Backspace — lines that were typed with backspaces, as they are meant. A
  backspace takes back the grapheme cluster before it that was not taken back yet, and
  nothing if there is none. What remains is not divided anew: the next backspace takes back
  a cluster of the line as it was typed.
-/

import LineLisp.Text.Bytes
import LineLisp.Text.Cluster

namespace LineLisp.Text

/-- What is left of the clusters typed so far: the characters, the last one first, and of
    each cluster the number of its bytes, as it is kept, the last one first. -/
structure Typed where
  reversed : List Char
  sizes : List Nat
  deriving DecidableEq, Repr

namespace Typed

def nothing : Typed := ⟨[], []⟩

def backspace : List Char := ['\x08']

/-- The number of a cluster's bytes is kept in one byte, so that of a cluster of 256 bytes or
    more only the remainder is taken back. -/
def keptSize (cluster : List Char) : Nat := byteLength cluster % 256

/-- After one more cluster. -/
def type (t : Typed) (cluster : List Char) : Typed :=
  if cluster = backspace then
    match t.sizes with
    | [] => t
    | size :: sizes => ⟨dropBytes size t.reversed, sizes⟩
  else ⟨cluster.reverse ++ t.reversed, keptSize cluster :: t.sizes⟩

end Typed

/-- The line without its backspaces and what they take back. -/
def erased (s : String) : String :=
  String.ofList ((clusters s.toList).foldl Typed.type .nothing).reversed.reverse

end LineLisp.Text
