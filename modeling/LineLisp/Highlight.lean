/-
  LineLisp.Highlight — colours for the parentheses of a line. Each closing parenthesis is
  matched with the nearest opening one before it that is not matched yet. Unmatched ones are
  red; the two of a pair that has an end at the cursor or just before it are blue, and of
  several such pairs the one that closes last. Nothing else changes.
-/

import LineLisp.Text.Bytes

namespace LineLisp.Highlight

/-- What a scan of a line has found, in byte offsets: the opening parentheses without a
    partner so far, the nearest first; the closing ones without one; the pair at the cursor. -/
structure Found where
  opened : List Nat
  closed : List Nat
  atCursor : Option (Nat × Nat)
  deriving DecidableEq, Repr

def nothing : Found := ⟨[], [], none⟩

/-- Whether the cursor is at the parenthesis or just behind it. -/
def touches (cursor offset : Nat) : Bool := offset = cursor || offset + 1 = cursor

/-- The finding after one more character. -/
def step (cursor offset : Nat) (found : Found) (c : Char) : Found :=
  if c = '(' then { found with opened := offset :: found.opened }
  else if c = ')' then
    match found.opened with
    | [] => { found with closed := offset :: found.closed }
    | start :: rest =>
      let pair := if touches cursor offset || touches cursor start then some (start, offset)
        else found.atCursor
      { found with opened := rest, atCursor := pair }
  else found

def scanFrom (cursor offset : Nat) (found : Found) : List Char → Found
  | [] => found
  | c :: cs => scanFrom cursor (offset + c.utf8Size) (step cursor offset found c) cs

def scan (cursor : Nat) (cs : List Char) : Found := scanFrom cursor 0 nothing cs

inductive Colour where
  | red
  | blue
  deriving DecidableEq, Repr

/-- The colour of the character at an offset. -/
def colour? (found : Found) (offset : Nat) : Option Colour :=
  if offset ∈ found.opened ∨ offset ∈ found.closed then some .red
  else match found.atCursor with
    | some (start, stop) => if offset = start ∨ offset = stop then some .blue else none
    | none => none

/-- The terminal's code for bold text in the colour. -/
def Colour.code : Colour → String
  | red => "\x1b[1;31m"
  | blue => "\x1b[1;34m"

/-- The terminal's code for plain text. -/
def plainCode : String := "\x1b[0m"

def paint (c : Char) : Option Colour → List Char
  | some colour => colour.code.toList ++ c :: plainCode.toList
  | none => [c]

def paintFrom (found : Found) (offset : Nat) : List Char → List Char
  | [] => []
  | c :: cs => paint c (colour? found offset) ++ paintFrom found (offset + c.utf8Size) cs

/-- The line with its colours, for a cursor at a byte offset. -/
def line (s : String) (cursor : Nat) : String :=
  String.ofList (paintFrom (scan cursor s.toList) 0 s.toList)

end LineLisp.Highlight
