/-
  LineLisp.Reader — reading trees from tokens. An atom is a number if it is written as one,
  otherwise a symbol; a list is a pair of parentheses around trees. One read takes one tree
  from the front of the tokens.
  - A closing parenthesis where a tree should start is an error; it is taken.
  - The end of the tokens where a tree should go on is an error; its span reaches from the
    innermost list that is still open, or is empty, to the end of the last token.
  - `read_remaining_lt`: a read of a reader that is not exhausted takes a token.
-/

import LineLisp.Token
import LineLisp.Value
import LineLisp.Number.Literal

namespace LineLisp

inductive ParseError where
  | unexpectedEnd (span : Span)
  | unmatchedClose (span : Span)
  deriving DecidableEq, Repr

namespace ParseError

def span : ParseError → Span
  | unexpectedEnd span => span
  | unmatchedClose span => span

def message : ParseError → String
  | unexpectedEnd _ => "unexpected EOF while reading"
  | unmatchedClose _ => "unexpected ')'"

end ParseError

/-- The tree of an atom. -/
def Value.ofAtom (s : String) : Value :=
  match Number.ofText? s with
  | some n => .number n
  | none => .symbol s

/-- Tokens still to be read, and the offset at which the last token of all ends. -/
structure Reader where
  remaining : List Token
  stop : Nat

/-- A list whose closing parenthesis has not been read: where its opening one is, and its
    elements so far, the last one first. -/
structure OpenList where
  span : Span
  elements : List Value

namespace Reader

def ofTokens (tokens : List Token) : Reader :=
  ⟨tokens, (tokens.getLast?.map (·.span.stop)).getD 0⟩

def ofText (s : String) : Reader := ofTokens (Token.scan s)

def isExhausted (r : Reader) : Bool := r.remaining.isEmpty

/-- One tree from the front of the tokens, inside the lists `opened`, the innermost first;
    and the tokens that are left. -/
def readWithin (stop : Nat) (opened : List OpenList) :
    List Token → Except ParseError Value × List Token
  | [] =>
    let whole := Span.point stop
    (.error (.unexpectedEnd (opened.head?.elim whole (·.span.merge whole))), [])
  | t :: ts =>
    match t.kind, opened with
    | .opening, _ => readWithin stop (⟨t.span, []⟩ :: opened) ts
    | .closing, [] => (.error (.unmatchedClose t.span), ts)
    | .closing, [l] => (.ok (.list l.elements.reverse), ts)
    | .closing, l :: outer :: rest =>
      readWithin stop ({ outer with elements := .list l.elements.reverse :: outer.elements } :: rest)
        ts
    | .atom s, [] => (.ok (.ofAtom s), ts)
    | .atom s, l :: rest =>
      readWithin stop ({ l with elements := .ofAtom s :: l.elements } :: rest) ts

/-- One tree, and the reader after it. -/
def read (r : Reader) : Except ParseError Value × Reader :=
  let (result, rest) := readWithin r.stop [] r.remaining
  (result, { r with remaining := rest })

theorem length_readWithin_le (stop : Nat) (opened : List OpenList) (t : Token)
    (ts : List Token) : (readWithin stop opened (t :: ts)).2.length ≤ ts.length := by
  induction ts generalizing opened t with
  | nil => unfold readWithin; split <;> simp [readWithin]
  | cons u us ih =>
    have step (o : List OpenList) : (readWithin stop o (u :: us)).2.length ≤ (u :: us).length :=
      Nat.le_succ_of_le (ih o u)
    unfold readWithin
    split
    · exact step _
    · exact Nat.le_refl _
    · exact Nat.le_refl _
    · exact step _
    · exact Nat.le_refl _
    · exact step _

theorem read_remaining_lt {r : Reader} (h : r.isExhausted = false) :
    r.read.2.remaining.length < r.remaining.length := by
  unfold read
  cases hr : r.remaining with
  | nil => simp [isExhausted, hr] at h
  | cons t ts => exact Nat.lt_succ_of_le (length_readWithin_le r.stop [] t ts)

theorem isExhausted_of_read_ok {r : Reader} {tree : Value} (h : r.read.1 = .ok tree) :
    r.isExhausted = false := by
  unfold read at h
  cases hr : r.remaining with
  | nil => simp [hr, readWithin] at h
  | cons t ts => simp [isExhausted, hr]

/-- The trees up to the end of the tokens, or the first error. -/
def readAll (r : Reader) : Except ParseError (List Value) :=
  if _h : r.isExhausted then .ok []
  else
    match r.read.1 with
    | .error e => .error e
    | .ok tree => (readAll r.read.2).map (tree :: ·)
termination_by r.remaining.length
decreasing_by exact read_remaining_lt (by simpa using _h)

/-- The first tree of a text; what follows it is left unread. -/
def readFirst (s : String) : Except ParseError Value := (ofText s).read.1

end Reader

end LineLisp
