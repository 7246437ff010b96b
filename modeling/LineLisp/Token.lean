/-
  LineLisp.Token — the tokens of a text. A parenthesis is a token by itself; every other
  maximal run of characters that are neither parentheses nor separators is an atom. There
  are six separators, all of them ASCII; any other blank or control character belongs to an
  atom. Spans count bytes of the text. No text fails to split into tokens.
-/

import LineLisp.Span
import LineLisp.Text.Bytes

namespace LineLisp

inductive TokenKind where
  | opening
  | closing
  | atom (text : String)
  deriving DecidableEq, Repr

structure Token where
  kind : TokenKind
  span : Span
  deriving DecidableEq, Repr

namespace TokenKind

def text : TokenKind → String
  | opening => "("
  | closing => ")"
  | atom text => text

end TokenKind

namespace Token

/-- Space, tab, line feed, vertical tab, form feed and carriage return. -/
def isSeparator (c : Char) : Bool :=
  c = ' ' || c = '\t' || c = '\n' || c = '\x0B' || c = '\x0C' || c = '\r'

/-- Whether the character may stand in an atom. -/
def isAtomChar (c : Char) : Bool := !(c = '(' || c = ')' || isSeparator c)

/-- The atom whose characters, last one first, have been read; none if there are none. -/
def finished (start stop : Nat) : List Char → List Token
  | [] => []
  | word => [⟨.atom (String.ofList word.reverse), ⟨start, stop⟩⟩]

/-- The tokens of the characters from offset `pos` on, where `word` holds the characters,
    last one first, of an atom that began at `start`. -/
def scanFrom (start pos : Nat) (word : List Char) : List Char → List Token
  | [] => finished start pos word
  | c :: cs =>
    let next := pos + c.utf8Size
    if c = '(' then finished start pos word ++ ⟨.opening, ⟨pos, next⟩⟩ :: scanFrom next next [] cs
    else if c = ')' then
      finished start pos word ++ ⟨.closing, ⟨pos, next⟩⟩ :: scanFrom next next [] cs
    else if isSeparator c then finished start pos word ++ scanFrom next next [] cs
    else scanFrom start next (c :: word) cs

/-- The tokens of a text, in order. -/
def scan (s : String) : List Token := scanFrom 0 0 [] s.toList

def text (t : Token) : String := t.kind.text

/-- The echo of a line's tokens, as in `[(, +, 1, 2, )]`. -/
def render (tokens : List Token) : String :=
  "[" ++ String.intercalate ", " (tokens.map text) ++ "]"

end Token

end LineLisp
