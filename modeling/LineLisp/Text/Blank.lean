/-
  LineLisp.Text.Blank — blank characters, those with the Unicode property White_Space, and
  blank text. The tokenizer separates atoms at six of them only (see LineLisp.Token); lines
  and settings are trimmed of all of them.
-/

import LineLisp.Text.Ranges

namespace LineLisp.Text

/-- The 25 characters with the property White_Space. -/
def blankRanges : List (Nat × Nat) :=
  [(0x9, 0xD), (0x20, 0x20), (0x85, 0x85), (0xA0, 0xA0), (0x1680, 0x1680), (0x2000, 0x200A),
    (0x2028, 0x2029), (0x202F, 0x202F), (0x205F, 0x205F), (0x3000, 0x3000)]

def isBlankChar (c : Char) : Bool := inRanges blankRanges c

/-- The characters without the blank ones at the end. -/
def trimEnd (cs : List Char) : List Char := (cs.reverse.dropWhile isBlankChar).reverse

/-- The text without the blank characters at its two ends. -/
def trim (s : String) : String := String.ofList (trimEnd (s.toList.dropWhile isBlankChar))

/-- Whether the text has blank characters only. -/
def isBlank (s : String) : Bool := s.toList.all isBlankChar

theorem isBlankChar_of_isWhitespace {c : Char} (h : c.isWhitespace = true) :
    isBlankChar c = true := by
  simp only [Char.isWhitespace, Bool.or_eq_true, decide_eq_true_eq] at h
  rcases h with ((rfl | rfl) | rfl) | rfl <;> decide

end LineLisp.Text
