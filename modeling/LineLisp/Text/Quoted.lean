/-
  LineLisp.Text.Quoted — text between double quotes on one line of printable characters, as
  logs and start-up errors show it. A backslash begins the escapes: of the quote and of the
  backslash, of NUL, tab, line feed and carriage return by a letter, and of any other
  character that is not shown by its hexadecimal code point in braces.
-/

import LineLisp.Text.Graphic

namespace LineLisp.Text

def escape (c : Char) : List Char :=
  match c with
  | '"' => ['\\', '"']
  | '\\' => ['\\', '\\']
  | '\x00' => ['\\', '0']
  | '\t' => ['\\', 't']
  | '\n' => ['\\', 'n']
  | '\r' => ['\\', 'r']
  | c =>
    if isShown c then [c] else ['\\', 'u', '\x7b'] ++ Nat.toDigits 16 c.toNat ++ ['\x7d']

def quoted (s : String) : String :=
  String.ofList ('"' :: s.toList.flatMap escape ++ ['"'])

end LineLisp.Text
