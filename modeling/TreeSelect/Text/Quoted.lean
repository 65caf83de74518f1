/-
# TreeSelect.Text.Quoted — quoted text

A quoted text stands between double quotes on one line. What would end it or could not be seen is
written by an escape: the double quote and the backslash after a backslash, tab, line feed, carriage
return and the null character by their letters, and any other character that is not printable by
its number.
-/
import TreeSelect.Text.Printable

namespace TreeSelect.Text

/-- The way a character is written inside double quotes. -/
def escape (c : Char) : List Char :=
  match c with
  | '"' => ['\\', '"']
  | '\\' => ['\\', '\\']
  | '\t' => ['\\', 't']
  | '\n' => ['\\', 'n']
  | '\r' => ['\\', 'r']
  | '\x00' => ['\\', '0']
  | c => if isPrintable c then [c] else ['\\', 'u', '{'] ++ Nat.toDigits 16 c.toNat ++ ['}']

/-- A text between double quotes. -/
def quoted (s : String) : String := String.ofList ('"' :: s.toList.flatMap escape ++ ['"'])

end TreeSelect.Text
