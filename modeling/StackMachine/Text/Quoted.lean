-- SUMMARY: Quoted texts: double quotes around, backslash escapes for what cannot be shown.
import StackMachine.Bytes
import StackMachine.Text.Printable

/-!
# Quoted texts

A quoted text stands between double quotes. Five characters and the double
quote have short escapes, other unprintable ones are written by their code
point, and all else is written as it is.
-/

namespace StackMachine.Quoted

/-- A code point in braces. -/
def codePoint (c : Char) : Text :=
  '\\' :: 'u' :: '\x7b' :: (Hex.digits 1 c.toNat ++ ['\x7d'])

/-- The written form of one character. -/
def escape (c : Char) : Text :=
  match c with
  | '\x00' => ['\\', '0']
  | '\t' => ['\\', 't']
  | '\n' => ['\\', 'n']
  | '\r' => ['\\', 'r']
  | '"' => ['\\', '"']
  | '\\' => ['\\', '\\']
  | c => if Text.isPrintable c then [c] else codePoint c

/-- The quoted form of a text. -/
def encode (t : Text) : Text :=
  '"' :: (t.flatMap escape ++ ['"'])

end StackMachine.Quoted
