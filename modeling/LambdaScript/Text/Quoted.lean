/-
LambdaScript/Text/Quoted.lean

A string in quotes, the way a message shows the path of a file: in single quotes,
or in double quotes when it contains a single quote and no double one.  A
backslash stands before a backslash and before the quote in use.  Line feed,
carriage return and tab are written by their letters, and other characters that
are not printable by two, four or eight hexadecimal digits.
-/
import LambdaScript.Text.Printable

namespace LambdaScript

namespace Quoted

/-- The quote put around a string. -/
def mark (s : List Char) : Char :=
  if s.contains '\x27' && !s.contains '\x22' then '\x22' else '\x27'

/-- The last `width` hexadecimal digits of a number. -/
def hexDigits : Nat → Nat → List Char
  | 0, _ => []
  | width + 1, n => hexDigits width (n / 16) ++ [Nat.digitChar (n % 16)]

/-- A character by the digits of its code point. -/
def encodeCode (n : Nat) : List Char :=
  if n < 0x100 then '\x5c' :: 'x' :: hexDigits 2 n
  else if n < 0x10000 then '\x5c' :: 'u' :: hexDigits 4 n
  else '\x5c' :: 'U' :: hexDigits 8 n

/-- One character between quotes `q`. -/
def encodeChar (q c : Char) : List Char :=
  if c = q || c = '\x5c' then ['\x5c', c]
  else if c = '\n' then ['\x5c', 'n']
  else if c = '\r' then ['\x5c', 'r']
  else if c = '\t' then ['\x5c', 't']
  else if Printable.isPrintable c then [c]
  else encodeCode c.toNat

/-- The string in quotes. -/
def encode (s : String) : String :=
  let q := mark s.toList
  String.ofList (q :: s.toList.flatMap (encodeChar q) ++ [q])

end Quoted

end LambdaScript
