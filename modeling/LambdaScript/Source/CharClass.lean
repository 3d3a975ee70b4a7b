/-
LambdaScript/Source/CharClass.lean

The classes of characters that a program text is made of.

While a text is read there is a current character or, at the end, none; `has`
tells whether it belongs to a class.  `verdict` asks the same of a whole string,
which belongs to one of the classes given by a list of characters when it occurs
in that list in one piece.
-/

namespace LambdaScript

/-- Classes of characters. -/
inductive CharClass
  | blank
  | commentStart
  | bracketStart
  | bracketEnd
  | functionStart
  | functionEnd
  | argumentEnd
  | name
  deriving DecidableEq

namespace CharClass

/-- Blank characters. -/
def blanks : List Char := [' ', '\t', '\r', '\n']

/-- The characters that no name contains. -/
def nameEnds : List Char := blanks ++ ['(', ')', '[', ']', '.']

/-- The current character belongs to the class.  The end of the text closes
brackets and functions. -/
def has : CharClass → Option Char → Bool
  | blank, some c => blanks.contains c
  | name, some c => !nameEnds.contains c
  | commentStart, c => c == some '/'
  | bracketStart, c => c == some '('
  | bracketEnd, c => c == none || c == some ')' || c == some ']'
  | functionStart, c => c == some '['
  | functionEnd, c => c == none || c == some ']'
  | argumentEnd, c => c == some '.'
  | _, none => false

/-- The first list occurs in the second in one piece. -/
def occursIn (piece : List Char) : List Char → Bool
  | [] => piece.isEmpty
  | c :: rest => piece.isPrefixOf (c :: rest) || occursIn piece rest

/-- The class of a string; there is no answer for the empty string where only
its characters could decide. -/
def verdict (k : CharClass) (s : String) : Option Bool :=
  match k with
  | blank => if s.isEmpty then none else some (occursIn s.toList blanks)
  | name => if s.isEmpty then none else some !(occursIn s.toList nameEnds)
  | commentStart => some (s == "/")
  | bracketStart => some (s == "(")
  | bracketEnd => some (s.isEmpty || s == ")" || s == "]")
  | functionStart => some (s == "[")
  | functionEnd => some (s.isEmpty || s == "]")
  | argumentEnd => some (s == ".")

end CharClass

end LambdaScript
