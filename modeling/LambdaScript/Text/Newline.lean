/-
LambdaScript/Text/Newline.lean

Line ends in the text of a file: a carriage return, alone or before a line feed,
reads as a line feed.
-/

namespace LambdaScript

/-- The text with all line ends written as line feeds. -/
def unifyLineEnds : List Char → List Char
  | '\r' :: '\n' :: rest => '\n' :: unifyLineEnds rest
  | '\r' :: rest => '\n' :: unifyLineEnds rest
  | c :: rest => c :: unifyLineEnds rest
  | [] => []

end LambdaScript
