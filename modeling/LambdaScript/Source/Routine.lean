/-
LambdaScript/Source/Routine.lean

The routines of reading, one by one.

A routine looks at the character in hand and then may read on.  Whether it does is
known from that character alone, `Routine.reads`; so a routine that would read can
be refused before it starts when there is no text to read from.
-/
import LambdaScript.Source.Parser

namespace LambdaScript

/-- The routines that can be called by themselves. -/
inductive Routine
  | advance
  | skip
  | expect (text : String)
  | comment
  | lineComment
  | blockComment
  | identifier
  | keyword
  | name
  | argumentName
  | definitionName
  | argument
  | function
  | bracket
  | series
  | expression
  deriving DecidableEq

/-- What a routine gives back. -/
inductive Reply
  | nothing
  | text (s : String)
  | texts (l : List String)
  | term (t : Term)
  deriving DecidableEq

/-- The two things asked of an open text: its next character, and how far it has
been read. -/
inductive Request
  | read
  | tell
  deriving DecidableEq

namespace Reply

/-- An expression, if there is one. -/
def ofTerm : Term → Reply
  | .missing => nothing
  | t => term t

end Reply

namespace Request

/-- The name of a request. -/
def name : Request → String
  | read => "read"
  | tell => "tell"

end Request

namespace Routine

/-- What skipping asks of the text first, by the character in hand. -/
def skipAsks (c : Option Char) : Option Request :=
  if CharClass.commentStart.has c then some .tell
  else if CharClass.blank.has c then some .read
  else none

/-- An expression starts with this character. -/
def startsExpression (c : Option Char) : Bool :=
  CharClass.bracketStart.has c || CharClass.functionStart.has c || CharClass.name.has c

/-- The routine's first request, by the character in hand, if it has any. -/
def asks (c : Option Char) : Routine → Option Request
  | advance => some .read
  | skip => skipAsks c
  | expect text =>
    match text.toList with
    | [] => skipAsks c
    | d :: _ => if c = some d then some .read else none
  | comment => some .tell
  | lineComment => if c.isSome && c != some '\n' then some .read else none
  | blockComment => if c.isSome then some .read else none
  | function => if CharClass.functionStart.has c then some .read else none
  | bracket => if CharClass.bracketStart.has c then some .read else none
  | series =>
    if !CharClass.bracketEnd.has c && startsExpression c then some .read else none
  | expression => if startsExpression c then some .read else none
  | _ => if CharClass.name.has c then some .read else none

/-- Carries out a routine. -/
def run : Routine → Parse Reply
  | advance => do
    Parse.advance
    return .nothing
  | skip => Reply.texts <$> Parse.skip
  | expect text => Reply.texts <$> Parse.expect text
  | comment => do
    match ← Parse.scan Scanner.comment with
    | some text => return .text text
    | none => return .nothing
  | lineComment => do return .text (String.ofList (← Parse.scan Scanner.lineComment))
  | blockComment => do return .text (String.ofList (← Parse.scan Scanner.blockComment))
  | identifier => Reply.text <$> Parse.identifier
  | keyword => do return .text (← Parse.keyword).name
  | name => Reply.text <$> Parse.name
  | argumentName => Reply.text <$> Parse.argumentName
  | definitionName => Reply.text <$> Parse.definitionName
  | argument => do
    let (b, x) ← Parse.argument
    return .term (.lam b x .missing)
  | function => Reply.ofTerm <$> Parse.function
  | bracket => Reply.ofTerm <$> Parse.bracket
  | series => Reply.ofTerm <$> Parse.series
  | expression => Reply.ofTerm <$> Parse.expression

end Routine

end LambdaScript
