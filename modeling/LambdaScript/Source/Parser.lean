/-
LambdaScript/Source/Parser.lean

Reading expressions and entries from a program text.

    expression  ::=  name  |  ( series )  |  [ argument+ . series ]
    argument    ::=  name  |  $ name
    series      ::=  expression*
    entry       ::=  def name expression  |  def_u name expression  |  do expression

A series stands for its expressions applied from left to right, and an empty one
for the identity function.  Closing brackets may be left out at the end of the
text.  Where no expression starts, `expression` reads nothing and gives
`Term.missing`; inside a series that would go on for ever.

The functions that go round or into one another take a bound on the number of
rounds; what has no bound in its name works with one more than the number of
characters left, which is enough for every reading that comes to an end.
-/
import LambdaScript.Action
import LambdaScript.Constant
import LambdaScript.Source.Problem

namespace LambdaScript

/-- The keywords that begin an entry. -/
inductive Keyword
  | define
  | defineAsIs
  | execute
  deriving DecidableEq

namespace Keyword

/-- The keyword as it is written. -/
def name : Keyword → String
  | define => "def"
  | defineAsIs => "def_u"
  | execute => "do"

/-- The keyword of a name. -/
def ofName? (name : String) : Option Keyword :=
  [define, defineAsIs, execute].find? (·.name = name)

end Keyword

/-- A program is a sequence of entries. -/
inductive Entry
  /-- Binds a name to an expression, which is reduced when `reduced` is set. -/
  | define (name : String) (body : Term) (reduced : Bool)
  /-- Reduces an expression and executes its actions. -/
  | execute (body : Term)
  deriving DecidableEq

/-- What reading changes: the scanner, and the supply of keys for binders. -/
structure Reading where
  scanner : Scanner
  next : Nat
  deriving DecidableEq

/-- Why reading stopped before its end. -/
inductive Halt
  | input (e : InputError)
  | endless
  deriving DecidableEq

/-- Reading from a program text. -/
abbrev Parse := EStateM Halt Reading

namespace Parse

/-! ### Characters -/

/-- The character in hand. -/
def current : Parse (Option Char) := do
  return (← get).scanner.current

/-- Moves the scanner. -/
def scan {α : Type} (f : Scanner → α × Scanner) : Parse α :=
  modifyGet fun r => ((f r.scanner).1, { r with scanner := (f r.scanner).2 })

/-- Takes the next character. -/
def advance : Parse Unit :=
  scan fun s => ((), s.advance)

/-- Skips blanks and comments, and tells the comments. -/
def skip : Parse (List String) :=
  scan Scanner.skip

/-- Stops because of a problem at the location reached. -/
def reject {α : Type} (p : Problem) : Parse α := do
  throw (.input ⟨p, (← get).scanner.location⟩)

/-- A binder for a new function. -/
def newBinder (recursive : Bool) : Parse Binder :=
  modifyGet fun r => (⟨r.next, recursive⟩, { r with next := r.next + 1 })

/-- Makes an expression with binders from the supply. -/
def make (f : Nat → Term × Nat) : Parse Term :=
  modifyGet fun r => ((f r.next).1, { r with next := (f r.next).2 })

/-- Takes the characters of a list, which are part of `text`. -/
def takeAll (text : String) : List Char → Parse Unit
  | [] => return ()
  | c :: rest => do
    let k ← current
    if k = some c then
      advance
      takeAll text rest
    else reject (.unexpected text k)

/-- Takes a text, and skips blanks and comments behind it. -/
def expect (text : String) : Parse (List String) := do
  takeAll text text.toList
  skip

/-- Takes a text unless there is nothing more to read. -/
def expectUnlessAtEnd (text : String) : Parse Unit := do
  if (← current).isSome then
    let _ ← expect text

/-! ### Names -/

/-- A name, and the blanks and comments behind it. -/
def identifier : Parse String := do
  let k ← current
  if CharClass.name.has k then
    advance
    let tail ← scan Scanner.nameTail
    let _ ← skip
    return String.ofList (k.toList ++ tail)
  else reject (.notAName k)

/-- A keyword. -/
def keyword : Parse Keyword := do
  let x ← identifier
  match Keyword.ofName? x with
  | some k => return k
  | none => reject (.notAKeyword x)

/-- A name that is no keyword. -/
def name : Parse String := do
  let x ← identifier
  if (Keyword.ofName? x).isSome then reject (.keyword x) else return x

/-- The name of an argument. -/
def argumentName : Parse String := do
  let x ← name
  if Action.isName x then reject (.actionAsArgument x) else return x

/-- The name of a definition. -/
def definitionName : Parse String := do
  let x ← identifier
  if (Keyword.ofName? x).isSome then reject (.keyword x)
  else if Action.isName x then reject (.actionAsDefinition x)
  else return x

/-! ### Expressions -/

/-- An argument, with a binder for its function. -/
def argument : Parse (Binder × String) := do
  let marked := (← current) = some '$'
  if marked then
    let _ ← expect "$"
  let x ← argumentName
  return (← newBinder marked, x)

/-- Further arguments, up to the full stop. -/
def arguments : Nat → Parse (List (Binder × String))
  | 0 => throw .endless
  | rounds + 1 => do
    if CharClass.argumentEnd.has (← current) then return []
    else
      let a ← argument
      return a :: (← arguments rounds)

/-- The expression `t` applied to those that follow it in a series. -/
def seriesFrom (item : Parse Term) : Nat → Term → Parse Term
  | 0, _ => throw .endless
  | rounds + 1, t => do
    if CharClass.bracketEnd.has (← current) then return t
    else
      let arg ← item
      seriesFrom item rounds (.app t arg)

/-- A series of expressions, each read by `item`. -/
def seriesOf (item : Parse Term) (rounds : Nat) : Parse Term := do
  if CharClass.bracketEnd.has (← current) then make Term.identity
  else
    let t ← item
    seriesFrom item rounds t

/-- A series in round brackets. -/
def bracketOf (item : Parse Term) (rounds : Nat) : Parse Term := do
  let _ ← expect "("
  let t ← seriesOf item rounds
  expectUnlessAtEnd ")"
  return t

/-- A function of one or more arguments. -/
def functionOf (item : Parse Term) (rounds : Nat) : Parse Term := do
  let _ ← expect "["
  let a ← argument
  let more ← arguments rounds
  expectUnlessAtEnd "."
  let body ← seriesOf item rounds
  expectUnlessAtEnd "]"
  return Term.lams (a :: more) body

/-- An expression with at most `depth` brackets inside one another. -/
def expressionWithin : Nat → Parse Term
  | 0 => throw .endless
  | depth + 1 => do
    let k ← current
    if CharClass.bracketStart.has k then bracketOf (expressionWithin depth) depth
    else if CharClass.functionStart.has k then functionOf (expressionWithin depth) depth
    else if CharClass.name.has k then return .ref (← name) .free
    else return .missing

/-- A bound that is enough for what is left of the text. -/
def bound : Parse Nat := do
  return (← get).scanner.remaining + 1

/-- An expression. -/
def expression : Parse Term := do
  expressionWithin (← bound)

/-- A series. -/
def series : Parse Term := do
  let n ← bound
  seriesOf (expressionWithin n) n

/-- A series in round brackets. -/
def bracket : Parse Term := do
  let n ← bound
  bracketOf (expressionWithin n) n

/-- A function. -/
def function : Parse Term := do
  let n ← bound
  functionOf (expressionWithin n) n

/-! ### Entries -/

/-- The name and expression of a definition. -/
def definition (reduced : Bool) : Parse Entry := do
  let x ← definitionName
  return .define x (← expression) reduced

/-- An entry. -/
def entry : Parse Entry := do
  match ← keyword with
  | .define => definition true
  | .defineAsIs => definition false
  | .execute => return .execute (← expression)

end Parse

end LambdaScript
