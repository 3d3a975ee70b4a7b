/-
LambdaScript/Objects/Running.lean

Programs that make and write objects.

Reading makes an object for every application, function and reference, and links
references by writing into them.  A definition is bound to the pointer that has been
read before it is reduced, so that reduction writes into the stored body.
-/
import LambdaScript.Objects.Reduction

namespace LambdaScript

/-- An entry whose expression is an object. -/
inductive Statement
  | define (name : String) (body : Pointer) (reduced : Bool)
  | execute (body : Pointer)
  deriving DecidableEq

namespace Op

/-! ### Reading expressions -/

/-- An argument, with the function it belongs to. -/
def argument : Op Binder := do
  let (b, x) ← parse Parse.argument
  setFunction b ⟨x, .missing⟩
  return b

/-- Further arguments up to the full stop, each with a function that is the body of the
one before it. -/
def arguments : Nat → Binder → Op (List Binder)
  | 0, _ => throw .endless
  | rounds + 1, last => do
    if CharClass.argumentEnd.has (← parse Parse.current) then return []
    else
      let b ← argument
      setBody last (.function b)
      return b :: (← arguments rounds b)

/-- Links the references in the bodies of functions, in the innermost body first. -/
def linkAll : List Binder → Op Unit
  | [] => return ()
  | b :: inner => do
    linkAll inner
    link b

/-- The expression `p` applied to those that follow it in a series. -/
def seriesFrom (item : Op Pointer) : Nat → Pointer → Op Pointer
  | 0, _ => throw .endless
  | rounds + 1, p => do
    if CharClass.bracketEnd.has (← parse Parse.current) then return p
    else
      let arg ← item
      seriesFrom item rounds (← makeNode (.app p arg))

/-- A series of expressions, each read by `item`. -/
def seriesOf (item : Op Pointer) (rounds : Nat) : Op Pointer := do
  if CharClass.bracketEnd.has (← parse Parse.current) then makeIdentity
  else
    let p ← item
    seriesFrom item rounds p

/-- A series in round brackets. -/
def bracketOf (item : Op Pointer) (rounds : Nat) : Op Pointer := do
  let _ ← parse (Parse.expect "(")
  let p ← seriesOf item rounds
  parse (Parse.expectUnlessAtEnd ")")
  return p

/-- A function of one or more arguments. -/
def functionOf (item : Op Pointer) (rounds : Nat) : Op Pointer := do
  let _ ← parse (Parse.expect "[")
  let top ← argument
  let more ← arguments rounds top
  parse (Parse.expectUnlessAtEnd ".")
  let body ← seriesOf item rounds
  setBody (more.getLastD top) body
  linkAll (top :: more)
  parse (Parse.expectUnlessAtEnd "]")
  return .function top

/-- An expression with at most `depth` brackets inside one another. -/
def expressionWithin : Nat → Op Pointer
  | 0 => throw .endless
  | depth + 1 => do
    let k ← parse Parse.current
    if CharClass.bracketStart.has k then bracketOf (expressionWithin depth) depth
    else if CharClass.functionStart.has k then functionOf (expressionWithin depth) depth
    else if CharClass.name.has k then makeNode (.ref (← parse Parse.name) .free)
    else return .missing

/-- An expression. -/
def expression : Op Pointer := do
  expressionWithin (← parse Parse.bound)

/-- The name and expression of a definition. -/
def definition (reduced : Bool) : Op Statement := do
  let x ← parse Parse.definitionName
  return .define x (← expression) reduced

/-- An entry. -/
def statement : Op Statement := do
  match ← parse Parse.keyword with
  | .define => definition true
  | .defineAsIs => definition false
  | .execute => return .execute (← expression)

/-! ### Programs -/

/-- Tells an expression when debugging. -/
def tell (label : String) (p : Pointer) : Op Unit := do
  aside (Act.tell label ((← get).read p))

/-- Performs an entry. -/
def perform : Statement → Op Unit
  | .define name p reduced => do
    bind name p
    if reduced then
      bind name (← reduce false .normal p)
  | .execute p => do
    tell "EXECUTE    " p
    let result ← reduce true .normal p
    tell "Finally    " result

/-- Reads an entry and performs it. -/
def entry : Op Unit := do
  perform (← statement)

/-- Reads and performs entries up to the end of the text. -/
def entries : Nat → Op Unit
  | 0 => throw .endless
  | n + 1 => do
    if (← parse Parse.current).isSome then
      entry
      entries n

/-- Runs a program text from its beginning. -/
def runText (text : List Char) : Op Unit := do
  aside (Act.takeUp text)
  entries (← parse Parse.bound)

/-- Runs the program of a file. -/
def runFile (path : String) : Op Unit := do
  aside (Act.infoLine ("Interpreting file at \"" ++ path ++ "\"..."))
  match (← get).bare.text path with
  | .error .notFound => throw (.noProgram path)
  | .error f => throw (.file f path)
  | .ok text => runText text
  aside (Act.infoLine ("Finished interpreting file at \"" ++ path ++ "\"."))

end Op

end LambdaScript
