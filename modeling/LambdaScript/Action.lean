/-
LambdaScript/Action.lean

The primitive actions.  Both print the expression they are applied to and stand
for the identity function afterwards; the text is preceded by the names of the
definitions that are the same as the expression.
-/
import LambdaScript.Definitions
import LambdaScript.Term.Printer

namespace LambdaScript

/-- The primitive actions. -/
inductive Action
  | print
  | printFlush
  deriving DecidableEq

namespace Action

/-- The name by which a program calls an action. -/
def name : Action → String
  | print => "print"
  | printFlush => "print_flush"

/-- The action of a name. -/
def ofName? (name : String) : Option Action :=
  [print, printFlush].find? (·.name = name)

/-- The name belongs to an action. -/
def isName (name : String) : Bool :=
  (ofName? name).isSome

end Action

/-- The names of definitions, as they stand before an expression. -/
def Definition.aliases : List Definition → String
  | [] => ""
  | found => ", ".intercalate (found.map (·.name)) ++ " :  "

/-- The line that printing an expression gives. -/
def Table.announce (d : Table) (display : Display) (t : Term) : Except Fault String := do
  let found ← d.identicalTo t
  return Definition.aliases found ++ (← t.print? display)

end LambdaScript
