/-
LambdaScript/Term/Printer.lean

How expressions are printed.

Functions directly inside one another share one header, `[x y. ...]`; an
application is written without parentheses unless it stands on the right of
another one.  What is shown of an argument is up to the `Display`: the mark `$`
of recursive functions, the level of the function (0 for the outermost) and the
argument's name.  A free reference always shows `?`.
-/
import LambdaScript.Term
import LambdaScript.Fault

namespace LambdaScript

/-- What is shown of an argument. -/
structure Display where
  levels : Bool
  names : Bool
  marks : Bool
  deriving DecidableEq

/-- How deep functions lie, each with its level. -/
abbrev Levels := List (Binder × Nat)

namespace Display

/-- Names and marks, but no levels. -/
def standard : Display := ⟨false, true, true⟩

/-- The display of a set of flags: 1 for levels, 2 for names and 4 for marks. -/
def ofFlags (flags : Nat) : Display :=
  ⟨flags.testBit 0, flags.testBit 1, flags.testBit 2⟩

/-- The level shown for an argument. -/
def level (d : Display) (levels : Levels) : Link → String
  | .free => "?"
  | .binder b =>
    if d.levels then
      match levels.lookup b with
      | some n => toString n
      | none => "?"
    else ""
  | _ => if d.levels then "?" else ""

/-- The mark shown for an argument. -/
def mark (d : Display) : Link → String
  | .binder b => if b.recursive && d.marks then "$" else ""
  | .reference _ own => d.mark own
  | _ => ""

/-- An argument, in a header or where it is referred to. -/
def argument (d : Display) (levels : Levels) (l : Link) (name : String) : String :=
  d.mark l ++ d.level levels l ++ (if d.names then name else "")

end Display

namespace Term

/-- The levels of the functions of an expression that lies at level `n`. -/
def levelsFrom (n : Nat) : Term → Levels
  | app fn arg => fn.levelsFrom n ++ arg.levelsFrom n
  | lam b _ body => (b, n) :: body.levelsFrom (n + 1)
  | _ => []

/-- The application is written in parentheses when it stands on the right. -/
def isApp : Term → Bool
  | app _ _ => true
  | _ => false

/-- The text of a leaf or application as the body of a function, where the header
is still open, or as it stands. -/
def closeHeader (inHeader : Bool) (text : String) : String :=
  if inHeader then ". " ++ text ++ "]" else text

/-- Prints an expression, `inHeader` when it is the body of a function. -/
def printWith (d : Display) (levels : Levels) (inHeader : Bool) : Term → String
  | missing => closeHeader inHeader "<None>"
  | foreign => closeHeader inHeader "<Non-Sub>"
  | ref name l => closeHeader inHeader (d.argument levels l name)
  | lam b name body =>
    (if inHeader then " " else "[") ++ d.argument levels (.binder b) name
      ++ body.printWith d levels true
  | app fn arg =>
    closeHeader inHeader
      (fn.printWith d levels false
        ++ if arg.isApp then "(" ++ arg.printWith d levels false ++ ")"
          else " " ++ arg.printWith d levels false)

/-- The text of an expression, with levels counted from the top of `top`, or from
its own top when `top` is missing. -/
def printIn (d : Display) (t : Term) : Term → String
  | missing => t.printWith d (if d.levels then t.levelsFrom 0 else []) false
  | top => t.printWith d (if d.levels then top.levelsFrom 0 else []) false

/-- The text of an expression. -/
def print (d : Display) (t : Term) : String :=
  t.printIn d t

/-- The text of an expression, unless following one of its references never ends. -/
def printIn? (d : Display) (t top : Term) : Except Fault String :=
  if t.hasKnot then .error .tooDeep else .ok (t.printIn d top)

/-- The text of an expression, unless following one of its references never ends. -/
def print? (d : Display) (t : Term) : Except Fault String :=
  t.printIn? d t

end Term

end LambdaScript
