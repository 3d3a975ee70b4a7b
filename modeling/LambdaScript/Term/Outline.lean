/-
LambdaScript/Term/Outline.lean

The outline of an expression: a line of text that shows its whole structure and
where every reference leads.

Functions are numbered from zero in the order of `Term.binders`, and a link is
shown as the number of its function.  Two expressions with the same outline
differ at most in the keys of their binders.
-/
import LambdaScript.Term

namespace LambdaScript

namespace Link

/-- A link within an expression whose functions are `functions`. -/
def outline (functions : List Binder) : Link → String
  | free => "?"
  | binder b => match functions.idxOf? b with
    | some n => toString n
    | none => "!"
  | _ => "*"

end Link

namespace Term

/-- The outline of a part of an expression whose functions are `functions`. -/
def outlineIn (functions : List Binder) : Term → String
  | missing => "~"
  | foreign => "%"
  | app fn arg => "(" ++ fn.outlineIn functions ++ " " ++ arg.outlineIn functions ++ ")"
  | lam b name body =>
    "\x7b" ++ (Link.binder b).outline functions ++ " " ++ (if b.recursive then "$" else "") ++ name
      ++ " " ++ body.outlineIn functions ++ "\x7d"
  | ref name l => name ++ "@" ++ l.outline functions

/-- The outline of an expression. -/
def outline (t : Term) : String :=
  t.outlineIn t.binders

end Term

end LambdaScript
