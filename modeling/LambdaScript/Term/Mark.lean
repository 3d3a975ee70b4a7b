/-
LambdaScript/Term/Mark.lean

The two recursion marks of an expression.

A function is *recursive* when it is written with the mark `$`.  A reference is
recursive when it belongs to such a function, and an application when both its
sides are.  An expression *contains recursion* when a recursive function or
reference occurs in it, or a reference to something on the *trail*: the list of
what is being reduced at the moment.

Asking a leaf that is no expression for a mark is a fault, but the order of the
questions matters: an application with a missing side is recursive without
anything being asked.
-/
import LambdaScript.Term
import LambdaScript.Fault

namespace LambdaScript

/-- One entry of the trail.  Of the expressions under reduction only functions,
missing ones and references with a key can be found again; the others leave only
their number. -/
inductive Visit
  | missing
  | function (b : Binder)
  | reference (key : Nat)
  | other
  deriving DecidableEq

/-- What is under reduction, the innermost first. -/
abbrev Trail := List Visit

namespace Term

/-- The entry that reducing an expression puts on the trail. -/
def visit : Term → Visit
  | missing => .missing
  | lam b _ _ => .function b
  | _ => .other

end Term

namespace Link

/-- A reference with this link is recursive. -/
def isRecursive : Link → Except Fault Bool
  | free => .ok false
  | binder b => .ok b.recursive
  | reference _ own => own.isRecursive
  | endless => .error .tooDeep

/-- What the link points at is on the trail.  A free link points at nothing,
which is found where a missing expression is. -/
def isOn (trail : Trail) : Link → Bool
  | free => trail.contains .missing
  | binder b => trail.contains (.function b)
  | reference key _ => trail.contains (.reference key)
  | endless => false

end Link

namespace Term

/-- The recursive mark. -/
def isRecursive : Term → Except Fault Bool
  | missing => .error (.lacking .missing .recursive)
  | foreign => .error (.lacking .foreign .recursive)
  | lam b _ _ => .ok b.recursive
  | ref _ l => l.isRecursive
  | app missing _ => .ok true
  | app _ missing => .ok true
  | app fn arg => do
    if ← fn.isRecursive then arg.isRecursive else return false

/-- The mark of containing recursion, in the light of a trail. -/
def containsRecursive (trail : Trail) : Term → Except Fault Bool
  | missing => .error (.lacking .missing .containsRecursive)
  | foreign => .error (.lacking .foreign .containsRecursive)
  | lam b _ body => if b.recursive then .ok true else body.containsRecursive trail
  | ref _ l => do
    if ← l.isRecursive then return true else return l.isOn trail
  | app fn arg => do
    if ← fn.containsRecursive trail then return true else arg.containsRecursive trail

end Term

end LambdaScript
