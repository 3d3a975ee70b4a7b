/-
LambdaScript/Term/Comparison.lean

Comparison of two expressions up to the names of their arguments.

The two trees are walked side by side.  Functions that meet are recorded as a
pair; two references agree when the functions they belong to have met before, in
either order.  So a free reference agrees with nothing, not even with itself.
A pair stays recorded when the walk leaves the two functions.
-/
import LambdaScript.Term
import LambdaScript.Fault

namespace LambdaScript

/-- The functions that have met, one of either side. -/
abbrev Meetings := List (Binder × Binder)

namespace Meetings

/-- The functions of two links have met, in either order. -/
def agree (met : Meetings) : Link → Link → Bool
  | .binder a, .binder b => met.contains (a, b) || met.contains (b, a)
  | _, _ => false

end Meetings

namespace Term

/-- Compares two expressions when the functions of `met` have met before, and
tells which have met afterwards. -/
def compare (met : Meetings) : Term → Term → Except Fault (Bool × Meetings)
  | missing, missing => .ok (true, met)
  | foreign, foreign => .error .incomparable
  | lam a _ s, lam b _ t => s.compare ((a, b) :: met) t
  | ref _ k, ref _ l => .ok (met.agree k l, met)
  | app f a, app g b => do
    let (same, met) ← f.compare met g
    if same then a.compare met b else return (false, met)
  | _, _ => .ok (false, met)

/-- The two expressions are the same up to the names of arguments. -/
def identical (s t : Term) : Except Fault Bool :=
  Prod.fst <$> s.compare [] t

end Term

end LambdaScript
