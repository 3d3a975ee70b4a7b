/-
LambdaScript/Workload/Arithmetic.lean

Workloads that compute with Church numerals.
-/
import LambdaScript.Church
import LambdaScript.Datum
import LambdaScript.Session

namespace LambdaScript

namespace Workload

/-- The text of an expression as data. -/
def textDatum (t : Term) : Act Datum := do
  return .text (← Act.textOf t)

/-- A numeral. -/
def numeral (n : Nat) : Act Term := Act.make (Term.church n)

/-- Successors around an expression, each with binders of its own. -/
def successors : Nat → Term → Act Term
  | 0, t => return t
  | n + 1, t => do
    let f ← Act.make Term.successor
    return .app f (← successors n t)

/-- The function `[z. m (k z)]` of two numerals. -/
def composition (m k : Nat) : Act Term := do
  let z ← Act.parse (Parse.newBinder false)
  let fm ← numeral m
  let fk ← numeral k
  return .lam z "z" (.app fm (.app fk (.ref "z" (.binder z))))

/-- The text of what an expression reduces to. -/
def reduced (t : Term) : Act Datum := do
  textDatum (← Act.simplify false .normal t)

/-- Twice the magnitude, by successors and by addition, and a product. -/
def arithmeticReport (magnitude : Nat) : Act Datum := do
  let counted ← reduced (← successors magnitude (← numeral magnitude))
  let sum : Term :=
    .app (.app (← numeral magnitude) (← Act.make Term.successor)) (← numeral magnitude)
  let added ← reduced sum
  let product ← reduced (← composition magnitude (magnitude / 2 + 1))
  return .list [counted, added, product]

/-- The sums from one to `k`, for every `k` up to `limit`.  The program with numerals up to `n` is
`source n`; it is run with two numerals more than are needed, and with six at least. -/
def triangularReport (source : Nat → String) (limit : Nat) : Act Datum := do
  Act.runText (source (max (limit + 2) 6)).toList
  let sums ← (List.range limit).mapM fun i =>
    reduced (.app (.ref "sum1toN" .free) (.ref (toString (i + 1)) .free))
  return .list sums

end Workload

end LambdaScript
