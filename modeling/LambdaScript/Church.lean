/-
LambdaScript/Church.lean

Church numerals: the numeral of `n` is `[y x. y(y(...(y x)))]` with `n` applications
of `y`, and the successor function is `[w y x. y(w y x)]`.
-/
import LambdaScript.Term

namespace LambdaScript

namespace Term

/-- The function `fn` applied `n` times in a row to `arg`. -/
def iterate (fn : Term) : Nat → Term → Term
  | 0, arg => arg
  | n + 1, arg => app fn (iterate fn n arg)

/-- The numeral of `n`. -/
def church (n next : Nat) : Term × Nat :=
  let y : Binder := ⟨next, false⟩
  let x : Binder := ⟨next + 1, false⟩
  (lam y "y" (lam x "x" (iterate (ref "y" (.binder y)) n (ref "x" (.binder x)))), next + 2)

/-- The successor function. -/
def successor (next : Nat) : Term × Nat :=
  let w : Binder := ⟨next, false⟩
  let y : Binder := ⟨next + 1, false⟩
  let x : Binder := ⟨next + 2, false⟩
  let yRef := ref "y" (.binder y)
  (lam w "w" (lam y "y" (lam x "x"
    (app yRef (app (app (ref "w" (.binder w)) yRef) (ref "x" (.binder x)))))), next + 3)

end Term

end LambdaScript
