/-
LambdaScript/Constant.lean

The expressions that come with the language: the identity function, the truth
values, and the beginnings of the Church numerals.  Each is made anew whenever it
is asked for, with binders from the supply.

Not all of them are what their names promise.  The references of `successor` are
free, the reference of `false` and `zero` points at itself, and `two` is the same
expression as `one`.
-/
import LambdaScript.Term

namespace LambdaScript

namespace Term

/-- The function `[x. x]`. -/
def identity (next : Nat) : Term × Nat :=
  let b : Binder := ⟨next, false⟩
  (lam b "x" (ref "x" (.binder b)), next + 1)

end Term

/-- The expressions that come with the language. -/
inductive Constant
  | identity
  | false
  | true
  | successor
  | zero
  | one
  | two
  deriving DecidableEq

namespace Constant

/-- The name under which a constant is known. -/
def name : Constant → String
  | identity => "identity"
  | false => "false"
  | true => "true"
  | successor => "successor"
  | zero => "cn0"
  | one => "cn1"
  | two => "cn2"

/-- All constants. -/
def all : List Constant :=
  [identity, false, true, successor, zero, one, two]

/-- The constant of a name. -/
def ofName? (name : String) : Option Constant :=
  all.find? (·.name = name)

/-- The function `[y x. body]`, where `body` may refer to the binders of both. -/
def twoArguments (next : Nat) (body : Binder → Binder → Term) : Term × Nat :=
  let y : Binder := ⟨next, Bool.false⟩
  let x : Binder := ⟨next + 1, Bool.false⟩
  (.lam y "y" (.lam x "x" (body y x)), next + 2)

/-- The expression of a constant. -/
def expression : Constant → Nat → Term × Nat
  | identity, next => Term.identity next
  | false, next => twoArguments next fun _ _ => .ref "x" .endless
  | zero, next => twoArguments next fun _ _ => .ref "x" .endless
  | true, next => twoArguments next fun _ x => .ref "y" (.binder x)
  | one, next => twoArguments next fun y x => .app (.ref "y" (.binder y)) (.ref "x" (.binder x))
  | two, next => twoArguments next fun y x => .app (.ref "y" (.binder y)) (.ref "x" (.binder x))
  | successor, next =>
    let y := Term.ref "y" .free
    (.lam ⟨next, Bool.false⟩ "w" (.lam ⟨next + 1, Bool.false⟩ "y" (.lam ⟨next + 2, Bool.false⟩ "x"
      (.app y (.app (.app (.ref "w" .free) y) (.ref "x" .free))))), next + 3)

/-- The constants that are made by copying one that is kept. -/
def isCopied : Constant → Bool
  | one => Bool.true
  | two => Bool.true
  | _ => Bool.false

end Constant

end LambdaScript
