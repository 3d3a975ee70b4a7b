/-
LambdaScript/Reduction.lean

Reduction of expressions.

An expression is reduced from the inside: the two sides of an application before
the application itself, the body of a function where it stands, a free reference
by a copy of the definition of its name.  What happens to an application whose
sides are done depends on the `Mode`.  The mark `$` holds a function back: in mode
`normal` a recursive function is applied only to an argument that contains no
recursion, by unrolling it in mode `applyRecursive` until it is no longer
recursive, and in mode `doneRecursive` it is not applied at all.

A reduction may print (when it executes), uses up keys for the binders it makes,
and may fail.  A failure tells what the definitions and the trail were when it
happened; after a success the trail is what it was before.  The number of
reductions inside one another and the number of rounds of one unrolling are
bounded, and a reduction that exceeds a bound fails with `Fault.tooDeep`.
-/
import LambdaScript.Action
import LambdaScript.Constant
import LambdaScript.Place
import LambdaScript.Term.Copy
import LambdaScript.Term.Mark

namespace LambdaScript

/-- How applications of recursive functions are treated. -/
inductive Mode
  | normal
  | applyRecursive
  | doneRecursive
  deriving DecidableEq

namespace Mode

/-- The mode in which the result of applying a function is reduced. -/
def afterApplication : Mode → Mode
  | applyRecursive => doneRecursive
  | mode => mode

end Mode

/-- What a reduction changes as it goes: the supply of keys and the lines it has
printed. -/
structure Effects where
  next : Nat
  lines : List String

/-- How a reduction that fails leaves things. -/
structure Failure where
  fault : Fault
  table : Table
  trail : Trail

/-- Computations with effects that may fail. -/
abbrev Reduce := EStateM Failure Effects

/-- What stays the same during a reduction: whether actions are executed, how
expressions are printed, and how many rounds an unrolling may take. -/
structure Setting where
  execute : Bool
  display : Display
  rounds : Nat

/-- The circumstances under which an expression is reduced. -/
structure Circumstance where
  mode : Mode
  place : Place
  trail : Trail

/-- An expression together with the place at which it lies. -/
abbrev Placed := Term × Place

/-- Ways to reduce an expression. -/
abbrev Reducer := Circumstance → Term → Reduce Placed

namespace Reduce

/-- Makes an expression with binders from the supply. -/
def make (f : Nat → Term × Nat) : Reduce Term :=
  modifyGet fun e => ((f e.next).1, { e with next := (f e.next).2 })

/-- Prints a line. -/
def printLine (line : String) : Reduce Unit :=
  modify fun e => { e with lines := e.lines ++ [line] }

end Reduce

namespace Circumstance

/-- The same circumstances at another place. -/
def moved (c : Circumstance) (p : Place) : Circumstance := { c with place := p }

/-- The same circumstances inside a frame. -/
def down (c : Circumstance) (f : Frame) : Circumstance := { c with place := c.place.down f }

/-- The same circumstances in another mode. -/
def inMode (c : Circumstance) (m : Mode) : Circumstance := { c with mode := m }

/-- The circumstances of the parts of an expression that is on the trail as `v`. -/
def within (c : Circumstance) (v : Visit) : Circumstance := { c with trail := v :: c.trail }

/-- Fails while `here` is at hand. -/
def fail {α : Type} (c : Circumstance) (here : Term) (fault : Fault) : Reduce α :=
  throw ⟨fault, c.place.definitions here, c.trail⟩

/-- The answer to a question about the expression at hand. -/
def ask {α : Type} (c : Circumstance) (here : Term) : Except Fault α → Reduce α
  | .ok a => pure a
  | .error fault => c.fail here fault

end Circumstance

/-- The body of the function with binder `b` is nothing but its argument. -/
def Term.isArgumentOf (b : Binder) : Term → Bool
  | .ref _ l => l = .binder b
  | _ => false

/-- Applies an application whose sides are done, once, and reduces the result with
`again`.  A function's body is replaced where it stands, unless it is nothing but
the argument; then the result is a new expression. -/
def applyWith (again : Reducer) (s : Setting) (c : Circumstance) (t : Term) : Reduce Placed :=
  match t with
  | .missing => c.fail t .nothingToApply
  | .app (.lam b name body) arg => do
    let new ← Reduce.make (body.subst b arg)
    let place :=
      if body.isArgumentOf b then c.place.leave t
      else (c.place.down (.function arg)).down (.body b name)
    again ((c.moved place).inMode c.mode.afterApplication) new
  | .app (.ref name _) arg =>
    if s.execute && Action.isName name then do
      let line ← c.ask t ((c.place.definitions t).announce s.display arg)
      Reduce.printLine line
      return (← Reduce.make Term.identity, c.place.leave t)
    else return (t, c.place)
  | .app _ _ => return (t, c.place)
  | _ => c.fail t .notAnApplication

/-- The application of a recursive function can be unrolled once more: its left
side is a function, or an application that is not held back by a reference. -/
def Term.unrolls : Term → Except Fault Bool
  | .app fn _ => do
    if ← fn.isRecursive then
      match fn with
      | .lam _ _ _ => return true
      | .app (.ref _ _) _ => return false
      | .app _ _ => return true
      | _ => return false
    else return false
  | _ => return false

/-- Unrolls the application of a recursive function, at most `rounds` times. -/
def unrollWith (again : Reducer) (s : Setting) : Nat → Circumstance → Term → Reduce Placed
  | 0, c, t => c.fail t .tooDeep
  | rounds + 1, c, t => do
    if ← c.ask t t.unrolls then
      match t with
      | .app (.app f a) arg =>
        let (fn, _) ← applyWith again s ((c.down (.function arg)).inMode .applyRecursive) (.app f a)
        unrollWith again s rounds c (.app fn arg)
      | .app (.lam b name body) arg =>
        let (t', place) ← applyWith again s (c.inMode .applyRecursive) (.app (.lam b name body) arg)
        unrollWith again s rounds (c.moved place) t'
      | _ => unrollWith again s rounds c t
    else return (t, c.place)

/-- Reduces the application of `fn` to `arg`, both of which are done. -/
def reduceApplicationWith (again : Reducer) (s : Setting) (c : Circumstance) (fn arg : Term) :
    Reduce Placed := do
  let t := Term.app fn arg
  match c.mode with
  | .normal =>
    if ← c.ask t fn.isRecursive then
      if ← c.ask t (arg.containsRecursive c.trail) then return (t, c.place)
      else if ← c.ask t t.unrolls then
        let (t₁, p₁) ← unrollWith again s s.rounds c t
        let (t₂, p₂) ← applyWith again s ((c.moved p₁).inMode .doneRecursive) t₁
        again ((c.moved p₂).inMode .normal) t₂
      else return (t, c.place)
    else applyWith again s c t
  | .doneRecursive =>
    if ← c.ask t fn.isRecursive then return (t, c.place) else applyWith again s c t
  | .applyRecursive => return (t, c.place)

/-- Reduces an expression that is put on the trail as `v`, with `again` for
everything inside it and for what comes out of it. -/
def reduceVisiting (v : Visit) (again : Reducer) (s : Setting) (c : Circumstance) (t : Term) :
    Reduce Placed :=
  let inner := c.within v
  match t with
  | .app .missing _ => return (t, c.place)
  | .app fn arg => do
    let (fn, _) ← again (inner.down (.function arg)) fn
    let (arg, _) ← again (inner.down (.argument fn)) arg
    reduceApplicationWith again s inner fn arg
  | .lam b name body => do
    let (body, _) ← again (inner.down (.body b name)) body
    return (.lam b name body, c.place)
  | .ref name .free =>
    match c.place.lookUp t name with
    | some body => do
      let new ← Reduce.make body.copy
      again (inner.moved (c.place.leave t)) new
    | none => return (t, c.place)
  | _ => return (t, c.place)

/-- Reduces an expression, with `again` for everything inside it and for what
comes out of it. -/
def reduceWith (again : Reducer) (s : Setting) (c : Circumstance) (t : Term) : Reduce Placed :=
  reduceVisiting t.visit again s c t

/-- Reduces an expression, with at most `depth` reductions inside one another. -/
def reduce (s : Setting) : Nat → Reducer
  | 0 => fun c t => c.fail t .tooDeep
  | depth + 1 => reduceWith (reduce s depth) s

/-- Reduces an expression that is put on the trail as `v`. -/
def reduceAs (v : Visit) (s : Setting) : Nat → Reducer
  | 0 => fun c t => c.fail t .tooDeep
  | depth + 1 => reduceVisiting v (reduce s depth) s

/-- Mostly an expression is on the trail as what it looks like. -/
theorem reduceAs_visit (s : Setting) (depth : Nat) (c : Circumstance) (t : Term) :
    reduceAs t.visit s depth c t = reduce s depth c t := by
  cases depth <;> rfl

end LambdaScript
