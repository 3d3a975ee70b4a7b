/-
LambdaScript/Objects/Reduction.lean

Reduction of expressions in place.

The sides of an application and the body of a function are reduced and written back
into it.  A function is applied by substitution in its own body, so an object that is
part of two expressions would be changed in both.  A definition is copied before it is
put in the place of its name.  What is under reduction is on the trail until it is done,
and stays there when the reduction fails.
-/
import LambdaScript.Objects.Memory

namespace LambdaScript

namespace Op

/-- Ways to reduce an expression in place. -/
abbrev Reducer := Mode → Pointer → Op Pointer

/-- Prints the line that announces an expression. -/
def announce (p : Pointer) : Op Unit := do
  let m ← get
  aside do
    Act.sayLine (← Act.ofFault (m.definitions.announce m.display (m.read p)))

/-- Applies an application whose sides are done, once, and reduces the result with
`again`. -/
def applyWith (again : Reducer) (execute : Bool) (mode : Mode) : Pointer → Op Pointer
  | .missing => throw (.fault .nothingToApply)
  | .node k => do
    match ← node k with
    | .app (.function b) arg =>
      let new ← substitute b arg (← function b).body
      again mode.afterApplication new
    | .app (.node j) arg =>
      match ← node j with
      | .ref x _ =>
        if execute && Action.isName x then
          announce arg
          makeIdentity
        else return .node k
      | .app _ _ => return .node k
    | .app _ _ => return .node k
    | .ref _ _ => throw (.fault .notAnApplication)
  | _ => throw (.fault .notAnApplication)

/-- Unrolls the application of a recursive function, at most `rounds` times. -/
def unrollWith (again : Reducer) (execute : Bool) : Nat → Pointer → Op Pointer
  | 0, _ => throw (.fault .tooDeep)
  | rounds + 1, p => do
    if ← ask Term.unrolls p then
      match p with
      | .node k =>
        match ← node k with
        | .app (.node j) _ =>
          setFn k (← applyWith again execute .applyRecursive (.node j))
          unrollWith again execute rounds p
        | .app (.function _) _ =>
          unrollWith again execute rounds (← applyWith again execute .applyRecursive p)
        | _ => unrollWith again execute rounds p
      | _ => unrollWith again execute rounds p
    else return p

/-- Reduces the application with key `k`, of which both sides are done. -/
def reduceApplicationWith (again : Reducer) (execute : Bool) (mode : Mode) (k : Nat)
    (fn arg : Pointer) : Op Pointer := do
  let p := Pointer.node k
  match mode with
  | .normal =>
    if ← ask Term.isRecursive fn then
      let trail := (← get).trail.map Pointer.visit
      if ← ask (Term.containsRecursive trail) arg then return p
      else if ← ask Term.unrolls p then
        let p₁ ← unrollWith again execute (← get).limits.rounds p
        let p₂ ← applyWith again execute .doneRecursive p₁
        again .normal p₂
      else return p
    else applyWith again execute mode p
  | .doneRecursive =>
    if ← ask Term.isRecursive fn then return p else applyWith again execute mode p
  | .applyRecursive => return p

/-- Reduces an expression that is on the trail, with `again` for everything inside it
and for what comes out of it. -/
def reduceWith (again : Reducer) (execute : Bool) (mode : Mode) : Pointer → Op Pointer
  | .function b => do
    setBody b (← again mode (← function b).body)
    return .function b
  | .node k => do
    match ← node k with
    | .app .missing _ => return .node k
    | .app p _ =>
      let fn ← again mode p
      setFn k fn
      let arg ← again mode (← node k).arg
      setArg k arg
      reduceApplicationWith again execute mode k fn arg
    | .ref x .free =>
      match (← get).lookUp x with
      | some p => again mode (← copy p)
      | none => return .node k
    | .ref _ _ => return .node k
  | p => return p

/-- Puts an expression on the trail. -/
def push (p : Pointer) : Op Unit :=
  modify fun m => { m with trail := p :: m.trail }

/-- Takes the innermost expression off the trail. -/
def pop : Op Unit :=
  modify fun m => { m with trail := m.trail.tail }

/-- Reduces an expression, with at most `depth` reductions inside one another. -/
def reduceWithin (execute : Bool) : Nat → Reducer
  | 0, _, _ => throw (.fault .tooDeep)
  | depth + 1, mode, p => do
    push p
    let p' ← reduceWith (reduceWithin execute depth) execute mode p
    pop
    return p'

/-- Reduces an expression. -/
def reduce (execute : Bool) (mode : Mode) (p : Pointer) : Op Pointer := do
  reduceWithin execute (← get).limits.depth mode p

end Op

end LambdaScript
