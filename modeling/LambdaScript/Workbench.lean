/-
LambdaScript/Workbench.lean

A workbench: a session with expressions laid out under names, to be built, looked
at and worked on one by one.

An expression that is nothing but a reference can itself be referred to: other
references may be linked to it, and it may be put on the trail.  For this every
slot has a key, which stands for the identity of the reference in it.  When such a
reference is linked in its turn, all references that lead through it follow.
-/
import LambdaScript.Session

namespace LambdaScript

/-- The plan of an expression.  Its functions carry labels, and its references name
the function they belong to by its label. -/
inductive Plan
  | missing
  | foreign
  | app (fn arg : Plan)
  | lam (name : String) (recursive : Bool) (label : Int) (body : Plan)
  | ref (name : String) (label : Option Int)

/-- Functions by their labels, the newest first. -/
abbrev Labels := List (Int × Binder)

namespace Plan

/-- The labels after the functions of a plan have been given binders, and the rest
of the supply. -/
def label (labels : Labels) (next : Nat) : Plan → Labels × Nat
  | app fn arg =>
    let r := fn.label labels next
    arg.label r.1 r.2
  | lam _ recursive l body => body.label ((l, ⟨next, recursive⟩) :: labels) (next + 1)
  | _ => (labels, next)

/-- The expression of a plan whose functions take the binders that `label` gives
them, and the rest of the supply. -/
def term (labels : Labels) (next : Nat) : Plan → Term × Nat
  | missing => (.missing, next)
  | foreign => (.foreign, next)
  | app fn arg =>
    let f := fn.term labels next
    let a := arg.term labels f.2
    (.app f.1 a.1, a.2)
  | lam name recursive _ body =>
    let t := body.term labels (next + 1)
    (.lam ⟨next, recursive⟩ name t.1, t.2)
  | ref name none => (.ref name .free, next)
  | ref name (some l) => (.ref name ((labels.lookup l).elim .free .binder), next)

end Plan

/-- An expression on the workbench.  The key is the identity of the reference that
it may be. -/
structure Slot where
  key : Nat
  term : Term
  deriving DecidableEq

namespace Slot

/-- What reducing the expression puts on the trail. -/
def visit (s : Slot) : Visit :=
  match s.term with
  | .ref _ _ => .reference s.key
  | t => t.visit

/-- The link of a reference to the expression, and the name by which it is found.
What is neither a function nor a reference has no name. -/
def target (s : Slot) : Except Kind (Link × String) :=
  match s.term with
  | .lam b name _ => .ok (.binder b, name)
  | .ref name l => .ok (.reference s.key l, name)
  | .app _ _ => .error .application
  | .foreign => .error .foreign
  | .missing => .error .missing

end Slot

/-- A session with expressions and labelled functions. -/
structure Workbench where
  session : Session
  slots : List (String × Slot)
  labels : Labels

/-- Doing something on a workbench. -/
abbrev Work := EStateM SessionError Workbench

namespace Workbench

/-- An empty workbench. -/
def fresh : Workbench := ⟨.fresh, [], []⟩

/-- The workbench after the reference with this key, free so far, has got the link
`new`. -/
def relink (w : Workbench) (key : Nat) (new : Link) : Workbench :=
  { w with
    slots := w.slots.map fun (name, s) => (name, { s with term := s.term.relink key new })
    session := { w.session with table := ⟨w.session.table.toList.map fun d =>
      { d with body := d.body.relink key new }⟩ } }

end Workbench

namespace Work

/-- Does something in the session. -/
def act {α : Type} (a : Act α) : Work α := fun w =>
  match a w.session with
  | .ok x s => .ok x { w with session := s }
  | .error e s => .error e { w with session := s }

/-- A new key. -/
def newKey : Work Nat := do
  return (← act (Act.parse (Parse.newBinder false))).key

/-- Empties a slot. -/
def clear (name : String) : Work Unit :=
  modify fun w => { w with slots := w.slots.filter (·.1 ≠ name) }

/-- Fills a slot. -/
def fill (name : String) (s : Slot) : Work Unit := do
  clear name
  modify fun w => { w with slots := (name, s) :: w.slots }

/-- Puts a new expression under a name. -/
def put (name : String) (t : Term) : Work Unit := do
  fill name ⟨← newKey, t⟩

/-- What is under a name; there is no expression in an empty slot. -/
def slot (name : String) : Work Slot := do
  match (← get).slots.lookup name with
  | some s => return s
  | none => return ⟨← newKey, .missing⟩

/-- The expression under a name. -/
def term (name : String) : Work Term := do
  return (← slot name).term

/-- Builds the expression of a plan. -/
def build (name : String) (p : Plan) : Work Term := do
  let w ← get
  let labels := (p.label w.labels w.session.reading.next).1
  set { w with labels := labels }
  let t ← act (Act.make fun next => p.term labels next)
  put name t
  return t

/-- Makes a constant. -/
def constant (name : String) (c : Constant) : Work Term := do
  let t ← act (Act.constant false c)
  put name t
  return t

/-- Copies an expression. -/
def copy (source name : String) : Work Term := do
  let t ← term source
  let t' ← act (Act.make t.copy)
  put name t'
  return t'

/-- Reduces an expression in its slot, which stays empty after a failure.  A
reference that has nothing to be replaced by remains the same reference. -/
def simplify (name : String) (execute : Bool) (mode : Mode) : Work Term := do
  let s ← slot name
  clear name
  let table := (← get).session.table
  let t ← act (Act.reduceAs s.visit execute mode (.outside table) s.term)
  match s.term with
  | .ref x l =>
    if l = .free ∧ (table.find? x).isSome then put name t else fill name ⟨s.key, t⟩
  | _ => put name t
  return t

/-- Links the free references of an expression that bear the name of another one
to that.  A reference that lies on its own way leads nowhere. -/
def link (name func : String) : Work Term := do
  let s ← slot name
  let f ← slot func
  match f.target with
  | .error .missing => return s.term
  | .error k =>
    if s.term.hasFree then throw (.fault (.lacking k .argumentName)) else return s.term
  | .ok (target, x) =>
    match s.term with
    | .ref y .free =>
      if y = x then
        let new := if target.leadsTo s.key then .endless else target
        modify (·.relink s.key new)
        fill name ⟨s.key, .ref y new⟩
        return .ref y new
      else return s.term
    | t =>
      let t' := t.linkAs target x
      fill name ⟨s.key, t'⟩
      return t'

/-- Defines a name as an expression, whose slot is empty then. -/
def define (name definition : String) : Work Unit := do
  let t ← term name
  clear name
  act (Act.bind definition t)

/-- Puts an expression on the trail. -/
def push (name : String) : Work Unit := do
  let s ← slot name
  modify fun w => { w with session := { w.session with trail := s.visit :: w.session.trail } }

/-- The names of the definitions that are the same as an expression. -/
def aliases (name : String) : Work (List String) := do
  let t ← term name
  let found ← act (Act.ofFault ((← get).session.table.identicalTo t))
  return found.map (·.name)

/-- Whether two expressions are the same. -/
def identical (a b : String) : Work Bool := do
  act (Act.ofFault ((← term a).identical (← term b)))

/-- The text of an expression, with levels counted from the top of another one. -/
def text (name top : String) : Work String := do
  let t ← term name
  act (Act.ofFault (t.printIn? (← get).session.display (← term top)))

/-- Performs an action, by its name, on an expression. -/
def perform (action name : String) : Work Term := do
  match Action.ofName? action with
  | some _ => act (Act.announce (← term name))
  | none => throw (.unknown action)

/-- Whether an expression belongs to the definition of a name. -/
def belongsTo (name definition : String) : Work Bool := do
  match (← get).session.table.find? definition with
  | some d => act (Act.belongsTo (← term name) d)
  | none => throw (.unknown definition)

/-- Calls a routine of reading, and keeps the expression that it gives. -/
def call (a : Act Reply) (name : Option String) : Work Reply := do
  let r ← act a
  match r, name with
  | .term t, some x => put x t
  | _, _ => pure ()
  return r

end Work

end LambdaScript
