/-
LambdaScript/Objects/Memory.lean

A session whose expressions are objects, and the operations that make and write them.

A definition is a name with a pointer to its body, and the trail holds pointers too.
An operation that fails leaves everything as it has been written so far.

Copying makes new objects only.  Substitution and linking write into the expression
they are given: substitution puts the pointer to a copy in the place of each reference,
linking sets the link of references that are free.  Both go through an expression from
its root; `Memory.bound` is more than the number of objects on any way through one.
-/
import LambdaScript.Objects.Store
import LambdaScript.Session

namespace LambdaScript

/-- A definition as it is kept: a name and the pointer to its body. -/
structure Root where
  name : String
  body : Pointer
  deriving DecidableEq

namespace Root

/-- Binds a name in a list of definitions. -/
def bindIn (name : String) (p : Pointer) : List Root → List Root
  | [] => [⟨name, p⟩]
  | r :: rest => if r.name = name then ⟨name, p⟩ :: rest else r :: bindIn name p rest

end Root

/-- The entry of the trail that a pointer stands for. -/
def Pointer.visit : Pointer → Visit
  | missing => .missing
  | function b => .function b
  | _ => .other

/-- A session whose expressions are objects of a store. -/
structure Memory extends Surroundings where
  store : Store
  /-- The definitions, in the order of their names' first binding. -/
  roots : List Root
  /-- What is under reduction, the innermost first. -/
  trail : List Pointer

namespace Memory

/-- The session without its expressions. -/
def bare (m : Memory) : Session := ⟨m.toSurroundings, .empty, []⟩

/-- A memory at its beginning. -/
def starting (limits : Limits) : Memory :=
  ⟨(Session.starting limits).toSurroundings, .empty, [], []⟩

/-- The memory with a file written anew. -/
def withFile (m : Memory) (path text : String) : Memory :=
  { m with toSurroundings := (m.bare.withFile path text).toSurroundings }

/-- More than the height of any expression.  Each key below the supply belongs to one
function with a mark and to one without at the most. -/
def bound (m : Memory) : Nat := 2 * m.reading.next + m.store.next + 1

/-- The term behind a pointer. -/
def read (m : Memory) (p : Pointer) : Term := m.store.readWithin m.bound p

/-- The definitions with the terms behind their pointers. -/
def definitions (m : Memory) : Table :=
  ⟨m.roots.map fun r => ⟨r.name, m.read r.body⟩⟩

/-- The body of a name's definition. -/
def lookUp (m : Memory) (name : String) : Option Pointer :=
  (m.roots.find? (·.name = name)).map (·.body)

end Memory

/-- Doing something in a memory. -/
abbrev Op := EStateM SessionError Memory

namespace Op

/-- Does something that concerns no expression. -/
def aside {α : Type} (act : Act α) : Op α := fun m =>
  match act m.bare with
  | .ok a s => .ok a { m with toSurroundings := s.toSurroundings }
  | .error err s => .error err { m with toSurroundings := s.toSurroundings }

/-- Reads from the program text. -/
def parse {α : Type} (p : Parse α) : Op α := aside (Act.parse p)

/-- Asks something about the term behind a pointer. -/
def ask {α : Type} (question : Term → Except Fault α) (p : Pointer) : Op α := do
  let m ← get
  aside (Act.ofFault (question (m.read p)))

/-! ### Fields -/

/-- Writes into the store. -/
def write (f : Store → Store) : Op Unit :=
  modify fun m => { m with store := f m.store }

/-- The fields of an application or of a reference. -/
def node (k : Nat) : Op Node := do
  return (← get).store.node k

/-- The fields of a function. -/
def function (b : Binder) : Op FunctionNode := do
  return (← get).store.function b

/-- Writes the fields of an application or of a reference. -/
def setNode (k : Nat) (n : Node) : Op Unit := write (·.setNode k n)

/-- Writes the fields of a function. -/
def setFunction (b : Binder) (f : FunctionNode) : Op Unit := write (·.setFunction b f)

/-- Writes the left side of an application. -/
def setFn (k : Nat) (p : Pointer) : Op Unit := write (·.setFn k p)

/-- Writes the right side of an application. -/
def setArg (k : Nat) (p : Pointer) : Op Unit := write (·.setArg k p)

/-- Writes the body of a function. -/
def setBody (b : Binder) (p : Pointer) : Op Unit := write (·.setBody b p)

/-- Makes an application or a reference. -/
def makeNode (n : Node) : Op Pointer :=
  modifyGet fun m => (.node m.store.next, { m with store := m.store.add n })

/-- Makes a function without a body. -/
def makeFunction (recursive : Bool) (name : String) : Op Binder := do
  let b ← parse (Parse.newBinder recursive)
  setFunction b ⟨name, .missing⟩
  return b

/-- Makes the function `[x. x]`. -/
def makeIdentity : Op Pointer := do
  let b ← makeFunction false "x"
  setBody b (← makeNode (.ref "x" (.binder b)))
  return .function b

/-- Binds a name. -/
def bind (name : String) (p : Pointer) : Op Unit :=
  modify fun m => { m with roots := Root.bindIn name p m.roots }

/-! ### Whole expressions -/

/-- Copies an expression that stands below the functions of `copies`. -/
def copyUnder : Renaming → Nat → Pointer → Op Pointer
  | _, 0, _ => throw (.fault .tooDeep)
  | copies, height + 1, .function b => do
    let f ← function b
    let b' ← makeFunction b.recursive f.name
    setBody b' (← copyUnder ((b, b') :: copies) height f.body)
    return .function b'
  | copies, height + 1, .node k => do
    match ← node k with
    | .app p q =>
      let p' ← copyUnder copies height p
      let q' ← copyUnder copies height q
      makeNode (.app p' q')
    | .ref x l => makeNode (.ref x (l.rename copies))
  | _, _ + 1, p => return p

/-- Copies an expression. -/
def copy (p : Pointer) : Op Pointer := do
  copyUnder [] (← get).bound p

/-- Puts copies of what is behind `arg` in the place of the references to `b`. -/
def substituteWithin (b : Binder) (arg : Pointer) : Nat → Pointer → Op Pointer
  | 0, _ => throw (.fault .tooDeep)
  | height + 1, .function c => do
    setBody c (← substituteWithin b arg height (← function c).body)
    return .function c
  | height + 1, .node k => do
    match ← node k with
    | .app p _ =>
      setFn k (← substituteWithin b arg height p)
      setArg k (← substituteWithin b arg height (← node k).arg)
      return .node k
    | .ref _ l => if l = .binder b then copy arg else return .node k
  | _ + 1, p => return p

/-- Puts copies of what is behind `arg` in the place of the references to `b`. -/
def substitute (b : Binder) (arg p : Pointer) : Op Pointer := do
  substituteWithin b arg (← get).bound p

/-- Ties the free references called `name` to the function `b`. -/
def linkWithin (b : Binder) (name : String) : Nat → Pointer → Op Unit
  | 0, _ => throw (.fault .tooDeep)
  | height + 1, .function c => do
    linkWithin b name height (← function c).body
  | height + 1, .node k => do
    match ← node k with
    | .app p q =>
      linkWithin b name height p
      linkWithin b name height q
    | .ref x .free => if x = name then setNode k (.ref x (.binder b))
    | .ref _ _ => return ()
  | _ + 1, _ => return ()

/-- Ties the free references in the body of a function that bear its name to it. -/
def link (b : Binder) : Op Unit := do
  let f ← function b
  linkWithin b f.name (← get).bound f.body

end Op

end LambdaScript
