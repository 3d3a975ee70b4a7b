/-
LambdaScript/Objects/Store.lean

Expressions as objects that are written in place.

In a `Term` only functions have an identity.  In a store every application and every
reference has one as well: it is an object, known by a key, and its fields hold
pointers to other objects.  Two expressions may then have an object in common, and
writing to a field changes every expression that the object is part of.  A reference
that is linked points at its function, whose identity is the binder.

`Store.readWithin` follows the pointers and gives the term that they make up.
-/
import LambdaScript.Term

namespace LambdaScript

/-- What a field holds: nothing, a value that is no expression, or an object. -/
inductive Pointer
  | missing
  | foreign
  | function (b : Binder)
  | node (key : Nat)
  deriving DecidableEq

/-- The fields of an application or of a reference. -/
inductive Node
  | app (fn arg : Pointer)
  | ref (name : String) (link : Link)
  deriving DecidableEq

/-- The fields of a function, whose mark is part of its identity. -/
structure FunctionNode where
  name : String
  body : Pointer
  deriving DecidableEq

/-- All objects.  The applications and references made so far have keys below `next`. -/
structure Store where
  function : Binder → FunctionNode
  node : Nat → Node
  next : Nat

namespace Node

/-- The node with another left side. -/
def withFn (p : Pointer) : Node → Node
  | app _ arg => app p arg
  | n => n

/-- The node with another right side. -/
def withArg (p : Pointer) : Node → Node
  | app fn _ => app fn p
  | n => n

/-- The right side of an application. -/
def arg : Node → Pointer
  | app _ arg => arg
  | ref _ _ => .missing

end Node

namespace Store

/-- No objects. -/
def empty : Store := ⟨fun _ => ⟨"", .missing⟩, fun _ => .ref "" .free, 0⟩

/-- The fields of a function are written. -/
def setFunction (s : Store) (b : Binder) (f : FunctionNode) : Store :=
  { s with function := fun c => if c = b then f else s.function c }

/-- The fields of an application or of a reference are written. -/
def setNode (s : Store) (k : Nat) (n : Node) : Store :=
  { s with node := fun j => if j = k then n else s.node j }

/-- The left side of an application is written. -/
def setFn (s : Store) (k : Nat) (p : Pointer) : Store :=
  s.setNode k ((s.node k).withFn p)

/-- The right side of an application is written. -/
def setArg (s : Store) (k : Nat) (p : Pointer) : Store :=
  s.setNode k ((s.node k).withArg p)

/-- The body of a function is written. -/
def setBody (s : Store) (b : Binder) (p : Pointer) : Store :=
  s.setFunction b { s.function b with body := p }

/-- The next key belongs to a new application or reference. -/
def add (s : Store) (n : Node) : Store :=
  { s.setNode s.next n with next := s.next + 1 }

/-- The term behind a pointer, `height` objects deep at most. -/
def readWithin (s : Store) : Nat → Pointer → Term
  | 0, _ => .missing
  | _ + 1, .missing => .missing
  | _ + 1, .foreign => .foreign
  | height + 1, .function b =>
    .lam b (s.function b).name (s.readWithin height (s.function b).body)
  | height + 1, .node k =>
    match s.node k with
    | .app p q => .app (s.readWithin height p) (s.readWithin height q)
    | .ref x l => .ref x l

variable (s : Store) {b c : Binder} {j k : Nat} (f : FunctionNode) (n : Node)

@[simp] theorem function_setFunction_self : (s.setFunction b f).function b = f := if_pos rfl

@[simp] theorem function_setFunction_of_ne (h : c ≠ b) :
    (s.setFunction b f).function c = s.function c := if_neg h

@[simp] theorem node_setNode_self : (s.setNode k n).node k = n := if_pos rfl

@[simp] theorem node_setNode_of_ne (h : j ≠ k) : (s.setNode k n).node j = s.node j := if_neg h

@[simp] theorem node_add_self : (s.add n).node s.next = n := if_pos rfl

@[simp] theorem node_add_of_ne (h : j ≠ s.next) : (s.add n).node j = s.node j := if_neg h

end Store

end LambdaScript
