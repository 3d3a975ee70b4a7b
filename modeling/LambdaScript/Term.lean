/-
LambdaScript/Term.lean

Expressions of the untyped lambda calculus whose references point at the very
function that binds them.

A function is known by its *binder*, not by its argument name: two functions may
share a name, and copying a function gives the copy a binder of its own.  A
reference carries the name it was written with and a *link*, which is the binder
it belongs to, or `free` while nothing binds it (a free reference may name a
definition).  Because links are explicit, no operation on expressions ever
captures a reference by accident.

Two leaves are no expressions at all.  `missing` stands where a program gives
none, `foreign` is a value of some other kind; every operation says what it does
with them.
-/

namespace LambdaScript

/-- The identity of one function, with its recursive mark.  The mark is fixed
when the function is made, so it travels with the identity. -/
structure Binder where
  key : Nat
  recursive : Bool
  deriving DecidableEq

/-- What a reference points at. -/
inductive Link
  /-- Nothing binds the reference. -/
  | free
  /-- The reference stands for the argument of this function. -/
  | binder (b : Binder)
  /-- The reference points at another reference, which is known by a key and has a
  link of its own. -/
  | reference (key : Nat) (own : Link)
  /-- The reference points at references that lead back to themselves, so that
  asking what it stands for never comes to an end. -/
  | endless
  deriving DecidableEq

namespace Link

/-- Following the link never comes to an end. -/
def isEndless : Link → Bool
  | reference _ own => own.isEndless
  | endless => true
  | _ => false

/-- Following the link leads to the reference with this key. -/
def leadsTo (key : Nat) : Link → Bool
  | reference k own => k == key || own.leadsTo key
  | _ => false

/-- The link when the reference with this key, free so far, gets the link `new`. -/
def relink (l : Link) (key : Nat) (new : Link) : Link :=
  match l with
  | reference k own =>
    if k = key ∧ own = free then reference k new else reference k (own.relink key new)
  | l => l

end Link

/-- Expressions. -/
inductive Term
  /-- No expression. -/
  | missing
  /-- A value that is not an expression. -/
  | foreign
  /-- The function `fn` applied to `arg`. -/
  | app (fn arg : Term)
  /-- The function with binder `b`, whose argument is called `name`. -/
  | lam (b : Binder) (name : String) (body : Term)
  /-- A reference written as `name`. -/
  | ref (name : String) (link : Link)
  deriving DecidableEq

namespace Term

/-- The binders of the functions of an expression, a function before its body
and the left of an application before its right. -/
def binders : Term → List Binder
  | app fn arg => fn.binders ++ arg.binders
  | lam b _ body => b :: body.binders
  | _ => []

/-- Following some reference of the expression never comes to an end. -/
def hasKnot : Term → Bool
  | app fn arg => fn.hasKnot || arg.hasKnot
  | lam _ _ body => body.hasKnot
  | ref _ l => l.isEndless
  | _ => false

/-- Some reference of the expression is free. -/
def hasFree : Term → Bool
  | app fn arg => fn.hasFree || arg.hasFree
  | lam _ _ body => body.hasFree
  | ref _ l => l == .free
  | _ => false

/-- Gives the link `target` to the free references called `name`. -/
def linkAs (target : Link) (name : String) : Term → Term
  | app fn arg => app (fn.linkAs target name) (arg.linkAs target name)
  | lam c x body => lam c x (body.linkAs target name)
  | ref x .free => if x = name then ref x target else ref x .free
  | t => t

/-- Ties the free references called `name` to the binder `b`. -/
def link (b : Binder) (name : String) (t : Term) : Term :=
  t.linkAs (.binder b) name

/-- The expression when the reference with this key, free so far, gets the link
`new`. -/
def relink (key : Nat) (new : Link) : Term → Term
  | app fn arg => app (fn.relink key new) (arg.relink key new)
  | lam b x body => lam b x (body.relink key new)
  | ref x l => ref x (l.relink key new)
  | t => t

/-- The functions of `args`, outermost first, around `body`; every free
reference goes to the innermost function that bears its name. -/
def lams (args : List (Binder × String)) (body : Term) : Term :=
  args.foldr (fun a t => lam a.1 a.2 (t.link a.1 a.2)) body

@[simp] theorem link_app (b : Binder) (name : String) (fn arg : Term) :
    (app fn arg).link b name = app (fn.link b name) (arg.link b name) := rfl

@[simp] theorem link_lam (b c : Binder) (name x : String) (body : Term) :
    (lam c x body).link b name = lam c x (body.link b name) := rfl

@[simp] theorem lams_cons (a : Binder × String) (args : List (Binder × String)) (body : Term) :
    lams (a :: args) body = lam a.1 a.2 ((lams args body).link a.1 a.2) := rfl

/-- Linking changes no function. -/
theorem binders_link (b : Binder) (name : String) (t : Term) :
    (t.link b name).binders = t.binders := by
  induction t with
  | missing => rfl
  | foreign => rfl
  | app fn arg ihf iha => simp [binders, ihf, iha]
  | lam c x body ih => simp [binders, ih]
  | ref x l =>
    cases l with
    | free => by_cases h : x = name <;> simp [link, linkAs, h, binders]
    | binder c => rfl
    | reference k own => rfl
    | endless => rfl

end Term

end LambdaScript
