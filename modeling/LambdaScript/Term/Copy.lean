/-
LambdaScript/Term/Copy.lean

Copies and substitution.

Both make functions, and every function they make takes the next key of a supply,
a number above all keys in use; so both return the expression together with the
rest of the supply.  A copy has binders of its own and its references are turned
to them; a reference that leads out of the copied expression keeps its link.
Substitution puts a fresh copy of the argument in the place of each reference.
-/
import LambdaScript.Term

namespace LambdaScript

/-- The binders that are being copied, each with its copy, innermost first. -/
abbrev Renaming := List (Binder × Binder)

namespace Link

/-- The link of a copied reference. -/
def rename (copies : Renaming) : Link → Link
  | binder b => binder ((copies.lookup b).getD b)
  | l => l

end Link

namespace Term

/-- A copy of an expression that stands below the binders of `copies`. -/
def copyUnder (copies : Renaming) : Term → Nat → Term × Nat
  | app fn arg, next =>
    let f := fn.copyUnder copies next
    let a := arg.copyUnder copies f.2
    (app f.1 a.1, a.2)
  | lam b name body, next =>
    let b' : Binder := ⟨next, b.recursive⟩
    let t := body.copyUnder ((b, b') :: copies) (next + 1)
    (lam b' name t.1, t.2)
  | ref name l, next => (ref name (l.rename copies), next)
  | t, next => (t, next)

/-- A copy with fresh binders. -/
def copy (t : Term) (next : Nat) : Term × Nat :=
  t.copyUnder [] next

/-- The expression with a copy of `arg` in the place of every reference to `b`. -/
def subst (t : Term) (b : Binder) (arg : Term) (next : Nat) : Term × Nat :=
  match t with
  | app f a =>
    let f' := f.subst b arg next
    let a' := a.subst b arg f'.2
    (app f'.1 a'.1, a'.2)
  | lam c name body =>
    let t' := body.subst b arg next
    (lam c name t'.1, t'.2)
  | ref name l => if l = .binder b then arg.copy next else (ref name l, next)
  | t => (t, next)

/-- A copy takes as many keys as it has functions. -/
theorem copyUnder_snd (copies : Renaming) (t : Term) (next : Nat) :
    (t.copyUnder copies next).2 = next + t.binders.length := by
  induction t generalizing copies next with
  | missing => rfl
  | foreign => rfl
  | app fn arg ihf iha => simp [copyUnder, binders, ihf, iha]; omega
  | lam b name body ih => simp [copyUnder, binders, ih]; omega
  | ref name l => rfl

theorem copy_snd (t : Term) (next : Nat) : (t.copy next).2 = next + t.binders.length :=
  copyUnder_snd [] t next

end Term

end LambdaScript
