/-
LambdaScript/Proofs/Rewriting.lean

Rewriting of nameless expressions by arbitrary rules.

A rule replaces one expression by another and may print a line while doing so.
`Step R` applies a rule of `R` anywhere in an expression, also inside functions;
`Steps R` is a finite sequence of such steps together with all the lines they
print, in order; `Conv R` says that two expressions can be turned into each other
by steps taken in either direction.

Nothing is assumed about `R`.  What the rules of the language are is said where
they are used, and results about one set of rules carry over to another by
`Steps.mono` and `Conv.le`.
-/
import LambdaScript.Proofs.Nameless
import Mathlib.Logic.Relation

namespace LambdaScript

namespace Nameless

variable {ν : Type}

/-- Rules: what may be replaced by what, and the line this prints, if any. -/
abbrev Rules (ν : Type) := Nameless ν → Option String → Nameless ν → Prop

/-- A rule is applied somewhere in an expression. -/
inductive Step (R : Rules ν) : Nameless ν → Option String → Nameless ν → Prop
  | root {t l u} : R t l u → Step R t l u
  | fn {f l f'} (a : Nameless ν) : Step R f l f' → Step R (app f a) l (app f' a)
  | arg (f : Nameless ν) {a l a'} : Step R a l a' → Step R (app f a) l (app f a')
  | body (r : Bool) (x : ν) {t l t'} : Step R t l t' → Step R (lam r x t) l (lam r x t')

/-- Finitely many steps, with the lines they print. -/
inductive Steps (R : Rules ν) : Nameless ν → List String → Nameless ν → Prop
  | refl (t : Nameless ν) : Steps R t [] t
  | head {t l u ls v} : Step R t l u → Steps R u ls v → Steps R t (l.toList ++ ls) v

/-- Two expressions that steps in either direction turn into each other. -/
def Conv (R : Rules ν) : Nameless ν → Nameless ν → Prop :=
  Relation.EqvGen fun t u => ∃ l, Step R t l u

variable {R R' : Rules ν}

/-! ### Sequences of steps -/

namespace Steps

theorem single {t u : Nameless ν} {l : Option String} (h : Step R t l u) :
    Steps R t l.toList u := by
  simpa using Steps.head h (.refl u)

theorem trans {t u v : Nameless ν} {ls ks : List String} (h : Steps R t ls u)
    (h' : Steps R u ks v) : Steps R t (ls ++ ks) v := by
  induction h with
  | refl t => exact h'
  | head hs _ ih =>
    rw [List.append_assoc]
    exact .head hs (ih h')

/-- Steps inside a part are steps of the whole. -/
theorem map {g : Nameless ν → Nameless ν} (hg : ∀ {t l u}, Step R t l u → Step R (g t) l (g u))
    {t u : Nameless ν} {ls : List String} (h : Steps R t ls u) : Steps R (g t) ls (g u) := by
  induction h with
  | refl t => exact .refl (g t)
  | head hs _ ih => exact .head (hg hs) ih

theorem app {f f' a a' : Nameless ν} {ls ks : List String} (hf : Steps R f ls f')
    (ha : Steps R a ks a') : Steps R (app f a) (ls ++ ks) (app f' a') :=
  (hf.map (.fn a)).trans (ha.map (.arg f'))

theorem lam (r : Bool) (x : ν) {t t' : Nameless ν} {ls : List String} (h : Steps R t ls t') :
    Steps R (lam r x t) ls (lam r x t') :=
  h.map (.body r x)

/-- An expression that no rule applies to stays as it is. -/
theorem eq_of_irreducible {t u : Nameless ν} {ls : List String} (h : Steps R t ls u)
    (ht : ∀ l v, ¬ Step R t l v) : u = t := by
  cases h with
  | refl => rfl
  | head hs _ => exact absurd hs (ht _ _)

end Steps

/-! ### Conversion -/

namespace Conv

theorem refl (t : Nameless ν) : Conv R t t :=
  Relation.EqvGen.refl t

theorem symm {t u : Nameless ν} (h : Conv R t u) : Conv R u t :=
  Relation.EqvGen.symm _ _ h

theorem trans {t u v : Nameless ν} (h : Conv R t u) (h' : Conv R u v) : Conv R t v :=
  Relation.EqvGen.trans _ _ _ h h'

theorem of_step {t u : Nameless ν} {l : Option String} (h : Step R t l u) : Conv R t u :=
  Relation.EqvGen.rel _ _ ⟨l, h⟩

theorem of_steps {t u : Nameless ν} {ls : List String} (h : Steps R t ls u) : Conv R t u := by
  induction h with
  | refl t => exact .refl t
  | head hs _ ih => exact (of_step hs).trans ih

/-- Conversion of a part is conversion of the whole. -/
theorem map {g : Nameless ν → Nameless ν} (hg : ∀ {t l u}, Step R t l u → Step R (g t) l (g u))
    {t u : Nameless ν} (h : Conv R t u) : Conv R (g t) (g u) := by
  induction h with
  | rel t u hs =>
    obtain ⟨l, hs⟩ := hs
    exact of_step (hg hs)
  | refl t => exact .refl (g t)
  | symm t u _ ih => exact ih.symm
  | trans t u v _ _ ih ih' => exact ih.trans ih'

theorem app {f f' a a' : Nameless ν} (hf : Conv R f f') (ha : Conv R a a') :
    Conv R (app f a) (app f' a') :=
  (hf.map (.fn a)).trans (ha.map (.arg f'))

theorem lam (r : Bool) (x : ν) {t t' : Nameless ν} (h : Conv R t t') :
    Conv R (lam r x t) (lam r x t') :=
  h.map (.body r x)

/-- A step by rules that only convert is a conversion. -/
theorem of_step_of_le (h : ∀ {t l u}, R t l u → Conv R' t u) {t u : Nameless ν}
    {l : Option String} (ht : Step R t l u) : Conv R' t u := by
  induction ht with
  | root hr => exact h hr
  | fn a _ ih => exact ih.app (.refl a)
  | arg f _ ih => exact (Conv.refl f).app ih
  | body r x _ ih => exact ih.lam r x

/-- Rules that only convert lead to nothing that is not convertible. -/
theorem le (h : ∀ {t l u}, R t l u → Conv R' t u) {t u : Nameless ν} (ht : Conv R t u) :
    Conv R' t u := by
  induction ht with
  | rel t u hs =>
    obtain ⟨l, hs⟩ := hs
    exact of_step_of_le h hs
  | refl t => exact .refl t
  | symm t u _ ih => exact ih.symm
  | trans t u v _ _ ih ih' => exact ih.trans ih'

end Conv

end Nameless

end LambdaScript
