/-
LambdaScript/Proofs/Confluence.lean

Applying functions and replacing names by what they stand for, in any order and
anywhere in an expression, leads to at most one result.

The rules `BetaDelta U` apply a function to its argument, whatever its recursive
mark, and replace a free reference by the expression that `U` gives for its name.
These are the rules of pure reduction; nothing is printed.  The argument is the
one by parallel steps: `Par U` contracts any number of places of an expression at
once, `dev U` contracts all of them, and every parallel step of an expression can
be completed to the latter (`Par.triangle`).

What names stand for must be closed.  Otherwise a reference could be captured
when a name is replaced inside a function, and the result would depend on the
order.

Main result: `eq_of_conv`, two convertible expressions to which no rule applies
are equal.
-/
import LambdaScript.Proofs.Rewriting

namespace LambdaScript

namespace Nameless

variable {ν : Type}

/-- What names stand for. -/
abbrev Unfolding (ν : Type) := String → Option (Nameless ν)

/-- The rules of pure reduction. -/
inductive BetaDelta (U : Unfolding ν) : Rules ν
  | beta (r : Bool) (x : ν) (body a : Nameless ν) :
      BetaDelta U (app (lam r x body) a) none (body.instantiate a)
  | delta {x : String} {t : Nameless ν} : U x = some t → BetaDelta U (free x) none t

/-! ### Parallel steps -/

/-- Contracts any number of places at once. -/
inductive Par (U : Unfolding ν) : Nameless ν → Nameless ν → Prop
  | bound (i : Nat) (x : ν) : Par U (bound i x) (bound i x)
  | free (x : String) : Par U (free x) (free x)
  | delta {x : String} {t : Nameless ν} : U x = some t → Par U (free x) t
  | app {f f' a a'} : Par U f f' → Par U a a' → Par U (app f a) (app f' a')
  | lam (r : Bool) (x : ν) {t t'} : Par U t t' → Par U (lam r x t) (lam r x t')
  | beta (r : Bool) (x : ν) {t t' a a'} :
      Par U t t' → Par U a a' → Par U (app (lam r x t) a) (t'.instantiate a')

variable {U : Unfolding ν}

namespace Par

theorem refl (t : Nameless ν) : Par U t t := by
  induction t with
  | bound i x => exact .bound i x
  | free x => exact .free x
  | app f a ihf iha => exact .app ihf iha
  | lam r x t ih => exact .lam r x ih

/-- A step is a parallel step. -/
theorem of_step {t u : Nameless ν} {l : Option String} (h : Step (BetaDelta U) t l u) :
    Par U t u := by
  induction h with
  | root hr =>
    cases hr with
    | beta r x body a => exact .beta r x (refl body) (refl a)
    | delta hx => exact .delta hx
  | fn a _ ih => exact .app ih (refl a)
  | arg f _ ih => exact .app (refl f) ih
  | body r x _ ih => exact .lam r x ih

/-- A parallel step can be taken place by place, and prints nothing. -/
theorem steps {t u : Nameless ν} (h : Par U t u) : Steps (BetaDelta U) t [] u := by
  induction h with
  | bound i x => exact .refl _
  | free x => exact .refl _
  | delta hx => exact .single (.root (BetaDelta.delta hx))
  | app _ _ ihf iha => exact ihf.app iha
  | lam r x _ ih => exact ih.lam r x
  | @beta r x t t' a a' _ _ iht iha =>
    -- the function and its argument first, then the application itself
    exact ((iht.lam r x).app iha).trans (.single (.root (BetaDelta.beta r x t' a')))

section Closed

variable (hU : ∀ {x t}, U x = some t → t.Closed)

include hU

theorem rename {t u : Nameless ν} (h : Par U t u) (f : Nat → Nat) :
    Par U (t.rename f) (u.rename f) := by
  induction h generalizing f with
  | bound i x => exact .bound (f i) x
  | free x => exact .free x
  | delta hx =>
    -- here the names have to stand for closed expressions
    rw [rename_of_closed (hU hx)]
    exact .delta hx
  | app _ _ ihf iha => exact .app (ihf f) (iha f)
  | lam r x _ ih => exact .lam r x (ih (under f))
  | beta r x _ _ iht iha =>
    rw [rename_instantiate]
    exact .beta r x (iht (under f)) (iha f)

theorem under {σ τ : Filling ν} (h : ∀ i x, Par U (σ i x) (τ i x)) (i : Nat) (x : ν) :
    Par U (σ.under i x) (τ.under i x) := by
  cases i with
  | zero => exact .bound 0 x
  | succ i => exact rename hU (h i x) Nat.succ

/-- Parallel steps in an expression and in everything that is filled in. -/
theorem fill {t u : Nameless ν} (h : Par U t u) {σ τ : Filling ν}
    (hσ : ∀ i x, Par U (σ i x) (τ i x)) : Par U (t.fill σ) (u.fill τ) := by
  induction h generalizing σ τ with
  | bound i x => exact hσ i x
  | free x => exact .free x
  | delta hx =>
    rw [fill_of_closed (hU hx)]
    exact .delta hx
  | app _ _ ihf iha => exact .app (ihf hσ) (iha hσ)
  | lam r x _ ih => exact .lam r x (ih (under hU hσ))
  | beta r x _ _ iht iha =>
    rw [fill_instantiate]
    exact .beta r x (iht (under hU hσ)) (iha hσ)

theorem instantiate {t t' a a' : Nameless ν} (ht : Par U t t') (ha : Par U a a') :
    Par U (t.instantiate a) (t'.instantiate a') := by
  apply fill hU ht
  intro i x
  cases i with
  | zero => exact ha
  | succ i => exact .bound i x

end Closed

theorem of_lam {r : Bool} {x : ν} {t u : Nameless ν} (h : Par U (Nameless.lam r x t) u) :
    ∃ t', u = Nameless.lam r x t' ∧ Par U t t' := by
  cases h with
  | lam _ _ ht => exact ⟨_, rfl, ht⟩

end Par

/-! ### The complete development -/

/-- Contracts every place at once. -/
def dev (U : Unfolding ν) : Nameless ν → Nameless ν
  | bound i x => bound i x
  | free x => (U x).getD (free x)
  | app (lam _ _ t) a => (t.dev U).instantiate (a.dev U)
  | app f a => app (f.dev U) (a.dev U)
  | lam r x t => lam r x (t.dev U)

/-- A parallel step of an application may turn into the development, because a
function stays a function. -/
theorem Par.app_dev {f f' a a' : Nameless ν} (hf : Par U f f') (ihf : Par U f' (f.dev U))
    (iha : Par U a' (a.dev U)) : Par U (Nameless.app f' a') ((Nameless.app f a).dev U) := by
  cases f with
  | bound i x => exact .app ihf iha
  | free x => exact .app ihf iha
  | app g b => exact .app ihf iha
  | lam r x t =>
    -- what the function has become still is a function, so it can be applied now
    obtain ⟨t', rfl, _⟩ := hf.of_lam
    obtain ⟨t'', heq, ht⟩ := ihf.of_lam
    obtain ⟨-, -, rfl⟩ := Nameless.lam.inj heq
    exact .beta r x ht iha

/-- Every parallel step can be completed to the development. -/
theorem Par.triangle (hU : ∀ {x t}, U x = some t → t.Closed) {t u : Nameless ν}
    (h : Par U t u) : Par U u (t.dev U) := by
  induction h with
  | bound i x => exact .bound i x
  | free x =>
    -- a name that was left alone may stand for something all the same
    rcases hx : U x with - | t
    · rw [dev, hx]
      exact .free x
    · rw [dev, hx]
      exact .delta hx
  | @delta x t hx =>
    rw [dev, hx]
    exact .refl t
  | app hf _ ihf iha => exact hf.app_dev ihf iha
  | lam r x _ ih => exact .lam r x ih
  | beta r x _ _ iht iha => exact iht.instantiate hU iha

/-! ### Uniqueness of results -/

/-- What is convertible has parallel steps to one and the same expression. -/
theorem join_of_conv (hU : ∀ {x t}, U x = some t → t.Closed) {t u : Nameless ν}
    (h : Conv (BetaDelta U) t u) : Relation.Join (Relation.ReflTransGen (Par U)) t u := by
  -- two parallel steps of `a` both complete to its development
  have hdiamond : ∀ a b c, Par U a b → Par U a c →
      ∃ d, Relation.ReflGen (Par U) b d ∧ Relation.ReflTransGen (Par U) c d :=
    fun a b c hb hc => ⟨a.dev U, .single (hb.triangle hU), .single (hc.triangle hU)⟩
  have hequiv := Relation.equivalence_join_reflTransGen hdiamond
  induction h with
  | rel t u hs =>
    obtain ⟨l, hs⟩ := hs
    exact ⟨u, .single (.of_step hs), .refl⟩
  | refl t => exact hequiv.refl t
  | symm t u _ ih => exact hequiv.symm ih
  | trans t u v _ _ ih ih' => exact hequiv.trans ih ih'

theorem eq_of_par_of_irreducible {t u : Nameless ν} (ht : ∀ l v, ¬ Step (BetaDelta U) t l v)
    (h : Relation.ReflTransGen (Par U) t u) : u = t := by
  induction h with
  | refl => rfl
  | tail _ hp ih =>
    subst ih
    exact hp.steps.eq_of_irreducible ht

/-- **Results are unique**: two convertible expressions to which no rule applies
are equal. -/
theorem eq_of_conv (hU : ∀ {x t}, U x = some t → t.Closed) {t u : Nameless ν}
    (h : Conv (BetaDelta U) t u) (ht : ∀ l v, ¬ Step (BetaDelta U) t l v)
    (hu : ∀ l v, ¬ Step (BetaDelta U) u l v) : t = u := by
  obtain ⟨w, htw, huw⟩ := join_of_conv hU h
  rw [← eq_of_par_of_irreducible ht htw, ← eq_of_par_of_irreducible hu huw]

end Nameless

end LambdaScript
