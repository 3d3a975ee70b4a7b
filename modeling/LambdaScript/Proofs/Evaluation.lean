/-
LambdaScript/Proofs/Evaluation.lean

Reductions that are known to end.

`Runs` tells what a reduction has done that ended; here it is the other way round.
`Evaluates d t v` says of an expression without binders, free references and
recursive marks that reducing it from the inside ends with `v`, with at most `d`
reductions inside one another.  There is one rule for each way through, and what
it says of `t` it says of every way to fill in references for the references of `t`
(`Evaluates.fill`).

Main result: `Evaluates.reduce_eq_ok`.  An expression that reads as `t` is reduced
to one that reads as `v`, with depth `d`, wherever it lies and whatever the
definitions are; nothing is printed, and new functions have keys from the supply.
-/
import LambdaScript.Proofs.Normality

namespace LambdaScript

namespace Nameless

variable {ν : Type}

/-! ### Evaluation -/

/-- A function. -/
def IsFunction : Nameless ν → Prop
  | lam _ _ _ => True
  | _ => False

/-- Reducing from the inside ends with the last expression, at most `d` reductions deep. -/
inductive Evaluates : Nat → Nameless ν → Nameless ν → Prop
  | bound {d : Nat} (i : Nat) (x : ν) : Evaluates (d + 1) (bound i x) (bound i x)
  | lam {d : Nat} {t v : Nameless ν} (x : ν) : Evaluates d t v →
      Evaluates (d + 1) (lam false x t) (lam false x v)
  | app {d : Nat} {f g a b : Nameless ν} : Evaluates d f g → Evaluates d a b → ¬ g.IsFunction →
      Evaluates (d + 1) (app f a) (app g b)
  | beta {d : Nat} {f a b t v : Nameless ν} {x : ν} : Evaluates d f (Nameless.lam false x t) →
      Evaluates d a b → Evaluates d (t.instantiate b) v → Evaluates (d + 1) (app f a) v

namespace Evaluates

variable {d d' : Nat} {t v : Nameless ν}

theorem add (h : Evaluates d t v) (k : Nat) : Evaluates (d + k) t v := by
  induction h with
  | bound i x =>
    rw [Nat.succ_add]
    exact .bound i x
  | lam x _ ih =>
    rw [Nat.succ_add]
    exact .lam x ih
  | app _ _ hg ihf iha =>
    rw [Nat.succ_add]
    exact .app ihf iha hg
  | beta _ _ _ ihf iha ih =>
    rw [Nat.succ_add]
    exact .beta ihf iha ih

theorem mono (h : Evaluates d t v) (hd : d ≤ d') : Evaluates d' t v := by
  obtain ⟨k, rfl⟩ := Nat.exists_eq_add_of_le hd
  exact h.add k

end Evaluates

/-- Every reference is filled in with a reference. -/
def Filling.Relabels (σ : Filling ν) : Prop :=
  ∀ i x, ∃ j y, σ i x = bound j y

theorem Filling.Relabels.under {σ : Filling ν} (h : σ.Relabels) : σ.under.Relabels := by
  rintro (- | i) x
  · exact ⟨0, x, rfl⟩
  · obtain ⟨j, y, hj⟩ := h i x
    refine ⟨j + 1, y, ?_⟩
    show (σ i x).rename Nat.succ = _
    rw [hj]
    rfl

theorem Filling.Relabels.isFunction_fill {σ : Filling ν} (h : σ.Relabels) (t : Nameless ν) :
    (t.fill σ).IsFunction ↔ t.IsFunction := by
  cases t with
  | bound i x =>
    obtain ⟨j, y, hj⟩ := h i x
    rw [Nameless.fill, hj]
    exact Iff.rfl
  | _ => exact Iff.rfl

/-- Other references in the place of references make no difference to reduction. -/
theorem Evaluates.fill {d : Nat} {t v : Nameless ν} (h : Evaluates d t v) {σ : Filling ν}
    (hσ : σ.Relabels) : Evaluates d (t.fill σ) (v.fill σ) := by
  induction h generalizing σ with
  | bound i x =>
    obtain ⟨j, y, hj⟩ := hσ i x
    rw [Nameless.fill, hj]
    exact .bound j y
  | lam x _ ih => exact .lam x (ih hσ.under)
  | app _ _ hg ihf iha => exact .app (ihf hσ) (iha hσ) (mt (hσ.isFunction_fill _).mp hg)
  | beta _ _ _ ihf iha ih =>
    have hresult := ih hσ
    rw [fill_instantiate] at hresult
    exact .beta (ihf hσ) (iha hσ) hresult

end Nameless

namespace Term

/-! ### Expressions that are fit for reduction -/

variable {Γ : List Binder} {t : Term}

/-- What is needed to reduce an expression below the functions `Γ`: it is scoped, none of its
functions is recursive, occurs twice or is one of `Γ`, and all keys are below the supply. -/
structure Fit (Γ : List Binder) (next : Nat) (t : Term) : Prop where
  links : t.Scoped Γ
  plain : t.Plain false
  tidy : t.Tidy next
  apart : Apart Γ next t

namespace Fit

variable {next next' : Nat} {f a r : Term} {b : Binder} {x : String}

theorem fn (h : (app f a).Fit Γ next) : f.Fit Γ next :=
  ⟨h.links.1, h.plain.1, h.tidy.fn, h.apart.fn⟩

theorem arg (h : (app f a).Fit Γ next) : a.Fit Γ next :=
  ⟨h.links.2, h.plain.2, h.tidy.arg, h.apart.arg⟩

theorem body (h : (lam b x t).Fit Γ next) : t.Fit (b :: Γ) next :=
  ⟨h.links, h.plain.2, h.tidy.body, h.apart.body h.tidy⟩

theorem mono (h : t.Fit Γ next) (hle : next ≤ next') : t.Fit Γ next' :=
  ⟨h.links, h.plain, h.tidy.mono hle,
    fun b hb => ⟨Nat.lt_of_lt_of_le (h.apart b hb).1 hle, (h.apart b hb).2⟩⟩

end Fit

/-- The expression `r` has come out of `t`, while the supply went from `next` to `next'`, and
reads as `v`. -/
structure Becomes (Γ : List Binder) (next : Nat) (t : Term) (next' : Nat) (r : Term)
    (v : Nameless String) : Prop where
  links : r.Scoped Γ
  plain : r.Plain false
  grown : Grown next t next' r
  reads : r.nameless Γ = v

namespace Becomes

variable {next next' next'' : Nat} {f f' a a' r : Term} {b : Binder} {x : String}
  {v w : Nameless String}

theorem fit (h : Becomes Γ next t next' r v) (ht : t.Fit Γ next) : r.Fit Γ next' :=
  ⟨h.links, h.plain, h.grown.tidy ht.tidy, h.grown.apart ht.apart⟩

theorem refl (ht : t.Fit Γ next) : Becomes Γ next t next t (t.nameless Γ) :=
  ⟨ht.links, ht.plain, ht.tidy.grown, rfl⟩

theorem trans (h : Becomes Γ next t next' r v) (h' : Becomes Γ next' r next'' a w) :
    Becomes Γ next t next'' a w :=
  ⟨h'.links, h'.plain, h.grown.trans h'.grown, h'.reads⟩

theorem lam (ht : (Term.lam b x t).Fit Γ next) (h : Becomes (b :: Γ) next t next' r v) :
    Becomes Γ next (.lam b x t) next' (.lam b x r) (.lam b.recursive x v) :=
  ⟨h.links, ⟨ht.plain.1, h.plain⟩, .lam ht.tidy h.grown, by rw [nameless, h.reads]⟩

theorem app (ht : (Term.app f a).Fit Γ next) (hf : Becomes Γ next f next' f' v)
    (ha : Becomes Γ next' a next'' a' w) :
    Becomes Γ next (.app f a) next'' (.app f' a') (.app v w) :=
  ⟨⟨hf.links, ha.links⟩, ⟨hf.plain, ha.plain⟩, .app ht.tidy hf.grown ha.grown, by
    rw [nameless, hf.reads, ha.reads]⟩

/-- Applying a function. -/
theorem beta (ht : (Term.app (.lam b x t) a).Fit Γ next) :
    Becomes Γ next (.app (.lam b x t) a) (t.subst b a next).2 (t.subst b a next).1
      ((t.nameless (b :: Γ)).instantiate (a.nameless Γ)) := by
  obtain ⟨hlinks, hreads⟩ := nameless_subst ht.fn.links ht.arg.links ht.fn.body.tidy
    ht.fn.body.apart
  exact ⟨hlinks, ht.fn.body.plain.subst ht.arg.plain b next,
    (grown_subst b a ht.fn.body.tidy).of_redex, hreads⟩

end Becomes

end Term

/-! ### Reduction finds the value -/

/-- An application whose left side is no function stays as it is when nothing is executed. -/
theorem applyWith_of_not_isFunction {again : Reducer} {s : Setting} (hs : s.execute = false)
    {f a : Term} {Γ : List Binder} (hf : ¬ (f.nameless Γ).IsFunction) (c : Circumstance)
    (e : Effects) : applyWith again s c (.app f a) e = .ok (.app f a, c.place) e := by
  cases f with
  | lam b x t => exact absurd trivial hf
  | ref x l =>
    rw [applyWith, hs]
    rfl
  | _ => rfl

/-- Reducing an application whose sides come out without a recursive function in front. -/
theorem reduce_app_of_sides {s : Setting} {d : Nat} {c : Circumstance} (hc : c.mode = .normal)
    {f a f' a' : Term} {p q : Place} {e e₁ e₂ : Effects} (hplain : f.Plain false)
    (hf : reduce s d ((c.within .other).down (.function a)) f e = .ok (f', p) e₁)
    (ha : reduce s d ((c.within .other).down (.argument f')) a e₁ = .ok (a', q) e₂)
    (hf' : f'.Plain false) :
    reduce s (d + 1) c (.app f a) e
      = applyWith (reduce s d) s (c.within .other) (.app f' a') e₂ := by
  have hmode : (c.within .other).mode = .normal := hc
  have happly : reduceApplicationWith (reduce s d) s (c.within .other) f' a' e₂
      = applyWith (reduce s d) s (c.within .other) (.app f' a') e₂ :=
    congrFun (reduceApplicationWith_eq_applyWith hf'.isRecursive_eq_false (.inl hmode)) e₂
  rw [reduce, reduceWith_app hplain.stays_app]
  exact (Outcome.bind_of_ok hf).trans ((Outcome.bind_of_ok ha).trans happly)

open Nameless (Evaluates) in
/-- **What evaluates is reduced.**  An expression that reads as `t` is reduced to one that reads
as `v`, with the depth that the evaluation takes, and nothing is printed. -/
theorem Nameless.Evaluates.reduce_eq_ok {d : Nat} {u v : Nameless String} (h : Evaluates d u v)
    {s : Setting} (hs : s.execute = false) {c : Circumstance} (hc : c.mode = .normal)
    {Γ : List Binder} {t : Term} {e : Effects} (ht : t.Fit Γ e.next) (hu : t.nameless Γ = u) :
    ∃ r p next, reduce s d c t e = .ok (r, p) (e.made next) ∧
      Term.Becomes Γ e.next t next r v := by
  induction h generalizing c Γ t e with
  | bound i x =>
    obtain ⟨b, rfl⟩ := Term.eq_of_nameless_eq_bound ht.links hu
    exact ⟨_, _, e.next, rfl, hu ▸ .refl ht⟩
  | lam x _ ih =>
    obtain ⟨b, t, rfl, hb, hbody⟩ := Term.eq_of_nameless_eq_lam ht.links hu
    obtain ⟨r, p, next, hr, hbecomes⟩ :=
      ih (c := (c.within (.function b)).down (.body b x)) hc ht.body hbody
    exact ⟨.lam b x r, c.place, next, Outcome.bind_of_ok hr, hb ▸ .lam ht hbecomes⟩
  | @app d f g a b _ _ hg ihf iha =>
    obtain ⟨f, a, rfl, hf, ha⟩ := Term.eq_of_nameless_eq_app ht.links hu
    obtain ⟨f', p, n₁, hf', hbf⟩ :=
      ihf (c := (c.within .other).down (.function a)) hc ht.fn hf
    obtain ⟨a', q, n₂, ha', hba⟩ :=
      iha (c := (c.within .other).down (.argument f')) (e := e.made n₁) hc
        (ht.arg.mono hbf.grown.le) ha
    refine ⟨.app f' a', c.place, n₂, ?_, .app ht hbf hba⟩
    rw [reduce_app_of_sides hc ht.fn.plain hf' ha' hbf.plain]
    exact applyWith_of_not_isFunction hs (hbf.reads ▸ hg) (c.within .other) _
  | @beta d f a b body v x _ _ _ ihf iha ih =>
    obtain ⟨f, a, rfl, hf, ha⟩ := Term.eq_of_nameless_eq_app ht.links hu
    obtain ⟨f', p, n₁, hf', hbf⟩ :=
      ihf (c := (c.within .other).down (.function a)) hc ht.fn hf
    obtain ⟨a', q, n₂, ha', hba⟩ :=
      iha (c := (c.within .other).down (.argument f')) (e := e.made n₁) hc
        (ht.arg.mono hbf.grown.le) ha
    obtain ⟨k, t, rfl, -, hbody⟩ := Term.eq_of_nameless_eq_lam hbf.links hbf.reads
    have hsides := Term.Becomes.app ht hbf hba
    have hbeta := Term.Becomes.beta (hsides.fit ht)
    have hresult := hsides.trans hbeta
    -- the function is applied, and what comes out is reduced in turn
    obtain ⟨r, p', n₃, hr, hbr⟩ := ih (c := (c.within .other).afterBeta k x t a')
      (e := e.made (t.subst k a' n₂).2) (by
        show c.mode.afterApplication = _
        rw [hc]
        rfl) (hresult.fit ht) (by rw [hbeta.reads, hbody, hba.reads])
    refine ⟨r, p', n₃, ?_, hresult.trans hbr⟩
    rw [reduce_app_of_sides hc ht.fn.plain hf' ha' hbf.plain]
    exact hr

end LambdaScript
