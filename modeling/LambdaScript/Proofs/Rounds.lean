/-
LambdaScript/Proofs/Rounds.lean

What a round of an unrolling does.

The application of a recursive function is unrolled round by round.  A round looks for
something to apply: the function itself or, if the left side is an application again,
what stands there.  If that is a function, the round contracts a redex and goes on with
what comes out of it.  But the left side of the left side may be an application once
more, as in `[$f. f f f x]`.  Then the round does nothing, and neither does the next:
the unrolling spins.

`Calls` says which tasks a task hands on to.  Whatever is handed on in the reduction of
an expression that has been read is orderly (`Calls.orderly`), so that the rounds it
comes to are of these three shapes and no others.

Main result: `rounds_contract_or_spin`.
-/
import LambdaScript.Proofs.Unrolling
import Mathlib.Logic.Relation

namespace LambdaScript

open Nameless (Rules Step BetaDelta)
open Relation (ReflTransGen)

/-! ### Rounds -/

/-- A plain expression that unrolls is a redex, has a redex on its left side, or has an
application of an application there. -/
theorem Term.Plain.unrolls_cases {marked : Bool} {t : Term} (ht : t.Plain marked)
    (h : t.unrolls = .ok true) :
    (∃ b x u a, t = app (lam b x u) a) ∨ (∃ b x u a arg, t = app (app (lam b x u) a) arg) ∨
      ∃ f g a arg, t = app (app (app f g) a) arg := by
  rcases unrolls_eq_true h with ⟨f, a, arg, rfl⟩ | ⟨b, x, u, a, rfl, -⟩
  · cases f with
    | missing => exact ht.1.1.elim
    | foreign => exact ht.1.1.elim
    | app f g => exact .inr (.inr ⟨f, g, a, arg, rfl⟩)
    | lam b x u => exact .inr (.inl ⟨b, x, u, a, arg, rfl⟩)
    | ref x l =>
      obtain ⟨recursive, hrecursive, -⟩ := ht.1.isRecursive_eq
      rw [unrolls, hrecursive] at h
      cases recursive <;> cases h
  · exact .inl ⟨b, x, u, a, rfl⟩

section Rounds

variable {again : Reducer} {s : Setting} {c : Circumstance} {e : Effects} {b : Binder} {x : String}
  {u a arg f g : Term} {n : Nat}

/-- The application of a function is contracted, and the unrolling goes on with what this is
reduced to. -/
theorem unrollWith_outer (h : (Term.app (.lam b x u) a).unrolls = .ok true) :
    unrollWith again s (n + 1) c (.app (.lam b x u) a) e = (do
      let (t, p) ← again ((c.inMode .applyRecursive).afterBeta b x u a) (u.subst b a e.next).1
      unrollWith again s n (c.moved p) t) (e.made (u.subst b a e.next).2) := by
  rw [unrollWith, h]
  rfl

/-- The application of a function on the left side is contracted. -/
theorem unrollWith_inner (h : (Term.app (.app (.lam b x u) a) arg).unrolls = .ok true) :
    unrollWith again s (n + 1) c (.app (.app (.lam b x u) a) arg) e = (do
      let (f, _) ← again (((c.down (.function arg)).inMode .applyRecursive).afterBeta b x u a)
        (u.subst b a e.next).1
      unrollWith again s n c (.app f arg)) (e.made (u.subst b a e.next).2) := by
  rw [unrollWith, h]
  rfl

/-- With an application of an application on the left side no bound is enough. -/
theorem unrollWith_nested (h : (Term.app (.app (.app f g) a) arg).unrolls = .ok true) :
    unrollWith again s n c (.app (.app (.app f g) a) arg) e
      = .error (c.failure (.app (.app (.app f g) a) arg) .tooDeep) e := by
  induction n with
  | zero => rfl
  | succ n ih =>
    -- the round hands the same expression on to the next
    rw [unrollWith, h]
    exact ih

theorem reduceApplicationWith_nested (h : c.Recurs (.app (.app f g) a) arg) :
    reduceApplicationWith again s c (.app (.app f g) a) arg e
      = .error (c.failure (.app (.app (.app f g) a) arg) .tooDeep) e := by
  rw [reduceApplicationWith_recurs h]
  exact Outcome.bind_of_error (unrollWith_nested h.unrolls)

end Rounds

/-! ### Calls -/

/-- A task with what it starts from. -/
structure Call where
  task : Task
  circumstance : Circumstance
  term : Term
  effects : Effects

/-- The calls that a task makes while it is carried out, each after those before it have come
to an end. -/
inductive Calls (s : Setting) : Call → Call → Prop
  | unfold {c x body e} : c.place.lookUp (.ref x .free) x = some body →
      Calls s ⟨.reduce, c, .ref x .free, e⟩
        ⟨.reduce, (c.within .other).moved (c.place.leave (.ref x .free)), (body.copy e.next).1,
          e.made (body.copy e.next).2⟩
  | lam {c b x t e} : Calls s ⟨.reduce, c, .lam b x t, e⟩
      ⟨.reduce, (c.within (.function b)).down (.body b x), t, e⟩
  | fn {c f a e} : (Term.app f a).stays = false →
      Calls s ⟨.reduce, c, .app f a, e⟩ ⟨.reduce, (c.within .other).down (.function a), f, e⟩
  | arg {c f a e f' p e₁} : (Term.app f a).stays = false →
      Runs s .reduce ((c.within .other).down (.function a)) f e (f', p) e₁ →
      Calls s ⟨.reduce, c, .app f a, e⟩ ⟨.reduce, (c.within .other).down (.argument f'), a, e₁⟩
  | app {c f a e f' p e₁ a' q e₂} : (Term.app f a).stays = false →
      Runs s .reduce ((c.within .other).down (.function a)) f e (f', p) e₁ →
      Runs s .reduce ((c.within .other).down (.argument f')) a e₁ (a', q) e₂ →
      Calls s ⟨.reduce, c, .app f a, e⟩ ⟨.application, c.within .other, .app f' a', e₂⟩
  | contract {c f a e} : c.mode ≠ .applyRecursive → f.isRecursive = .ok false →
      Calls s ⟨.application, c, .app f a, e⟩ ⟨.apply, c, .app f a, e⟩
  | recurUnroll {c f a e} : c.Recurs f a →
      Calls s ⟨.application, c, .app f a, e⟩ ⟨.unroll, c, .app f a, e⟩
  | recurApply {c f a e t₁ p₁ e₁} : c.Recurs f a →
      Runs s .unroll c (.app f a) e (t₁, p₁) e₁ →
      Calls s ⟨.application, c, .app f a, e⟩
        ⟨.apply, (c.moved p₁).inMode .doneRecursive, t₁, e₁⟩
  | recurReduce {c f a e t₁ p₁ e₁ t₂ p₂ e₂} : c.Recurs f a →
      Runs s .unroll c (.app f a) e (t₁, p₁) e₁ →
      Runs s .apply ((c.moved p₁).inMode .doneRecursive) t₁ e₁ (t₂, p₂) e₂ →
      Calls s ⟨.application, c, .app f a, e⟩ ⟨.reduce, (c.moved p₂).inMode .normal, t₂, e₂⟩
  | beta {c b x t a e} : Calls s ⟨.apply, c, .app (.lam b x t) a, e⟩
      ⟨.reduce, c.afterBeta b x t a, (t.subst b a e.next).1, e.made (t.subst b a e.next).2⟩
  | inner {c f a arg e} : (Term.app (.app f a) arg).unrolls = .ok true →
      Calls s ⟨.unroll, c, .app (.app f a) arg, e⟩
        ⟨.apply, (c.down (.function arg)).inMode .applyRecursive, .app f a, e⟩
  | innerRest {c f a arg e fn p e₁} : (Term.app (.app f a) arg).unrolls = .ok true →
      Runs s .apply ((c.down (.function arg)).inMode .applyRecursive) (.app f a) e (fn, p) e₁ →
      Calls s ⟨.unroll, c, .app (.app f a) arg, e⟩ ⟨.unroll, c, .app fn arg, e₁⟩
  | outer {c b x t arg e} : (Term.app (.lam b x t) arg).unrolls = .ok true →
      Calls s ⟨.unroll, c, .app (.lam b x t) arg, e⟩
        ⟨.apply, c.inMode .applyRecursive, .app (.lam b x t) arg, e⟩
  | outerRest {c b x t arg e t' p e₁} : (Term.app (.lam b x t) arg).unrolls = .ok true →
      Runs s .apply (c.inMode .applyRecursive) (.app (.lam b x t) arg) e (t', p) e₁ →
      Calls s ⟨.unroll, c, .app (.lam b x t) arg, e⟩ ⟨.unroll, c.moved p, t', e₁⟩

/-- Rules by which everything may be replaced by everything. -/
def anything : Rules String := fun _ _ _ => True

/-- Definitions without dangling references agree with such rules. -/
theorem Table.agrees_anything {d : Table} {s : Setting} (hd : ∀ e ∈ d.toList, e.body.Scoped []) :
    d.Agrees anything s ∅ where
  links _ e he := hd e (List.mem_of_find?_eq_some he)
  names _ e _ _ := ⟨trivial, e.body.avoids_empty⟩
  actions _ _ _ _ _ _ _ _ _ _ := trivial

namespace Call

/-- The references of the expression belong to the functions `Γ` or its own, all functions
are different, and the definitions at its place are in order. -/
def Orderly (s : Setting) (Γ : List Binder) (k : Call) : Prop :=
  Underway anything (·.Agrees anything s ∅) ∅ Γ k.circumstance.place k.effects.next k.term

end Call

/-- What is called from something orderly is orderly. -/
theorem Calls.orderly {s : Setting} {k k' : Call} (h : Calls s k k') {Γ : List Binder}
    (hk : k.Orderly s Γ) : ∃ Γ', k'.Orderly s Γ' := by
  have hT : ∀ d : Table, d.Agrees anything s ∅ → d.Agrees anything s ∅ := fun _ hd => hd
  have hbeta : ∀ r x u v, anything (.app (.lam r x u) v) none (u.instantiate v) :=
    fun _ _ _ _ => trivial
  cases h with
  | @unfold c x body e hbody =>
    rw [Place.lookUp_eq] at hbody
    obtain ⟨d, hd, rfl⟩ := Option.map_eq_some_iff.mp hbody
    have hscoped := hk.here.links x d hd
    obtain ⟨hlinks, -⟩ := Term.nameless_copy (hscoped.mono (List.nil_subset Γ))
      fun b hb => (hk.poised.apart b hb).1
    exact ⟨Γ, hk.poised.leave (Term.grown_copy (.ref x .free) d.body e.next) hlinks,
      hk.plain.leave hk.plain_term, .inl rfl⟩
  | @lam c b x t e => exact ⟨b :: Γ, Underway.body hk⟩
  | fn _ => exact ⟨Γ, Underway.fn hk⟩
  | @arg c f a e f' p e₁ _ h₁ =>
    exact ⟨Γ, (Underway.fnRan hT hbeta hk h₁ rfl f.avoids_empty).1.arg⟩
  | @app c f a e f' p e₁ a' q e₂ _ h₁ h₂ =>
    have hfn := (Underway.fnRan hT hbeta hk h₁ rfl f.avoids_empty).1
    exact ⟨Γ, (Underway.argRan hT hbeta hfn h₂ rfl a.avoids_empty).1⟩
  | contract _ _ => exact ⟨Γ, hk⟩
  | recurUnroll _ => exact ⟨Γ, hk⟩
  | recurApply _ h₁ => exact ⟨Γ, (Underway.ran hT hbeta hk h₁ (Term.avoids_empty _)).1⟩
  | recurReduce _ h₁ h₂ =>
    have hunrolled := (Underway.ran hT hbeta hk h₁ (Term.avoids_empty _)).1
    exact ⟨Γ, (Underway.ran hT hbeta hunrolled h₂ (Term.avoids_empty _)).1⟩
  | beta => exact ⟨Γ, Underway.beta hk hbeta⟩
  | inner _ => exact ⟨Γ, Underway.fn hk⟩
  | innerRest _ h₁ => exact ⟨Γ, (Underway.fnRan hT hbeta hk h₁ rfl (Term.avoids_empty _)).1⟩
  | outer _ => exact ⟨Γ, hk⟩
  | @outerRest c b x t arg e t' p e₁ _ h₁ =>
    exact ⟨Γ, (Underway.ran hT hbeta (c := c.inMode .applyRecursive) hk h₁ (Term.avoids_empty _)).1⟩

theorem Call.Orderly.reaches {s : Setting} {k k' : Call} {Γ : List Binder} (hk : k.Orderly s Γ)
    (h : ReflTransGen (Calls s) k k') : ∃ Γ', k'.Orderly s Γ' := by
  induction h with
  | refl => exact ⟨Γ, hk⟩
  | tail _ hcalls ih =>
    obtain ⟨Δ, hΔ⟩ := ih
    exact hcalls.orderly hΔ

/-! ### Expressions that have been read -/

/-- An expression that has been read can be reduced outside of the definitions or as the body of
one of them. -/
theorem orderly_at {d : Table} {t : Term} {p : Place} (hd : ∀ e ∈ d.toList, e.body.Scoped [])
    (ht : t.Scoped []) {next : Nat} (htidy : t.Tidy next)
    (hp : p = .outside d ∨ ∃ a, p = .whole (d.bind a t) a) (s : Setting) (m : Mode) (trail : Trail)
    (lines : List String) :
    Call.Orderly s [] ⟨.reduce, ⟨m, p, trail⟩, t, ⟨next, lines⟩⟩ := by
  refine ⟨⟨ht, htidy, fun _ hb => absurd hb List.not_mem_nil, ?_⟩, ?_, .inr ?_⟩
  · intro u hu _
    apply Table.agrees_anything
    rcases hp with rfl | ⟨a, rfl⟩
    · exact hd
    · intro e he
      rw [Place.definitions_whole, Table.bind_bind] at he
      rcases Table.mem_bindIn he with rfl | he
      · exact hu
      · exact hd e he
  · exact plain_at (fun e he => (hd e he).plain_true) ht.plain_true hp
  · exact fun u hu => absurd u.avoids_empty hu

/-- One application of a function leads from one expression to the other. -/
def Term.Contracts (t t' : Term) : Prop :=
  ∃ Γ, t.Scoped Γ ∧ t'.Scoped Γ ∧
    Step (BetaDelta fun _ => none) (t.nameless Γ) none (t'.nameless Γ)

/-- There are no functions in the expression. -/
def Nameless.FunctionFree {ν : Type} : Nameless ν → Prop
  | app f a => f.FunctionFree ∧ a.FunctionFree
  | lam _ _ _ => False
  | _ => True

/-- Without functions there is nothing to contract. -/
theorem Nameless.Step.not_functionFree {ν : Type} {t u : Nameless ν} {l : Option String}
    (h : Step (BetaDelta fun _ => none) t l u) : ¬ t.FunctionFree := by
  induction h with
  | root hrule =>
    cases hrule with
    | beta r x body a => exact fun hfree => hfree.1
    | delta hnone => cases hnone
  | fn a _ ih => exact fun hfree => ih hfree.1
  | arg f _ ih => exact fun hfree => ih hfree.2
  | body r x _ _ => exact id

namespace Call.Orderly

variable {s : Setting} {Γ : List Binder} {task : Task} {c : Circumstance} {e : Effects} {b : Binder}
  {x : String} {u a arg : Term}

/-- Substitution reads as the application of a function. -/
theorem step (h : Orderly s Γ ⟨task, c, .app (.lam b x u) a, e⟩) :
    (u.subst b a e.next).1.Scoped Γ ∧ Step (BetaDelta fun _ => none)
      ((Term.app (.lam b x u) a).nameless Γ) none ((u.subst b a e.next).1.nameless Γ) := by
  obtain ⟨hlinks, hread⟩ := Term.nameless_subst h.poised.links.1 h.poised.links.2
    h.poised.tidy.fn.body (h.poised.apart.fn.body h.poised.tidy.fn)
  rw [hread]
  exact ⟨hlinks, .root (.beta _ _ _ _)⟩

theorem contracts_outer (h : Orderly s Γ ⟨task, c, .app (.lam b x u) a, e⟩) :
    (Term.app (.lam b x u) a).Contracts (u.subst b a e.next).1 :=
  ⟨Γ, h.poised.links, h.step⟩

theorem contracts_inner (h : Orderly s Γ ⟨task, c, .app (.app (.lam b x u) a) arg, e⟩) :
    (Term.app (.app (.lam b x u) a) arg).Contracts (.app (u.subst b a e.next).1 arg) := by
  have hfn : Orderly s Γ ⟨task, c.down (.function arg), .app (.lam b x u) a, e⟩ := Underway.fn h
  exact ⟨Γ, h.poised.links, ⟨hfn.step.1, h.poised.links.2⟩, .fn _ hfn.step.2⟩

end Call.Orderly

/-- **The rounds of an unrolling.**  Let an expression have been read, and let no definition of
a session lack anything.  Let the expression be reduced in mode `normal`, outside of the
definitions or as the body of one of them, with actions executed or not.  Consider any round
of an unrolling that this comes to.

* If the left side is a function, the round contracts the application of it.
* If the left side is the application of a function, the round contracts that.
* Otherwise the left side is an application whose left side is an application.  Then the round
  contracts nothing, the expression stays as it is, and the unrolling never comes to an end. -/
theorem rounds_contract_or_spin {r r' : Reading} {t : Term} {σ : Session} {p : Place}
    (hread : Parse.expression r = .ok t r') (hσ : σ.Amid)
    (hwhole : ∀ e ∈ σ.table.toList, e.body.hasMissing = false)
    (hp : p = .outside σ.table ∨ ∃ a, p = .whole (σ.table.bind a t) a)
    {s : Setting} {trail : Trail} {e₀ : Effects} (hnext : r'.next ≤ e₀.next)
    {c : Circumstance} {u : Term} {e : Effects}
    (hreach : ReflTransGen (Calls s) ⟨.reduce, ⟨.normal, p, trail⟩, t, e₀⟩ ⟨.unroll, c, u, e⟩)
    (hround : u.unrolls = .ok true) :
    (∃ b x v a, u = .app (.lam b x v) a ∧ u.Contracts (v.subst b a e.next).1 ∧
      ∀ again n, unrollWith again s (n + 1) c u e = (do
        let (u', q) ← again ((c.inMode .applyRecursive).afterBeta b x v a) (v.subst b a e.next).1
        unrollWith again s n (c.moved q) u') (e.made (v.subst b a e.next).2)) ∨
    (∃ b x v a arg, u = .app (.app (.lam b x v) a) arg ∧
      u.Contracts (.app (v.subst b a e.next).1 arg) ∧
      ∀ again n, unrollWith again s (n + 1) c u e = (do
        let (f, _) ← again (((c.down (.function arg)).inMode .applyRecursive).afterBeta b x v a)
          (v.subst b a e.next).1
        unrollWith again s n c (.app f arg)) (e.made (v.subst b a e.next).2)) ∨
    ∃ f g a arg, u = .app (.app (.app f g) a) arg ∧
      ∀ again n, unrollWith again s n c u e = .error (c.failure u .tooDeep) e := by
  have hd : ∀ x ∈ σ.table.toList, x.body.Scoped [] := fun x hx =>
    (hσ.sound.formed x hx).scoped (hwhole x hx)
  rcases Parse.reads_expression hread with ⟨rfl, -⟩ | hread
  · -- nothing is called where there is nothing
    rcases hreach.cases_head with heq | ⟨_, hcalls, -⟩
    · cases heq
    · cases hcalls
  have htidy : t.Tidy e₀.next := ((hread.grown .missing).tidy ⟨List.nodup_nil, nofun⟩).mono hnext
  obtain ⟨Γ, horderly⟩ := (orderly_at hd hread.lexical.scoped htidy hp s .normal trail
    e₀.lines).reaches hreach
  rcases (Underway.plain_term horderly).unrolls_cases hround with
    ⟨b, x, v, a, rfl⟩ | ⟨b, x, v, a, arg, rfl⟩ | ⟨f, g, a, arg, rfl⟩
  · exact .inl ⟨b, x, v, a, rfl, horderly.contracts_outer, fun _ _ => unrollWith_outer hround⟩
  · exact .inr (.inl ⟨b, x, v, a, arg, rfl, horderly.contracts_inner,
      fun _ _ => unrollWith_inner hround⟩)
  · exact .inr (.inr ⟨f, g, a, arg, rfl, fun _ _ => unrollWith_nested hround⟩)

/-- The body of `[$f. f f f x]` comes to a round that does nothing. -/
theorem rounds_contract_or_spin_nested :
    let σ := Outcome.after (Act.takeUp "[$f. f f f x]".toList) (Session.starting ⟨50, 50⟩)
    let b : Binder := ⟨0, true⟩
    let f : Term := .ref "f" (.binder b)
    let t : Term := .app (.app (.app f f) f) (.ref "x" .free)
    let c : Circumstance := ⟨.normal, .outside σ.table, [.other, .function b]⟩
    let s : Setting := ⟨true, .standard, 10⟩
    Outcome.verdict Parse.expression σ.reading = .ok (.lam b "f" t) ∧ t.unrolls = .ok true ∧
      ReflTransGen (Calls s) ⟨.reduce, ⟨.normal, .outside σ.table, []⟩, .lam b "f" t, ⟨1, []⟩⟩
        ⟨.unroll, c, t, ⟨1, []⟩⟩ ∧
      ∀ again n, unrollWith again s n c t ⟨1, []⟩ = .error (c.failure t .tooDeep) ⟨1, []⟩ := by
  intro σ b f t c s
  have hread : Outcome.verdict Parse.expression σ.reading = .ok (.lam b "f" t) := by decide +kernel
  have hunrolls : t.unrolls = .ok true := rfl
  have hleft : reduce s 3 (c.down (.function (.ref "x" .free))) (.app (.app f f) f) ⟨1, []⟩
      = .ok (.app (.app f f) f, .outside σ.table) ⟨1, []⟩ := rfl
  have hright : reduce s 1 (c.down (.argument (.app (.app f f) f))) (.ref "x" .free) ⟨1, []⟩
      = .ok (.ref "x" .free, .outside σ.table) ⟨1, []⟩ := rfl
  have hreach : ReflTransGen (Calls s)
      ⟨.reduce, ⟨.normal, .outside σ.table, []⟩, .lam b "f" t, ⟨1, []⟩⟩ ⟨.unroll, c, t, ⟨1, []⟩⟩ :=
    .head .lam (.head (.app rfl (runs_of_reduce hleft) (runs_of_reduce hright))
      (.single (.recurUnroll ⟨rfl, rfl, rfl, rfl⟩)))
  refine ⟨hread, hunrolls, hreach, ?_⟩
  have hnext : (Outcome.after Parse.expression σ.reading).next ≤ 1 := by decide +kernel
  rcases rounds_contract_or_spin (Outcome.eq_ok_of_verdict hread) (.begun _ (.starting _)) nofun
    (.inl rfl) hnext hreach hunrolls with ⟨_, _, _, _, heq, -⟩ | ⟨_, _, _, _, _, heq, -⟩ | h
  · cases (Term.app.inj heq).1
  · cases (Term.app.inj (Term.app.inj heq).1).1
  · obtain ⟨_, _, _, _, -, hspins⟩ := h
    exact hspins

/-- A round need not contract anything.  In the body of `[$f. f f f x]` there is nothing that
could be contracted, and yet it unrolls; so the expression is not reduced to anything, at no
depth and in no number of rounds. -/
theorem unrolling_spins :
    let b : Binder := ⟨0, true⟩
    let f : Term := .ref "f" (.binder b)
    let t : Term := .app (.app (.app f f) f) (.ref "x" .free)
    Outcome.verdict Parse.expression ⟨⟨some '[', "$f. f f f x]".toList, .start⟩, 0⟩
        = .ok (.lam b "f" t) ∧
      t.unrolls = .ok true ∧ (∀ t', ¬ t.Contracts t') ∧
      ∀ s depth e r e',
        reduce s depth ⟨.normal, .outside .empty, []⟩ (.lam b "f" t) e ≠ .ok r e' := by
  intro b f t
  refine ⟨by decide +kernel, rfl, ?_, ?_⟩
  · rintro t' ⟨Γ, -, -, hstep⟩
    exact hstep.not_functionFree ⟨⟨⟨trivial, trivial⟩, trivial⟩, trivial⟩
  · intro s depth e r e' h
    let c : Circumstance := ⟨.normal, .outside .empty, [.other, .function b]⟩
    -- below this depth the application is not come to
    rcases depth with - | - | - | - | - | depth
    iterate 5 cases h
    have hleft : reduce s (depth + 3) (c.down (.function (.ref "x" .free))) (.app (.app f f) f) e
        = .ok (.app (.app f f) f, .outside .empty) e := rfl
    have hright : reduce s (depth + 3) (c.down (.argument (.app (.app f f) f))) (.ref "x" .free) e
        = .ok (.ref "x" .free, .outside .empty) e := rfl
    have hspins : reduceApplicationWith (reduce s (depth + 3)) s c (.app (.app f f) f)
        (.ref "x" .free) e = .error (c.failure t .tooDeep) e :=
      reduceApplicationWith_nested ⟨rfl, rfl, rfl, rfl⟩
    have hbody : reduce s (depth + 4) ⟨.normal, .outside .empty, [.function b]⟩ t e
        = .error (c.failure t .tooDeep) e := by
      rw [reduce, reduceWith_app rfl]
      exact (Outcome.bind_of_ok hleft).trans ((Outcome.bind_of_ok hright).trans hspins)
    cases h.symm.trans (Outcome.bind_of_error hbody)

end LambdaScript
