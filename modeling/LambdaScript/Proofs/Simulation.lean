/-
LambdaScript/Proofs/Simulation.lean

A reduction follows the rules of rewriting.

Reduction works on linked expressions: it substitutes by identity, puts copies in
the place of references, and leaves what it has done inside the body of the
definition it works on.  Read without binders, all of that is rewriting: whatever
a task starts from has steps to what it ends with, and the lines it has printed
are the lines of these steps in order (`Runs.follows`).

The rules `R` are a parameter.  Three things are asked of them:

* they apply functions, as far as the mode `m` allows it (`Mode.contracts`);
* they replace a free reference by what is found under its name;
* they replace an action applied to an argument by the identity function.

What is found under a name may change while a definition is reduced in its place.
`Place.Keeps R T Γ p t` says that the definitions at the place `p` satisfy `T`, now
that it holds `t` and for as long as it holds something convertible to `t`.  That
makes it an invariant: reducing a part of `t` converts the whole (`Keeps.fn`,
`Keeps.arg`, `Keeps.body`), and so does the odd state of an applied function whose
body has been replaced while it still stands before its argument (`Keeps.redex`).

`T` has to say that the definitions agree with `R`, except for a set of names that
neither the expression nor the other definitions mention (`Table.Agrees`,
`Runs.attains`).  With no exception, and `T` saying no more than that, places are
`Faithful` and the result is `Runs.follows`.
-/
import LambdaScript.Proofs.Runs
import LambdaScript.Proofs.Scope

namespace LambdaScript

open Nameless (Rules Step Steps Conv)

namespace Nameless

/-- The identity function. -/
def identity : Nameless String :=
  .lam false "x" (.bound 0 "x")

/-- A reference, free or bound, that is written as `x`. -/
def IsReference (x : String) : Nameless String → Prop
  | free y => y = x
  | bound _ y => y = x
  | _ => False

end Nameless

namespace Mode

/-- Functions with this mark are applied. -/
def contracts : Mode → Bool → Bool
  | normal, _ => true
  | doneRecursive, r => !r
  | applyRecursive, _ => false

end Mode

/-! ### Binders along a run -/

/-- A run makes new functions only with keys from the supply, and no function occurs
twice in its result. -/
theorem Runs.grown {s : Setting} {task : Task} {c : Circumstance} {t : Term} {e e' : Effects}
    {r : Placed} (h : Runs s task c t e r e') (ht : t.Tidy e.next) :
    Term.Grown e.next t e'.next r.1 := by
  induction h with
  | stay _ => exact ht.grown
  | unbound _ => exact ht.grown
  | @unfold c x body e r e' _ _ ih =>
    -- nothing of the copy is old, so it may have grown from the reference as well
    have hcopy := Term.grown_copy (.ref x .free) body e.next
    exact hcopy.trans (ih (hcopy.tidy ht))
  | lam _ ih => exact .lam ht (ih ht.body)
  | app _ _ _ _ ihf iha ih =>
    have hf := ihf ht.fn
    have hfa := Term.Grown.app ht hf (iha (ht.arg.mono hf.le))
    exact hfa.trans (ih (hfa.tidy ht))
  | held _ => exact ht.grown
  | contract _ _ _ ih => exact ih ht
  | recur _ _ _ _ ih₁ ih₂ ih₃ =>
    have h₁ := ih₁ ht
    have h₂ := h₁.trans (ih₂ (h₁.tidy ht))
    exact h₂.trans (ih₃ (h₂.tidy ht))
  | @beta c b x t a e r e' _ ih =>
    have hsubst := Term.grown_subst b a ht.fn.body
    exact (hsubst.trans (ih (hsubst.tidy ht.fn.body))).of_redex
  | @act c x l a e line _ _ _ => exact Term.grown_identity (.app (.ref x l) a) e.next
  | ignored _ => exact ht.grown
  | rest _ => exact ht.grown
  | inner _ _ _ ih₁ ih₂ =>
    have hfn := ih₁ ht.fn
    have happ := Term.Grown.app ht hfn (ht.arg.mono hfn.le).grown
    exact happ.trans (ih₂ (happ.tidy ht))
  | outer _ _ _ ih₁ ih₂ =>
    have h₁ := ih₁ ht
    exact h₁.trans (ih₂ (h₁.tidy ht))

/-! ### What is kept at a place -/

/-- The definitions satisfy `T` while the place holds something convertible to `t`. -/
def Place.Keeps (R : Rules String) (T : Table → Prop) (Γ : List Binder) (p : Place) (t : Term) :
    Prop :=
  ∀ u : Term, u.Scoped Γ → Conv R (t.nameless Γ) (u.nameless Γ) → T (p.definitions u)

namespace Place.Keeps

variable {R : Rules String} {T : Table → Prop} {Γ : List Binder} {p : Place}
  {t t' f a : Term} {b : Binder} {x : String}

theorem here (h : p.Keeps R T Γ t) (ht : t.Scoped Γ) : T (p.definitions t) :=
  h t ht (.refl _)

theorem of_conv (h : p.Keeps R T Γ t) (ht : Conv R (t.nameless Γ) (t'.nameless Γ)) :
    p.Keeps R T Γ t' :=
  fun u hu hc => h u hu (ht.trans hc)

/-- Outside of all definitions nothing changes any more. -/
theorem leave (h : p.Keeps R T Γ t) (ht : t.Scoped Γ) {Γ' : List Binder} (u : Term) :
    (p.leave t).Keeps R T Γ' u :=
  fun _ _ _ => h.here ht

/-- What is kept at a place inside `p` is what is kept at `p` when the surroundings are
put back. -/
theorem inside (h : p.Keeps R T Γ t) {q : Place} {plug : Term → Term}
    (hq : ∀ v, q.definitions v = p.definitions (plug v)) {Γ' : List Binder} {u : Term}
    (hplug : ∀ v : Term, v.Scoped Γ' → Conv R (u.nameless Γ') (v.nameless Γ') →
      (plug v).Scoped Γ ∧ Conv R (t.nameless Γ) ((plug v).nameless Γ)) :
    q.Keeps R T Γ' u := by
  intro v hv hc
  obtain ⟨hscoped, hconv⟩ := hplug v hv hc
  rw [hq]
  exact h _ hscoped hconv

theorem fn (h : p.Keeps R T Γ (.app f a)) (ha : a.Scoped Γ) :
    (p.down (.function a)).Keeps R T Γ f :=
  h.inside (p.definitions_down _) fun _ hv hc => ⟨⟨hv, ha⟩, hc.app (.refl _)⟩

theorem arg (h : p.Keeps R T Γ (.app f a)) (hf : f.Scoped Γ) :
    (p.down (.argument f)).Keeps R T Γ a :=
  h.inside (p.definitions_down _) fun _ hv hc => ⟨⟨hf, hv⟩, .app (.refl _) hc⟩

theorem body (h : p.Keeps R T Γ (.lam b x t)) :
    (p.down (.body b x)).Keeps R T (b :: Γ) t :=
  h.inside (p.definitions_down _) fun _ hv hc => ⟨hv, hc.lam b.recursive x⟩

/-- A function whose body has become `t'`, which no longer refers to it, may stay
before its argument: applying it gives `t'` again. -/
theorem redex (h : p.Keeps R T Γ (.app (.lam b x t) a)) (ha : a.Scoped Γ) (hb : b ∉ Γ)
    (hbeta : ∀ u v, R (.app (.lam b.recursive x u) v) none (u.instantiate v))
    (ht' : t'.nameless Γ = (t.nameless (b :: Γ)).instantiate (a.nameless Γ)) :
    ((p.down (.function a)).down (.body b x)).Keeps R T Γ t' := by
  have hplace : ∀ v, ((p.down (.function a)).down (.body b x)).definitions v
      = p.definitions (.app (.lam b x v) a) := by
    intro v
    rw [Place.definitions_down, Place.definitions_down]
    rfl
  -- the old state converts to `t'` by applying the function, the new one likewise
  refine h.inside hplace fun v hv hc => ⟨⟨?_, ha⟩, ?_⟩
  · exact hv.mono (List.subset_cons_self b Γ)
  · have hold : Conv R ((Term.app (.lam b x t) a).nameless Γ) (t'.nameless Γ) := by
      rw [ht']
      exact .of_step (.root (hbeta _ _))
    have hnew : Conv R ((Term.app (.lam b x v) a).nameless Γ) (v.nameless Γ) := by
      have hstep := hbeta ((v.nameless Γ).rename Nat.succ) (a.nameless Γ)
      rw [Nameless.instantiate_rename_succ, ← Term.nameless_cons hv hb] at hstep
      exact .of_step (.root hstep)
    exact (hold.trans hc).trans hnew.symm

end Place.Keeps

/-! ### Names that are left out -/

namespace Term

/-- No free reference bears a name of `S`. -/
def Avoids (S : Set String) : Term → Prop
  | app f a => f.Avoids S ∧ a.Avoids S
  | lam _ _ t => t.Avoids S
  | ref x .free => x ∉ S
  | _ => True

theorem avoids_empty (t : Term) : t.Avoids ∅ := by
  induction t with
  | missing => trivial
  | foreign => trivial
  | app f a ihf iha => exact ⟨ihf, iha⟩
  | lam b x t ih => exact ih
  | ref x l =>
    cases l with
    | free => exact fun h => h
    | _ => trivial

variable {S : Set String}

theorem avoids_copyUnder (t : Term) (copies : Renaming) (next : Nat) :
    (t.copyUnder copies next).1.Avoids S ↔ t.Avoids S := by
  induction t generalizing copies next with
  | missing => rfl
  | foreign => rfl
  | app f a ihf iha => exact and_congr (ihf copies next) (iha copies _)
  | lam b x t ih => exact ih _ (next + 1)
  | ref x l => cases l <;> rfl

/-- A copy has the free references of the original. -/
theorem avoids_copy (t : Term) (next : Nat) : (t.copy next).1.Avoids S ↔ t.Avoids S :=
  t.avoids_copyUnder [] next

theorem Avoids.subst {t arg : Term} (h : t.Avoids S) (harg : arg.Avoids S) (b : Binder)
    (next : Nat) : (t.subst b arg next).1.Avoids S := by
  induction t generalizing next with
  | missing => trivial
  | foreign => trivial
  | app f a ihf iha => exact ⟨ihf h.1 _, iha h.2 _⟩
  | lam c x t ih => exact ih h _
  | ref x l =>
    rw [Term.subst]
    split
    · exact (arg.avoids_copy next).mpr harg
    · exact h

end Term

/-! ### What is found at a place -/

/-- The definitions agree with the rules, except for names of `S`, which the others do
not lead to. -/
structure Table.Agrees (R : Rules String) (s : Setting) (S : Set String) (d : Table) : Prop where
  links : ∀ x e, d.find? x = some e → e.body.Scoped []
  names : ∀ x e, d.find? x = some e → x ∉ S →
    R (.free x) none (e.body.nameless []) ∧ e.body.Avoids S
  actions : s.execute = true → ∀ (Δ : List Binder) (a : Term) (line : String), a.Scoped Δ →
    d.announce s.display a = .ok line →
      ∀ x head, Action.isName x = true → Nameless.IsReference x head →
        R (.app head (a.nameless Δ)) (some line) Nameless.identity

/-- What is found at the place `p`, while it holds something convertible to `t`,
agrees with the rules. -/
abbrev Faithful (R : Rules String) (s : Setting) (Γ : List Binder) (p : Place) (t : Term) : Prop :=
  p.Keeps R (·.Agrees R s ∅) Γ t

/-! ### One task after the other -/

/-- An expression that can be reduced below the functions `Γ`, at a place that keeps
`T`. -/
structure Poised (R : Rules String) (T : Table → Prop) (Γ : List Binder) (p : Place) (next : Nat)
    (t : Term) : Prop where
  links : t.Scoped Γ
  tidy : t.Tidy next
  apart : Term.Apart Γ next t
  kept : p.Keeps R T Γ t

/-- The result of a task, reached by steps that print what the task has printed. -/
structure Attains (R : Rules String) (T : Table → Prop) (Γ : List Binder) (t : Term) (e : Effects)
    (r : Placed) (e' : Effects) : Prop where
  links : r.1.Scoped Γ
  kept : r.2.Keeps R T Γ r.1
  steps : ∃ printed, e'.lines = e.lines ++ printed ∧
    Steps R (t.nameless Γ) printed (r.1.nameless Γ)

/-- An expression that can be reduced below the functions `Γ`. -/
abbrev Ready (R : Rules String) (s : Setting) (Γ : List Binder) (p : Place) (next : Nat)
    (t : Term) : Prop :=
  Poised R (·.Agrees R s ∅) Γ p next t

/-- What a task does that follows the rules. -/
abbrev Follows (R : Rules String) (s : Setting) (Γ : List Binder) (t : Term) (e : Effects)
    (r : Placed) (e' : Effects) : Prop :=
  Attains R (·.Agrees R s ∅) Γ t e r e'

variable {R : Rules String} {s : Setting} {T : Table → Prop} {Γ : List Binder}

namespace Poised

variable {p : Place} {next next' : Nat} {t t' f f' a a' : Term} {b : Binder} {x : String}

theorem grown (h : Poised R T Γ p next t) (ht : Term.Grown next t next' t')
    (hlinks : t'.Scoped Γ) (hconv : Conv R (t.nameless Γ) (t'.nameless Γ)) :
    Poised R T Γ p next' t' :=
  ⟨hlinks, ht.tidy h.tidy, ht.apart h.apart, h.kept.of_conv hconv⟩

theorem leave (h : Poised R T Γ p next t) (ht : Term.Grown next t next' t')
    (hlinks : t'.Scoped Γ) : Poised R T Γ (p.leave t) next' t' :=
  ⟨hlinks, ht.tidy h.tidy, ht.apart h.apart, h.kept.leave h.links t'⟩

theorem fn (h : Poised R T Γ p next (.app f a)) : Poised R T Γ (p.down (.function a)) next f :=
  ⟨h.links.1, h.tidy.fn, h.apart.fn, h.kept.fn h.links.2⟩

theorem arg (h : Poised R T Γ p next (.app f a)) : Poised R T Γ (p.down (.argument f)) next a :=
  ⟨h.links.2, h.tidy.arg, h.apart.arg, h.kept.arg h.links.1⟩

theorem body (h : Poised R T Γ p next (.lam b x t)) :
    Poised R T (b :: Γ) (p.down (.body b x)) next t :=
  ⟨h.links, h.tidy.body, h.apart.body h.tidy, h.kept.body⟩

theorem fnDone (h : Poised R T Γ p next (.app f a)) (hf : Term.Grown next f next' f')
    (hlinks : f'.Scoped Γ) (hconv : Conv R (f.nameless Γ) (f'.nameless Γ)) :
    Poised R T Γ p next' (.app f' a) :=
  h.grown (.app h.tidy hf (h.tidy.arg.mono hf.le).grown) ⟨hlinks, h.links.2⟩
    (hconv.app (.refl _))

theorem argDone (h : Poised R T Γ p next (.app f a)) (ha : Term.Grown next a next' a')
    (hlinks : a'.Scoped Γ) (hconv : Conv R (a.nameless Γ) (a'.nameless Γ)) :
    Poised R T Γ p next' (.app f a') :=
  h.grown (.app h.tidy h.tidy.fn.grown ha) ⟨h.links.1, hlinks⟩ (.app (.refl _) hconv)

/-- Applying a function.  The new body stands where the old one stood, unless it was the
argument alone. -/
theorem beta {c : Circumstance} (h : Poised R T Γ c.place next (.app (.lam b x t) a))
    (hbeta : ∀ u v, R (.app (.lam b.recursive x u) v) none (u.instantiate v)) :
    Poised R T Γ (c.afterBeta b x t a).place (t.subst b a next).2 (t.subst b a next).1 ∧
      Steps R ((Term.app (.lam b x t) a).nameless Γ) []
        ((t.subst b a next).1.nameless Γ) := by
  have hgrown := (Term.grown_subst b a h.tidy.fn.body).of_redex (b := b) (x := x) (a := a)
  obtain ⟨hlinks, hread⟩ := Term.nameless_subst h.links.1 h.links.2 h.tidy.fn.body
    (h.apart.fn.body h.tidy.fn)
  refine ⟨⟨hlinks, hgrown.tidy h.tidy, hgrown.apart h.apart, ?_⟩, ?_⟩
  · show Place.Keeps R T Γ (if t.isArgumentOf b then _ else _) _
    split
    · exact h.kept.leave h.links _
    · exact h.kept.redex h.links.2 h.apart.fn.notMem hbeta hread
  · rw [hread]
    exact .single (.root (hbeta _ _))

end Poised

namespace Attains

variable {t : Term} {e e₁ e₂ : Effects} {r r' : Placed}

theorem refl {p : Place} (h : Poised R T Γ p e.next t) : Attains R T Γ t e (t, p) e :=
  ⟨h.links, h.kept, [], (List.append_nil _).symm, .refl _⟩

theorem conv (h : Attains R T Γ t e r e₁) : Conv R (t.nameless Γ) (r.1.nameless Γ) := by
  obtain ⟨printed, -, hsteps⟩ := h.steps
  exact .of_steps hsteps

/-- Steps before a task. -/
theorem head {t' : Term} {printed : List String} (hlines : e₁.lines = e.lines ++ printed)
    (hsteps : Steps R (t.nameless Γ) printed (t'.nameless Γ)) (h : Attains R T Γ t' e₁ r e₂) :
    Attains R T Γ t e r e₂ := by
  obtain ⟨printed', hlines', hsteps'⟩ := h.steps
  refine ⟨h.links, h.kept, printed ++ printed', ?_, hsteps.trans hsteps'⟩
  rw [hlines', hlines, List.append_assoc]

theorem trans (h : Attains R T Γ t e r e₁) (h' : Attains R T Γ r.1 e₁ r' e₂) :
    Attains R T Γ t e r' e₂ := by
  obtain ⟨printed, hlines, hsteps⟩ := h.steps
  exact h'.head hlines hsteps

/-- What a task ends with can be reduced further. -/
theorem poised (h : Attains R T Γ t e r e₁) {p : Place} (ht : Poised R T Γ p e.next t)
    (hgrown : Term.Grown e.next t e₁.next r.1) : Poised R T Γ r.2 e₁.next r.1 :=
  ⟨h.links, hgrown.tidy ht.tidy, hgrown.apart ht.apart, h.kept⟩

end Attains

/-! ### Modes -/

/-- The steps of a task are among those that the mode `m` allows.  In mode `normal`
everything is allowed; in another mode no function is unrolled. -/
def Mode.Covers (m : Mode) (task : Task) (c : Circumstance) (t : Term) : Prop :=
  m = .normal ∨ m = c.mode ∧
    match task with
    | .reduce => True
    | .application => True
    | .apply => m = .doneRecursive ∧ ∀ b x u a, t = .app (.lam b x u) a → b.recursive = false
    | .unroll => False

namespace Mode.Covers

variable {m : Mode} {c c' : Circumstance} {t t' f a : Term}

theorem reduce (h : m.Covers .reduce c t) (hc : c'.mode = c.mode) : m.Covers .reduce c' t' :=
  h.imp_right fun h => ⟨hc ▸ h.1, trivial⟩

theorem application (h : m.Covers .reduce c t) (hc : c'.mode = c.mode) :
    m.Covers .application c' t' :=
  h.imp_right fun h => ⟨hc ▸ h.1, trivial⟩

/-- A function that is applied because it is not recursive may be applied. -/
theorem contract (h : m.Covers .application c (.app f a)) (hm : c.mode ≠ .applyRecursive)
    (hf : f.isRecursive = .ok false) : m.Covers .apply c (.app f a) := by
  rcases h with h | ⟨h, -⟩
  · exact .inl h
  rcases hmode : c.mode with - | - | -
  · exact .inl (h.trans hmode)
  · exact absurd hmode hm
  · refine .inr ⟨h, h.trans hmode, ?_⟩
    intro b x u a' heq
    obtain ⟨rfl, rfl⟩ := Term.app.inj heq
    exact Except.ok.inj hf

theorem normal_of_recur (h : m.Covers .application c t) (hc : c.mode = .normal) : m = .normal :=
  h.elim id fun h => h.1.trans hc

theorem normal_of_unroll (h : m.Covers .unroll c t) : m = .normal :=
  h.elim id fun h => h.2.elim

theorem beta {b : Binder} {x : String} (h : m.Covers .apply c (.app (.lam b x t) a)) :
    m.contracts b.recursive = true ∧ m.Covers .reduce (c.afterBeta b x t a) t' := by
  rcases h with rfl | ⟨hm, hdone, hb⟩
  · exact ⟨rfl, .inl rfl⟩
  · subst hdone
    refine ⟨?_, .inr ⟨?_, trivial⟩⟩
    · rw [hb b x t a rfl]
      rfl
    · show _ = c.mode.afterApplication
      rw [← hm]
      rfl

end Mode.Covers

/-! ### Runs follow the rules -/

/-- A task that starts from something without names of `S` follows the rules, if all
other names agree with them, and ends with something without names of `S`. -/
theorem Runs.attains {S : Set String} (hT : ∀ d, T d → d.Agrees R s S) {m : Mode}
    (hbeta : ∀ r x u v, m.contracts r = true → R (.app (.lam r x u) v) none (u.instantiate v))
    {task : Task} {c : Circumstance} {t : Term} {e e' : Effects} {r : Placed}
    (h : Runs s task c t e r e') (ht : Poised R T Γ c.place e.next t) (hS : t.Avoids S)
    (hm : m.Covers task c t) : Attains R T Γ t e r e' ∧ r.1.Avoids S := by
  induction h generalizing Γ with
  | stay _ => exact ⟨.refl ht, hS⟩
  | unbound _ => exact ⟨.refl ht, hS⟩
  | @unfold c x body e r e' hbody _ ih =>
    rw [Place.lookUp_eq] at hbody
    obtain ⟨d, hd, rfl⟩ := Option.map_eq_some_iff.mp hbody
    have hagrees := hT _ (ht.kept.here ht.links)
    have hscoped := hagrees.links x d hd
    obtain ⟨hdelta, havoids⟩ := hagrees.names x d hd hS
    -- the copy reads as the body, which is closed and so reads the same here
    obtain ⟨hlinks, hread⟩ := Term.nameless_copy (hscoped.mono (List.nil_subset Γ))
      fun b hb => (ht.apart b hb).1
    have hstep : Steps R (.free x) [] ((d.body.copy e.next).1.nameless Γ) := by
      rw [hread, ← List.nil_append Γ, Term.nameless_append hscoped]
      exact .single (.root hdelta)
    obtain ⟨hattains, hS'⟩ := ih (ht.leave (Term.grown_copy (.ref x .free) d.body e.next) hlinks)
      ((d.body.avoids_copy _).mpr havoids) (hm.reduce rfl)
    exact ⟨hattains.head (e.lines_made _) hstep, hS'⟩
  | @lam c b x t e t' p e' _ ih =>
    obtain ⟨⟨hlinks, -, printed, hlines, hsteps⟩, hS'⟩ := ih ht.body hS (hm.reduce rfl)
    have hsteps' := hsteps.lam b.recursive x
    exact ⟨⟨hlinks, ht.kept.of_conv (.of_steps hsteps'), printed, hlines, hsteps'⟩, hS'⟩
  | @app c f a e f' p e₁ a' q e₂ r e₃ _ h₁ h₂ _ ihf iha ih =>
    obtain ⟨hf, hSf⟩ := ihf ht.fn hS.1 (hm.reduce rfl)
    -- the right side is reduced where the left side is done already
    have hfn := ht.fnDone (h₁.grown ht.tidy.fn) hf.links hf.conv
    obtain ⟨ha, hSa⟩ := iha hfn.arg hS.2 (hm.reduce rfl)
    have harg := hfn.argDone (h₂.grown hfn.tidy.arg) ha.links ha.conv
    obtain ⟨happ, hSr⟩ := ih harg ⟨hSf, hSa⟩ (hm.application rfl)
    obtain ⟨printed, hlines, hsteps⟩ := hf.steps
    obtain ⟨printed', hlines', hsteps'⟩ := ha.steps
    have hsides : Steps R ((Term.app f a).nameless Γ) (printed ++ printed')
        ((Term.app f' a').nameless Γ) := hsteps.app hsteps'
    refine ⟨happ.head ?_ hsides, hSr⟩
    rw [hlines', hlines, List.append_assoc]
  | held _ => exact ⟨.refl ht, hS⟩
  | contract hmode hrec _ ih => exact ih ht hS (hm.contract hmode hrec)
  | recur hrecurs h₁ h₂ _ ih₁ ih₂ ih₃ =>
    -- only mode `normal` gets here, so the modes in between are of no account
    have hnormal := hm.normal_of_recur hrecurs.mode
    obtain ⟨hf₁, hS₁⟩ := ih₁ ht hS (.inl hnormal)
    have ht₁ := hf₁.poised ht (h₁.grown ht.tidy)
    obtain ⟨hf₂, hS₂⟩ := ih₂ ht₁ hS₁ (.inl hnormal)
    obtain ⟨hf₃, hS₃⟩ := ih₃ (hf₂.poised ht₁ (h₂.grown ht₁.tidy)) hS₂ (.inl hnormal)
    exact ⟨(hf₁.trans hf₂).trans hf₃, hS₃⟩
  | @beta c b x t a e r e' _ ih =>
    obtain ⟨hcontracts, hcovers⟩ := hm.beta
    obtain ⟨hbody, hstep⟩ := ht.beta fun _ _ => hbeta _ _ _ _ hcontracts
    obtain ⟨hattains, hS'⟩ := ih hbody (hS.1.subst hS.2 b e.next) hcovers
    exact ⟨hattains.head (e.lines_made _) hstep, hS'⟩
  | @act c x l a e line hexec hname hline =>
    -- whatever the reference belongs to, it is written as `x`
    have hhead : Nameless.IsReference x ((Term.ref x l).nameless Γ) := by
      cases l <;> rfl
    have hrule := (hT _ (ht.kept.here ht.links)).actions hexec Γ a line ht.links.2 hline x _
      hname hhead
    have hidentity : (Term.identity e.next).1.nameless Γ = Nameless.identity := by
      show Nameless.lam false "x" (.bound (List.idxOf _ (_ :: Γ)) "x") = _
      rw [List.idxOf_cons_self]
      rfl
    refine ⟨⟨List.mem_cons_self, ht.kept.leave ht.links _, [line], rfl, ?_⟩, trivial⟩
    rw [hidentity]
    exact .single (.root hrule)
  | ignored _ => exact ⟨.refl ht, hS⟩
  | rest _ => exact ⟨.refl ht, hS⟩
  | @inner c f a arg e fn p e₁ r e₂ _ h₁ _ ih₁ ih₂ =>
    have hnormal := hm.normal_of_unroll
    obtain ⟨hfn, hSfn⟩ := ih₁ ht.fn hS.1 (.inl hnormal)
    obtain ⟨hrest, hSr⟩ := ih₂ (ht.fnDone (h₁.grown ht.tidy.fn) hfn.links hfn.conv)
      ⟨hSfn, hS.2⟩ (.inl hnormal)
    obtain ⟨printed, hlines, hsteps⟩ := hfn.steps
    have hsides : Steps R ((Term.app (.app f a) arg).nameless Γ) printed
        ((Term.app fn arg).nameless Γ) := hsteps.map (.fn (arg.nameless Γ))
    exact ⟨hrest.head hlines hsides, hSr⟩
  | outer _ h₁ _ ih₁ ih₂ =>
    have hnormal := hm.normal_of_unroll
    obtain ⟨hf₁, hS₁⟩ := ih₁ ht hS (.inl hnormal)
    obtain ⟨hf₂, hS₂⟩ := ih₂ (hf₁.poised ht (h₁.grown ht.tidy)) hS₁ (.inl hnormal)
    exact ⟨hf₁.trans hf₂, hS₂⟩

/-- The case in which no name is avoided. -/
theorem Runs.follows {m : Mode}
    (hbeta : ∀ r x u v, m.contracts r = true → R (.app (.lam r x u) v) none (u.instantiate v))
    {task : Task} {c : Circumstance} {t : Term} {e e' : Effects} {r : Placed}
    (h : Runs s task c t e r e') (ht : Ready R s Γ c.place e.next t) (hm : m.Covers task c t) :
    Follows R s Γ t e r e' :=
  (h.attains (fun _ hd => hd) hbeta ht t.avoids_empty hm).1

end LambdaScript
