/-
LambdaScript/Proofs/Broken.lean

A definition that fails keeps its meaning.

A definition is bound before it is reduced, and it is reduced inside the table; when
the reduction fails, the table holds the body as far as it has come, sides of
applications reduced or not, functions applied and still standing before their
arguments.  Main result: `broken_definition_means`.  Whatever is left is convertible
to what was written, by applying functions and unfolding *other* definitions.

That the definition itself is never unfolded on the way is the point to be argued.
A reference to it may well be there, and be unfolded while the body is reduced.  But
the names that lead to the definition lead in a circle, and a reduction that comes to
an end has met none of them (`Runs.avoids`).  What has been done to the body is the
work of reductions that have come to an end: where one fails, in a part of the body or
in a copy of something else, the body is left as it was before (`Breaks.kept`).
-/
import LambdaScript.Proofs.Agreement
import LambdaScript.Proofs.Circles
import LambdaScript.Proofs.Framing
import LambdaScript.Proofs.Sessions

namespace LambdaScript

open Nameless (Rules Unfolding BetaDelta Conv)

/-! ### What is left by a failure -/

/-- A failure outside of all definitions leaves them as they are. -/
theorem Breaks.table_eq {s : Setting} {task : Task} {c : Circumstance} {t : Term} {e e' : Effects}
    {err : Failure} (h : Breaks s task c t e err e') (hleft : c.place.site = none) :
    err.table = c.place.table := by
  obtain ⟨u, hu⟩ := h.within
  rw [hu, Place.definitions, hleft]

/-- The place is part of no definition, or the names of `S` lead in a circle there. -/
def Place.Closes (S : Set String) (p : Place) : Prop :=
  p.site = none ∨ p.Circular S

theorem Place.Closes.down {S : Set String} {p : Place} (h : p.Closes S) (f : Frame) :
    (p.down f).Closes S :=
  h.imp Option.map_eq_none_iff.mpr fun hc => hc.down f

/-- An expression under reduction, at a place that keeps `T` and closes on `S`. -/
structure Underway (R : Rules String) (T : Table → Prop) (S : Set String) (Γ : List Binder)
    (p : Place) (next : Nat) (t : Term) : Prop where
  poised : Poised R T Γ p next t
  plain : p.Plain true
  closes : p.Closes S

section Kept

variable {R : Rules String} {T : Table → Prop} {S : Set String} {s : Setting} {Γ : List Binder}

namespace Underway

variable {p : Place} {next next' : Nat} {t t' f f' a : Term} {b : Binder} {x : String}

theorem plain_term (h : Underway R T S Γ p next t) : t.Plain true :=
  h.poised.links.plain (fun _ _ _ => rfl) fun _ _ _ => rfl

theorem here (h : Underway R T S Γ p next t) : T (p.definitions t) :=
  h.poised.kept.here h.poised.links

theorem table_of_left (h : Underway R T S Γ p next t) (hleft : p.site = none) : T p.table := by
  have hhere := h.here
  rw [Place.definitions, hleft] at hhere
  exact hhere

theorem fn (h : Underway R T S Γ p next (.app f a)) :
    Underway R T S Γ (p.down (.function a)) next f :=
  ⟨h.poised.fn, h.plain.fn h.plain_term.2, h.closes.down _⟩

theorem arg (h : Underway R T S Γ p next (.app f a)) :
    Underway R T S Γ (p.down (.argument f)) next a :=
  ⟨h.poised.arg, h.plain.arg h.plain_term.1, h.closes.down _⟩

theorem body (h : Underway R T S Γ p next (.lam b x t)) :
    Underway R T S (b :: Γ) (p.down (.body b x)) next t :=
  ⟨h.poised.body, h.plain.body h.plain_term, h.closes.down _⟩

theorem beta {c : Circumstance} (h : Underway R T S Γ c.place next (.app (.lam b x t) a))
    (hbeta : ∀ r x u v, R (.app (.lam r x u) v) none (u.instantiate v)) :
    Underway R T S Γ (c.afterBeta b x t a).place (t.subst b a next).2 (t.subst b a next).1 := by
  refine ⟨(h.poised.beta fun u v => hbeta _ _ u v).1, h.plain.afterBeta h.plain_term, ?_⟩
  show Place.Closes S (if t.isArgumentOf b then _ else _)
  split
  · exact .inl rfl
  · exact (h.closes.down _).down _

end Underway

variable (hT : ∀ d, T d → d.Agrees R s S)
  (hbeta : ∀ r x u v, R (.app (.lam r x u) v) none (u.instantiate v))
  {task : Task} {c : Circumstance} {t : Term} {e e' : Effects}

include hT hbeta

/-- What a task ends with that has started from something without names of `S`. -/
theorem Underway.ran {r : Placed} (h : Underway R T S Γ c.place e.next t)
    (hrun : Runs s task c t e r e') (hS : t.Avoids S) :
    Underway R T S Γ r.2 e'.next r.1 ∧ r.1.Avoids S ∧
      Conv R (t.nameless Γ) (r.1.nameless Γ) := by
  obtain ⟨hattains, hS'⟩ := hrun.attains (m := .normal) hT (fun r x u v _ => hbeta r x u v)
    h.poised hS (.inl rfl)
  refine ⟨⟨hattains.poised h.poised (hrun.grown h.poised.tidy),
    (hrun.plain h.plain h.plain_term).2, ?_⟩, hS', hattains.conv⟩
  exact hrun.place (P := Place.Closes S) (fun _ f hp => hp.down f) (fun _ _ _ => .inl rfl) h.closes

variable {c₁ : Circumstance} {p q : Place} {f f' a a' : Term}

theorem Underway.fnRan (h : Underway R T S Γ p e.next (.app f a))
    (hrun : Runs s task c₁ f e (f', q) e') (hc₁ : c₁.place = p.down (.function a))
    (hS : f.Avoids S) : Underway R T S Γ p e'.next (.app f' a) ∧ f'.Avoids S := by
  have hfn : Underway R T S Γ c₁.place e.next f := hc₁ ▸ h.fn
  obtain ⟨hran, hS', hconv⟩ := hfn.ran hT hbeta hrun hS
  have hpoised := h.poised.fnDone (hrun.grown hfn.poised.tidy) hran.poised.links hconv
  exact ⟨⟨hpoised, h.plain, h.closes⟩, hS'⟩

theorem Underway.argRan (h : Underway R T S Γ p e.next (.app f a))
    (hrun : Runs s task c₁ a e (a', q) e') (hc₁ : c₁.place = p.down (.argument f))
    (hS : a.Avoids S) : Underway R T S Γ p e'.next (.app f a') ∧ a'.Avoids S := by
  have harg : Underway R T S Γ c₁.place e.next a := hc₁ ▸ h.arg
  obtain ⟨hran, hS', hconv⟩ := harg.ran hT hbeta hrun hS
  have hpoised := h.poised.argDone (hrun.grown harg.poised.tidy) hran.poised.links hconv
  exact ⟨⟨hpoised, h.plain, h.closes⟩, hS'⟩

/-- A task that fails leaves definitions that satisfy `T`.  Nothing is asked of an
expression to be reduced: the parts of it that have been reduced to an end show by this
that they have been without names of `S`. -/
theorem Breaks.kept {err : Failure} (h : Breaks s task c t e err e')
    (ht : Underway R T S Γ c.place e.next t) (hS : task ≠ .reduce → t.Avoids S) :
    T err.table := by
  induction h generalizing Γ with
  | tooDeep _ => exact ht.here
  | unfold _ h₁ _ =>
    -- the failure of a copy leaves the definitions as they were when it was made
    rw [h₁.table_eq rfl]
    exact ht.here
  | lam _ ih => exact ih ht.body nofun
  | fn _ _ ih => exact ih ht.fn nofun
  | arg _ h₁ h₂ ih =>
    rcases ht.closes with hleft | hcirc
    · rw [h₂.table_eq (Option.map_eq_none_iff.mpr hleft)]
      exact ht.table_of_left hleft
    · have hSf := h₁.avoids rfl (hcirc.down _) ht.fn.plain ht.fn.plain_term
      exact ih (ht.fnRan hT hbeta h₁ rfl hSf).1.arg nofun
  | app _ h₁ h₂ h₃ ih =>
    rcases ht.closes with hleft | hcirc
    · rw [h₃.table_eq hleft]
      exact ht.table_of_left hleft
    · have hSf := h₁.avoids rfl (hcirc.down _) ht.fn.plain ht.fn.plain_term
      obtain ⟨hfn, hSf'⟩ := ht.fnRan hT hbeta h₁ rfl hSf
      have hSa := h₂.avoids rfl (hcirc.down _) hfn.arg.plain hfn.arg.plain_term
      obtain ⟨harg, hSa'⟩ := hfn.argRan hT hbeta h₂ rfl hSa
      exact ih harg fun _ => ⟨hSf', hSa'⟩
  | stumble _ => exact ht.here
  | contract _ _ _ ih => exact ih ht fun _ => hS nofun
  | recurUnroll _ _ ih => exact ih ht fun _ => hS nofun
  | recurApply _ h₁ _ ih =>
    obtain ⟨ht₁, hS₁, -⟩ := ht.ran hT hbeta h₁ (hS nofun)
    exact ih ht₁ fun _ => hS₁
  | recurReduce _ h₁ h₂ _ ih =>
    obtain ⟨ht₁, hS₁, -⟩ := ht.ran hT hbeta h₁ (hS nofun)
    obtain ⟨ht₂, -, -⟩ := Underway.ran hT hbeta ht₁ h₂ hS₁
    exact ih ht₂ nofun
  | nothingToApply => exact ht.here
  | notAnApplication _ _ => exact ht.here
  | beta _ ih => exact ih (ht.beta hbeta) nofun
  | act _ _ _ => exact ht.here
  | puzzle _ => exact ht.here
  | inner _ _ ih => exact ih ht.fn fun _ => (hS nofun).1
  | innerRest _ h₁ _ ih =>
    obtain ⟨hfn, hSfn⟩ := ht.fnRan hT hbeta h₁ rfl (hS nofun).1
    exact ih hfn fun _ => ⟨hSfn, (hS nofun).2⟩
  | outer _ _ ih => exact ih ht fun _ => hS nofun
  | @outerRest c _ _ _ _ _ _ _ _ _ _ _ h₁ _ ih =>
    obtain ⟨ht₁, hS₁, -⟩ :=
      Underway.ran hT hbeta (c := c.inMode .applyRecursive) ht h₁ (hS nofun)
    exact ih ht₁ fun _ => hS₁

end Kept

/-! ### Definitions -/

namespace Term

/-- Some part of the expression is missing. -/
def hasMissing : Term → Bool
  | missing => true
  | app f a => f.hasMissing || a.hasMissing
  | lam _ _ t => t.hasMissing
  | _ => false

/-- A formed expression without missing parts is scoped. -/
theorem Formed.scoped {t : Term} {Γ : List Binder} (h : t.Formed Γ) (ht : t.hasMissing = false) :
    t.Scoped Γ := by
  induction t generalizing Γ with
  | missing => cases ht
  | foreign => exact h
  | app f a ihf iha =>
    obtain ⟨hf, ha⟩ := Bool.or_eq_false_iff.mp ht
    exact ⟨ihf h.1 hf, iha h.2 ha⟩
  | lam b x t ih => exact ih h.2 ht
  | ref x l =>
    cases l with
    | free => trivial
    | binder b => exact h
    | reference k own => exact h
    | endless => exact h

end Term

namespace Table

/-- The definitions agree with the rules, except for names of `S`, and `a` is bound to
something convertible to `t`. -/
structure Continues (R : Rules String) (s : Setting) (S : Set String) (a : String) (t : Term)
    (d : Table) : Prop where
  agrees : d.Agrees R s S
  bound : ∃ body, d.find? a = some ⟨a, body⟩ ∧ body.Scoped [] ∧
    Conv R (t.nameless []) (body.nameless [])

variable {d : Table} {a x : String} {t : Term}

theorem find?_without_of_ne (hx : x ≠ a) (d : Table) : (d.without a).find? x = d.find? x := by
  show (d.toList.filter _).find? _ = _
  rw [List.find?_filter, find?]
  congr 1
  funext e
  by_cases he : e.name = x
  · simp [he, hx]
  · simp [he]

/-- While `a` is reduced in its place, from `t` on, the other definitions agree with
what they say themselves, except for those that lead to `a`. -/
theorem keeps_whole (hd : ∀ e ∈ d.toList, e.body.Scoped []) {s : Setting}
    (hs : s.execute = false) :
    (Place.whole (d.bind a t) a).Keeps (BetaDelta (d.without a).unfolding)
      (·.Continues (BetaDelta (d.without a).unfolding) s (d.circle a) a t) [] t := by
  intro u hu hconv
  rw [Place.definitions_whole, bind_bind]
  refine ⟨⟨?_, ?_, ?_⟩, u, d.find?_bind_self a u, hu, hconv⟩
  · intro x e he
    by_cases hxa : x = a
    · rw [hxa, find?_bind_self] at he
      cases he
      exact hu
    · rw [find?_bind_of_ne hxa] at he
      exact hd e (List.mem_of_find?_eq_some he)
  · intro x e he hx
    have hxa : x ≠ a := fun h => hx (h ▸ .here)
    rw [find?_bind_of_ne hxa] at he
    have hdelta : (d.without a).unfolding x = some (e.body.nameless []) :=
      unfolding_eq_some (by rw [find?_without_of_ne hxa, he])
    exact ⟨.delta hdelta, avoids_circle he hx⟩
  · intro hexec
    rw [hs] at hexec
    cases hexec

end Table

/-- **A definition that fails keeps its meaning.**  Let a program be run in a session in
which no definition lacks anything, and let the next entry be the definition of `a` by
`t`, which fails with an error that does not end the session.  Then `a` is bound
afterwards, to a well-scoped expression, and this is convertible to `t`, which is
well scoped too, by applying functions and unfolding definitions of other names. -/
theorem broken_definition_means {s s₁ s₂ : Session} {a : String} {t : Term} {err : SessionError}
    (hs : s.Amid) (hwhole : ∀ e ∈ s.table.toList, e.body.hasMissing = false)
    (hread : Act.parse Parse.entry s = .ok (.define a t true) s₁)
    (hfails : Act.perform (.define a t true) s₁ = .error err s₂) (hgoes : err.isFatal = false) :
    t.WellScoped ∧ ∃ body, s₂.table.find? a = some ⟨a, body⟩ ∧ body.WellScoped ∧
      Conv (BetaDelta (s.table.without a).unfolding) (t.nameless []) (body.nameless []) := by
  obtain ⟨r, hr, rfl⟩ := Act.parse_eq_ok hread
  have hentry := Parse.entry_eq_ok hr
  have hperformed := Act.performed_of_error hfails
  have hsound : s₂.table.WellFormed s₂.reading.next := hperformed.sound hs.sound hentry
  have hd : ∀ e ∈ s.table.toList, e.body.Scoped [] := fun e he =>
    (hs.sound.formed e he).scoped (hwhole e he)
  cases hperformed with
  | @broken _ _ f e hreduction =>
    have hbreaks := breaks_of_reduce hreduction
    rcases hentry.body with ⟨hmissing, -⟩ | hread
    · -- what is missing can only be too deep
      obtain rfl : t = .missing := hmissing
      cases hbreaks with
      | tooDeep _ => cases hgoes
    · have hlinks : t.Scoped [] := hread.lexical.scoped
      have htidy : t.Tidy r.next := (hread.grown .missing).tidy ⟨List.nodup_nil, nofun⟩
      have hplain : (Place.outside (s.table.bind a t)).Plain true := by
        apply Table.plain_outside
        intro e he
        rcases Table.mem_bindIn he with rfl | he
        · exact hlinks.plain_true
        · exact (hd e he).plain_true
      have hkept := hbreaks.kept (fun d hd' => hd'.agrees) (fun r x u v => .beta r x u v)
        ⟨⟨hlinks, htidy, fun _ hb => absurd hb List.not_mem_nil, Table.keeps_whole hd rfl⟩,
          plain_whole hplain a, .inr (circular_whole s.table a t)⟩ nofun
      obtain ⟨body, hbody, hscoped, hconv⟩ := hkept.bound
      have hnodup := (hsound.tidy _ (List.mem_of_find?_eq_some hbody)).nodup
      exact ⟨⟨hlinks, htidy.nodup⟩, body, hbody, ⟨hscoped, hnodup⟩, hconv⟩

/-- In `def a ([x. x q] i ([$f. f] q))` the left side has become `i q` when the right side
fails. -/
theorem broken_definition_means_half :
    let text := "def a ([x. x q] i ([$f. f] q))".toList
    let s := Outcome.after (Act.takeUp text) (Session.starting ⟨50, 50⟩)
    let s₁ := Outcome.after (Act.parse Parse.entry) s
    let f : Term := .lam ⟨1, true⟩ "f" (.ref "f" (.binder ⟨1, true⟩))
    let x : Term := .app (.ref "x" (.binder ⟨0, false⟩)) (.ref "q" .free)
    let t : Term := .app (.app (.lam ⟨0, false⟩ "x" x) (.ref "i" .free)) (.app f (.ref "q" .free))
    let body : Term := .app (.app (.ref "i" .free) (.ref "q" .free)) (.app f (.ref "q" .free))
    let s₂ := Outcome.after (Act.perform (.define "a" t true)) s₁
    s₂.table.find? "a" = some ⟨"a", body⟩ ∧ body.WellScoped ∧
      Conv (BetaDelta (s.table.without "a").unfolding) (t.nameless []) (body.nameless []) := by
  intro text s s₁ f x t body s₂
  have hs : s.Amid := .begun text (.starting _)
  have hread : Outcome.verdict (Act.parse Parse.entry) s = .ok (.define "a" t true) := by
    decide +kernel
  have hfails : Outcome.verdict (Act.perform (.define "a" t true)) s₁
      = .error (.fault .notAnApplication) := by decide +kernel
  have hbody : s₂.table.find? "a" = some ⟨"a", body⟩ := by decide +kernel
  obtain ⟨-, body', hbody', hscoped, hconv⟩ := broken_definition_means hs nofun
    (Outcome.eq_ok_of_verdict hread) (Outcome.eq_error_of_verdict hfails) rfl
  rw [hbody] at hbody'
  cases hbody'
  exact ⟨hbody, hscoped, hconv⟩

end LambdaScript
