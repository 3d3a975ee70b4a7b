/-
LambdaScript/Proofs/Unrolling.lean

What can go wrong when recursive functions are applied.

In mode `normal` the application of a recursive function is unrolled until it is no
longer recursive, and then it is applied once more.  But it may be no application any
longer: `[$f. f] q` unrolls to `q`.  Applying that is a fault, and an expression as
simple as this one cannot be reduced.

Apart from depth, this is the only thing that can go wrong with an expression that has
been read (`Breaks.overrun`).  Everything under reduction stays plain, so every question
about it has an answer; and what is applied is an application, except at the one point
after an unrolling.  Without recursive functions nothing is unrolled.

Main result: `reduce_normal_faults`.
-/
import LambdaScript.Proofs.Broken

namespace LambdaScript

/-! ### Questions -/

namespace Term.Plain

variable {marked : Bool} {t : Term}

theorem containsRecursive_eq (h : t.Plain marked) (trail : Trail) :
    ∃ r, t.containsRecursive trail = .ok r := by
  induction t with
  | missing => exact h.elim
  | foreign => exact h.elim
  | app f a ihf iha =>
    obtain ⟨rf, hf⟩ := ihf h.1
    rw [containsRecursive, hf]
    cases rf with
    | true => exact ⟨true, rfl⟩
    | false => exact iha h.2
  | lam b x t ih =>
    rw [containsRecursive]
    split
    · exact ⟨true, rfl⟩
    · exact ih h.2
  | ref x l =>
    cases l with
    | free => exact ⟨_, rfl⟩
    | binder b =>
      rw [containsRecursive, Link.isRecursive]
      cases b.recursive <;> exact ⟨_, rfl⟩
    | reference k own => exact h.elim
    | endless => exact h.elim

theorem unrolls_eq (h : t.Plain marked) : ∃ r, t.unrolls = .ok r := by
  cases t with
  | app f a =>
    obtain ⟨rf, hf, -⟩ := h.1.isRecursive_eq
    simp only [unrolls, hf]
    cases rf with
    | false => exact ⟨false, rfl⟩
    | true =>
      cases f with
      | app g b => cases g <;> exact ⟨_, rfl⟩
      | _ => exact ⟨_, rfl⟩
  | _ => exact ⟨false, rfl⟩

/-- All questions about the application of plain expressions have answers. -/
theorem not_stumbles {c : Circumstance} {f a : Term} {fault : Fault}
    (h : (app f a).Plain marked) : ¬ c.Stumbles f a fault := by
  obtain ⟨recursive, hrecursive, -⟩ := h.1.isRecursive_eq
  obtain ⟨contains, hcontains⟩ := h.2.containsRecursive_eq c.trail
  obtain ⟨unrolls, hunrolls⟩ := h.unrolls_eq
  rintro (⟨-, hfault⟩ | ⟨-, -, hfault | ⟨-, hfault⟩⟩)
  · cases hrecursive.symm.trans hfault
  · cases hcontains.symm.trans hfault
  · cases hunrolls.symm.trans hfault

end Term.Plain

/-! ### Faults -/

/-- The failures of applying what is no application, after it has been unrolled. -/
inductive Overrun (s : Setting) : Failure → Effects → Prop
  | intro {c f a e t p e'} : c.Recurs f a → Runs s .unroll c (.app f a) e (t, p) e' →
      t.isApp = false →
      Overrun s (((c.moved p).inMode .doneRecursive).failure t .notAnApplication) e'

theorem Overrun.fault_eq {s : Setting} {err : Failure} {e : Effects} (h : Overrun s err e) :
    err.fault = .notAnApplication := by
  cases h
  rfl

/-- Nothing recurs where no function is recursive. -/
theorem Circumstance.Recurs.marked {c : Circumstance} {f a : Term} {marked : Bool}
    (h : c.Recurs f a) (hf : f.Plain marked) : marked = true := by
  obtain ⟨recursive, hrecursive, hmarked⟩ := hf.isRecursive_eq
  cases hrecursive.symm.trans h.recursive
  exact hmarked rfl

/-- A task that fails with a plain expression has come too deep or has unrolled too far.  What
is to be applied has to be an application; this is known everywhere but after an unrolling. -/
theorem Breaks.overrun {s : Setting} {task : Task} {c : Circumstance} {t : Term} {e e' : Effects}
    {err : Failure} (h : Breaks s task c t e err e') {marked : Bool} (hp : c.place.Plain marked)
    (ht : t.Plain marked) (happly : task = .apply → t.isApp = true) :
    err.fault = .tooDeep ∨ marked = true ∧ Overrun s err e' := by
  induction h with
  | tooDeep _ => exact .inl rfl
  | @unfold c x body e err e' hbody _ ih =>
    exact ih (hp.leave ht) ((hp _ ht x body hbody).copy e.next) nofun
  | lam _ ih => exact ih (hp.body ht) ht.2 nofun
  | fn _ _ ih => exact ih (hp.fn ht.2) ht.1 nofun
  | arg _ hf _ ih => exact ih (hp.arg (hf.plain (hp.fn ht.2) ht.1).1) ht.2 nofun
  | app _ hf ha _ ih =>
    have hpf := (hf.plain (hp.fn ht.2) ht.1).1
    have hpa := (ha.plain (hp.arg hpf) ht.2).1
    exact ih hp ⟨hpf, hpa⟩ nofun
  | stumble hstumbles => exact absurd hstumbles ht.not_stumbles
  | contract _ _ _ ih => exact ih hp ht fun _ => rfl
  | recurUnroll _ _ ih => exact ih hp ht nofun
  | @recurApply c f a e t₁ p₁ e₁ err e' hrecurs hunroll hfails ih =>
    have h₁ := hunroll.plain hp ht
    rcases happ : t₁.isApp with - | -
    · refine .inr ⟨hrecurs.marked ht.1, ?_⟩
      cases hfails with
      | tooDeep htask => rcases htask with htask | htask <;> cases htask
      | nothingToApply => exact h₁.1.elim
      | notAnApplication _ _ => exact .intro hrecurs hunroll happ
      | beta _ => cases happ
      | act _ _ _ => cases happ
    · exact ih h₁.2 h₁.1 fun _ => happ
  | recurReduce _ hunroll hdone _ ih =>
    have h₁ := hunroll.plain hp ht
    have h₂ := hdone.plain h₁.2 h₁.1
    exact ih h₂.2 h₂.1 nofun
  | nothingToApply => exact ht.elim
  | @notAnApplication c t e _ hnot =>
    cases t with
    | app f a => exact absurd rfl (hnot f a)
    | _ => cases happly rfl
  | beta _ ih => exact ih (hp.afterBeta ht) (ht.1.2.subst ht.2 _ _) nofun
  | @act c x l a e fault _ _ hfault =>
    obtain ⟨line, hline⟩ := ht.2.announce_eq (c.place.definitions (.app (.ref x l) a)) s.display
    cases hline.symm.trans hfault
  | puzzle hfault =>
    obtain ⟨unrolls, hunrolls⟩ := ht.unrolls_eq
    cases hunrolls.symm.trans hfault
  | inner _ _ ih => exact ih (hp.fn ht.2) ht.1 fun _ => rfl
  | innerRest _ hinner _ ih => exact ih hp ⟨(hinner.plain (hp.fn ht.2) ht.1).1, ht.2⟩ nofun
  | outer _ _ ih => exact ih hp ht fun _ => rfl
  | @outerRest c _ _ _ _ _ _ _ _ _ _ _ houter _ ih =>
    have h₁ := Runs.plain (c := c.inMode .applyRecursive) houter hp ht
    exact ih h₁.2 h₁.1 nofun

/-- A recursive function that is held back by nothing is unrolled, and then applied. -/
theorem reduceApplicationWith_recurs {again : Reducer} {s : Setting} {c : Circumstance}
    {f a : Term} (h : c.Recurs f a) (e : Effects) :
    reduceApplicationWith again s c f a e = (do
      let (t₁, p₁) ← unrollWith again s s.rounds c (.app f a)
      let (t₂, p₂) ← applyWith again s ((c.moved p₁).inMode .doneRecursive) t₁
      again ((c.moved p₂).inMode .normal) t₂) e := by
  have hask {b : Bool} {answer : Except Fault Bool} (hb : answer = .ok b) :
      c.ask (.app f a) answer e = .ok b e := by
    rw [hb]
    rfl
  unfold reduceApplicationWith
  simp only [h.mode]
  rw [Outcome.bind_of_ok (hask h.recursive), if_pos rfl, Outcome.bind_of_ok (hask h.contains),
    if_neg (by decide), Outcome.bind_of_ok (hask h.unrolls), if_pos rfl]

/-- Where an unrolling ends with something that is no application, the application that has
been unrolled fails. -/
theorem reduceApplicationWith_overrun {again : Reducer} {s : Setting} {c : Circumstance}
    {f a t : Term} {p : Place} {e e' : Effects} (h : c.Recurs f a)
    (hunroll : unrollWith again s s.rounds c (.app f a) e = .ok (t, p) e') (ht : t ≠ .missing)
    (happ : t.isApp = false) :
    reduceApplicationWith again s c f a e
      = .error (((c.moved p).inMode .doneRecursive).failure t .notAnApplication) e' := by
  rw [reduceApplicationWith_recurs h, Outcome.bind_of_ok hunroll]
  cases t with
  | missing => exact absurd rfl ht
  | app g b => cases happ
  | _ => rfl

/-! ### Expressions that have been read -/

/-- What is found outside of the definitions or in the body of one of them is plain. -/
theorem plain_at {marked : Bool} {d : Table} {t : Term} {p : Place}
    (hd : ∀ e ∈ d.toList, e.body.Plain marked) (ht : t.Plain marked)
    (hp : p = .outside d ∨ ∃ a, p = .whole (d.bind a t) a) : p.Plain marked := by
  rcases hp with rfl | ⟨a, rfl⟩
  · exact Table.plain_outside hd
  · refine plain_whole (Table.plain_outside fun e he => ?_) a
    rcases Table.mem_bindIn he with rfl | he
    · exact ht
    · exact hd e he

/-- **Faults of reduction.**  Let an expression have been read, and let no definition of a
session lack anything.  Let the expression be reduced in mode `normal`, outside of the
definitions or as the body of one of them, with actions executed or not.

* If this fails, it has gone too deep, or it has applied what was no application any longer
  after an unrolling.
* If there are no recursive functions, the second does not occur.
* Whenever an unrolling ends like this, the application fails. -/
theorem reduce_normal_faults {r r' : Reading} {t : Term} {σ : Session} {p : Place}
    (hread : Parse.expression r = .ok t r') (hσ : σ.Amid)
    (hwhole : ∀ e ∈ σ.table.toList, e.body.hasMissing = false)
    (hp : p = .outside σ.table ∨ ∃ a, p = .whole (σ.table.bind a t) a)
    (s : Setting) (depth : Nat) (trail : Trail) (e : Effects) :
    (∀ err e', reduce s depth ⟨.normal, p, trail⟩ t e = .error err e' →
      err.fault = .tooDeep ∨ err.fault = .notAnApplication ∧ Overrun s err e') ∧
    (t.Unmarked → σ.table.Unmarked →
      ∀ err e', reduce s depth ⟨.normal, p, trail⟩ t e = .error err e' → err.fault = .tooDeep) ∧
    (∀ {c f a t₁ p₁ e₀ e₁}, c.Recurs f a →
      unrollWith (reduce s depth) s s.rounds c (.app f a) e₀ = .ok (t₁, p₁) e₁ →
      t₁ ≠ .missing → t₁.isApp = false → ∃ err,
        reduceApplicationWith (reduce s depth) s c f a e₀ = .error err e₁ ∧
        err.fault = .notAnApplication) := by
  have hscoped : ∀ x ∈ σ.table.toList, x.body.Scoped [] := fun x hx =>
    (hσ.sound.formed x hx).scoped (hwhole x hx)
  have hfaults : ∀ {marked}, (t.Scoped [] → t.Plain marked) →
      (∀ x ∈ σ.table.toList, x.body.Plain marked) →
      ∀ err e', reduce s depth ⟨.normal, p, trail⟩ t e = .error err e' →
        err.fault = .tooDeep ∨ marked = true ∧ Overrun s err e' := by
    intro marked ht hd err e' h
    have hbreaks := breaks_of_reduce h
    rcases Parse.reads_expression hread with ⟨rfl, -⟩ | hread
    · -- what is missing can only be too deep
      cases hbreaks with
      | tooDeep _ => exact .inl rfl
    · have hplain := ht hread.lexical.scoped
      exact hbreaks.overrun (plain_at hd hplain hp) hplain nofun
  refine ⟨?_, ?_, fun hrecurs hunroll hmissing happ =>
    ⟨_, reduceApplicationWith_overrun hrecurs hunroll hmissing happ, rfl⟩⟩
  · intro err e' h
    have hfault := hfaults Term.Scoped.plain_true (fun x hx => (hscoped x hx).plain_true) err e' h
    exact hfault.imp_right fun hover => ⟨hover.2.fault_eq, hover.2⟩
  · intro htu hdu err e' h
    have hfault := hfaults (fun ht => ht.plain_false htu)
      (fun x hx => (hscoped x hx).plain_false (hdu x hx)) err e' h
    exact hfault.resolve_right fun hover => nomatch hover.1

/-- `[$f. f] q` unrolls to `q`, which is applied then. -/
theorem reduce_normal_faults_identity :
    let σ := Outcome.after (Act.takeUp "([$f. f] q)".toList) (Session.starting ⟨50, 50⟩)
    let f : Term := .lam ⟨0, true⟩ "f" (.ref "f" (.binder ⟨0, true⟩))
    let t : Term := .app f (.ref "q" .free)
    let s : Setting := ⟨true, .standard, 10⟩
    Outcome.verdict Parse.expression σ.reading = .ok t ∧
      ∃ err e', reduce s 10 ⟨.normal, .outside σ.table, []⟩ t ⟨1, []⟩ = .error err e' ∧
        err.fault = .notAnApplication ∧ Overrun s err e' := by
  intro σ f t s
  have hread : Outcome.verdict Parse.expression σ.reading = .ok t := by decide +kernel
  have hfails : reduce s 10 ⟨.normal, .outside σ.table, []⟩ t ⟨1, []⟩
      = .error ⟨.notAnApplication, σ.table, [.other]⟩ ⟨1, []⟩ := rfl
  have hfaults := (reduce_normal_faults (Outcome.eq_ok_of_verdict hread)
    (.begun _ (.starting _)) nofun (.inl rfl) s 10 [] ⟨1, []⟩).1 _ _ hfails
  exact ⟨hread, _, _, hfails, hfaults.resolve_left nofun⟩

/-- A recursive function that is applied to a parameter that is not recursive cannot always be
reduced. -/
theorem simplify_recursive_identity :
    let s := Outcome.after (Act.takeUp "([$f. f] q)".toList) (Session.starting ⟨50, 50⟩)
    let s₁ := Outcome.after (Act.parse Parse.expression) s
    ∃ t, Outcome.verdict (Act.parse Parse.expression) s = .ok t ∧ s₁.table = ⟨[]⟩ ∧
      Outcome.verdict (Act.simplify false .normal t) s₁ = .error (.fault .notAnApplication) ∧
      Fault.notAnApplication.kind = "TypeError" := by
  intro s s₁
  let f : Term := .lam ⟨0, true⟩ "f" (.ref "f" (.binder ⟨0, true⟩))
  exact ⟨.app f (.ref "q" .free), by decide +kernel, by decide +kernel, by decide +kernel, rfl⟩

end LambdaScript
