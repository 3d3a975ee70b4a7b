/-
LambdaScript/Proofs/Outcomes.lean

Computations that change a state and may fail.

Reading, reduction and everything done in a session are such computations.  A
sequence of two is taken apart by how it has ended: it has succeeded when both parts
have, and it has failed when one of them has, the second with what the first has left.
A computation is `Along` a relation when it leads to a related state, whatever comes
of it.  Two computations are `InStep` when both succeed or both fail, with related results
and related states.

For an entry there are few ways to end.  `Performed` lists them, each with the
reduction that is behind it and the session it leaves.
-/
import LambdaScript.Session

namespace LambdaScript

namespace Outcome

variable {ε σ α β : Type} {x : EStateM ε σ α} {f : α → EStateM ε σ β} {s s' : σ}

theorem bind_eq_ok {b : β} (h : (x >>= f) s = .ok b s') :
    ∃ a s₁, x s = .ok a s₁ ∧ f a s₁ = .ok b s' := by
  change EStateM.bind x f s = _ at h
  unfold EStateM.bind at h
  rcases hx : x s with ⟨a, s₁⟩ | ⟨err, s₁⟩
  · rw [hx] at h
    exact ⟨a, s₁, rfl, h⟩
  · rw [hx] at h
    cases h

theorem bind_eq_error {err : ε} (h : (x >>= f) s = .error err s') :
    x s = .error err s' ∨ ∃ a s₁, x s = .ok a s₁ ∧ f a s₁ = .error err s' := by
  change EStateM.bind x f s = _ at h
  unfold EStateM.bind at h
  rcases hx : x s with ⟨a, s₁⟩ | ⟨err', s₁⟩
  · rw [hx] at h
    exact .inr ⟨a, s₁, rfl, h⟩
  · rw [hx] at h
    cases h
    exact .inl rfl

theorem bind_of_ok {a : α} {s₁ : σ} (h : x s = .ok a s₁) : (x >>= f) s = f a s₁ := by
  change EStateM.bind x f s = _
  unfold EStateM.bind
  rw [h]

theorem bind_of_error {err : ε} (h : x s = .error err s') : (x >>= f) s = .error err s' := by
  change EStateM.bind x f s = _
  unfold EStateM.bind
  rw [h]

theorem bind_congr {x' : EStateM ε σ α} {f' : α → EStateM ε σ β} (hx : x s = x' s)
    (hf : ∀ a s₁, x s = .ok a s₁ → f a s₁ = f' a s₁) : (x >>= f) s = (x' >>= f') s := by
  change EStateM.bind x f s = EStateM.bind x' f' s
  unfold EStateM.bind
  rw [← hx]
  rcases h : x s with ⟨a, s₁⟩ | ⟨err, s₁⟩
  · exact hf a s₁ h
  · rfl

/-- What a computation gives or fails with. -/
def verdict (x : EStateM ε σ α) (s : σ) : Except ε α :=
  match x s with
  | .ok a _ => .ok a
  | .error err _ => .error err

/-- The state after a computation, whether it has succeeded or failed. -/
def after (x : EStateM ε σ α) (s : σ) : σ :=
  match x s with
  | .ok _ s' => s'
  | .error _ s' => s'

theorem after_of_ok {a : α} (h : x s = .ok a s') : after x s = s' := by
  rw [after, h]

theorem after_of_error {err : ε} (h : x s = .error err s') : after x s = s' := by
  rw [after, h]

theorem eq_ok_of_verdict {a : α} (h : verdict x s = .ok a) : x s = .ok a (after x s) := by
  unfold verdict at h
  rcases hx : x s with ⟨b, s₁⟩ | ⟨err, s₁⟩
  · rw [hx] at h
    cases h
    rw [after_of_ok hx]
  · rw [hx] at h
    cases h

theorem eq_error_of_verdict {err : ε} (h : verdict x s = .error err) :
    x s = .error err (after x s) := by
  unfold verdict at h
  rcases hx : x s with ⟨b, s₁⟩ | ⟨err', s₁⟩
  · rw [hx] at h
    cases h
  · rw [hx] at h
    cases h
    rw [after_of_error hx]

theorem after_bind_of_ok {a : α} {s₁ : σ} (h : x s = .ok a s₁) :
    after (x >>= f) s = after (f a) s₁ := by
  rw [after, bind_of_ok h, after]

theorem after_bind_of_error {err : ε} (h : x s = .error err s') : after (x >>= f) s = s' :=
  after_of_error (bind_of_error h)

end Outcome

/-! ### Computations along a relation of states -/

/-- Whatever comes of the computation, it leads from a state to a related one. -/
def Along {ε σ α : Type} (M : σ → σ → Prop) (x : EStateM ε σ α) : Prop :=
  ∀ s, M s (Outcome.after x s)

namespace Along

variable {ε σ α β : Type} {M : σ → σ → Prop} {x y : EStateM ε σ α} {f : α → EStateM ε σ β}

theorem of_ok (h : Along M x) {s s' : σ} {a : α} (hx : x s = .ok a s') : M s s' :=
  Outcome.after_of_ok hx ▸ h s

theorem of_error (h : Along M x) {s s' : σ} {err : ε} (hx : x s = .error err s') : M s s' :=
  Outcome.after_of_error hx ▸ h s

theorem bind (hM : ∀ {s₁ s₂ s₃}, M s₁ s₂ → M s₂ s₃ → M s₁ s₃) (hx : Along M x)
    (hf : ∀ a, Along M (f a)) : Along M (x >>= f) := by
  intro s
  rcases h : x s with ⟨a, s₁⟩ | ⟨err, s₁⟩
  · rw [Outcome.after_bind_of_ok h]
    exact hM (hx.of_ok h) (hf a s₁)
  · rw [Outcome.after_bind_of_error h]
    exact hx.of_error h

theorem ite {p : Prop} [Decidable p] (hx : Along M x) (hy : Along M y) :
    Along M (if p then x else y) := by
  split
  · exact hx
  · exact hy

end Along

/-! ### Two computations in step -/

/-- Two computations have both succeeded, as `R` says, or have both failed, as `E` says. -/
def InStep {ε δ σ τ α β : Type} (R : α → σ → β → τ → Prop) (E : ε → σ → δ → τ → Prop) :
    EStateM.Result ε σ α → EStateM.Result δ τ β → Prop
  | .ok a s, .ok b t => R a s b t
  | .error err s, .error err' t => E err s err' t
  | _, _ => False

namespace InStep

variable {ε δ σ τ α β α' β' : Type} {R R' : α → σ → β → τ → Prop} {E E' : ε → σ → δ → τ → Prop}
  {x : EStateM ε σ α} {y : EStateM δ τ β} {s : σ} {t : τ}

/-- Either both have succeeded or both have failed. -/
theorem ok_or_error {r : EStateM.Result ε σ α} {r' : EStateM.Result δ τ β}
    (h : InStep R E r r') :
    (∃ a s b t, r = .ok a s ∧ r' = .ok b t ∧ R a s b t) ∨
      ∃ e s d t, r = .error e s ∧ r' = .error d t ∧ E e s d t := by
  cases r with
  | ok a s =>
    cases r' with
    | ok b t => exact .inl ⟨a, s, b, t, rfl, rfl, h⟩
    | error d t => exact h.elim
  | error e s =>
    cases r' with
    | ok b t => exact h.elim
    | error d t => exact .inr ⟨e, s, d, t, rfl, rfl, h⟩

theorem imp {r : EStateM.Result ε σ α} {r' : EStateM.Result δ τ β} (h : InStep R E r r')
    (hR : ∀ a s b t, R a s b t → R' a s b t) (hE : ∀ e s d t, E e s d t → E' e s d t) :
    InStep R' E' r r' := by
  rcases h.ok_or_error with ⟨a, s, b, t, rfl, rfl, h⟩ | ⟨e, s, d, t, rfl, rfl, h⟩
  · exact hR a s b t h
  · exact hE e s d t h

/-- What is true of the first state in either case is true of it afterwards. -/
theorem after {P : σ → Prop} (h : InStep R E (x s) (y t)) (hR : ∀ a s' b t', R a s' b t' → P s')
    (hE : ∀ e s' d t', E e s' d t' → P s') : P (Outcome.after x s) := by
  rcases h.ok_or_error with ⟨a, s', b, t', hx, -, h⟩ | ⟨e, s', d, t', hx, -, h⟩
  · exact Outcome.after_of_ok hx ▸ hR a s' b t' h
  · exact Outcome.after_of_error hx ▸ hE e s' d t' h

/-- Sequences are in step when their parts are, if failing in the first part is failing as a
whole. -/
theorem bind_of_imp {R' : α' → σ → β' → τ → Prop} {f : α → EStateM ε σ α'}
    {g : β → EStateM δ τ β'} (h : InStep R E (x s) (y t))
    (hE : ∀ e s' d t', E e s' d t' → E' e s' d t')
    (hf : ∀ a s' b t', R a s' b t' → InStep R' E' (f a s') (g b t')) :
    InStep R' E' ((x >>= f) s) ((y >>= g) t) := by
  rcases h.ok_or_error with ⟨a, s', b, t', hx, hy, h⟩ | ⟨e, s', d, t', hx, hy, h⟩
  · rw [Outcome.bind_of_ok hx, Outcome.bind_of_ok hy]
    exact hf a s' b t' h
  · rw [Outcome.bind_of_error hx, Outcome.bind_of_error hy]
    exact hE e s' d t' h

theorem bind {R' : α' → σ → β' → τ → Prop} {f : α → EStateM ε σ α'} {g : β → EStateM δ τ β'}
    (h : InStep R E (x s) (y t))
    (hf : ∀ a s' b t', R a s' b t' → InStep R' E (f a s') (g b t')) :
    InStep R' E ((x >>= f) s) ((y >>= g) t) :=
  h.bind_of_imp (fun _ _ _ _ he => he) hf

end InStep

/-! ### In a session -/

namespace Act

variable {α : Type} {s s' : Session}

theorem parse_eq_ok {p : Parse α} {a : α} (h : parse p s = .ok a s') :
    ∃ r, p s.reading = .ok a r ∧ s' = { s with reading := r } := by
  unfold parse at h
  rcases hp : p s.reading with ⟨b, r⟩ | ⟨halt, r⟩
  · rw [hp] at h
    cases h
    exact ⟨r, rfl, rfl⟩
  · rw [hp] at h
    cases halt <;> cases h

theorem parse_eq_error {p : Parse α} {err : SessionError} (h : parse p s = .error err s') :
    ∃ halt r, p s.reading = .error halt r ∧ s' = { s with reading := r } := by
  unfold parse at h
  rcases hp : p s.reading with ⟨b, r⟩ | ⟨halt, r⟩
  · rw [hp] at h
    cases h
  · rw [hp] at h
    cases halt <;> cases h <;> exact ⟨_, r, rfl, rfl⟩

variable {execute : Bool} {m : Mode} {p : Place} {t : Term}

/-- A session keeps the effects of a reduction. -/
theorem reduce_eq_ok {r : Term} (h : reduce execute m p t s = .ok r s') :
    ∃ q e, LambdaScript.reduce ⟨execute, s.display, s.limits.rounds⟩ s.limits.depth
        ⟨m, p, s.trail⟩ t ⟨s.reading.next, []⟩ = .ok (r, q) e ∧ s' = settle s e := by
  rw [reduce, reduceAs, LambdaScript.reduceAs_visit] at h
  rcases hreduce : LambdaScript.reduce ⟨execute, s.display, s.limits.rounds⟩ s.limits.depth
    ⟨m, p, s.trail⟩ t ⟨s.reading.next, []⟩ with ⟨⟨r', q⟩, e⟩ | ⟨f, e⟩
  · rw [hreduce] at h
    cases h
    exact ⟨q, e, rfl, rfl⟩
  · rw [hreduce] at h
    cases h

/-- After a reduction that has failed, a session has the definitions and the trail that the
failure tells. -/
theorem reduce_eq_error {err : SessionError} (h : reduce execute m p t s = .error err s') :
    ∃ f e, LambdaScript.reduce ⟨execute, s.display, s.limits.rounds⟩ s.limits.depth
        ⟨m, p, s.trail⟩ t ⟨s.reading.next, []⟩ = .error f e ∧ err = .fault f.fault ∧
      s' = { settle s e with table := f.table, trail := f.trail } := by
  rw [reduce, reduceAs, LambdaScript.reduceAs_visit] at h
  rcases hreduce : LambdaScript.reduce ⟨execute, s.display, s.limits.rounds⟩ s.limits.depth
    ⟨m, p, s.trail⟩ t ⟨s.reading.next, []⟩ with ⟨⟨r', q⟩, e⟩ | ⟨f, e⟩
  · rw [hreduce] at h
    cases h
  · rw [hreduce] at h
    cases h
    exact ⟨f, e, rfl, rfl, rfl⟩

/-- A session simplifies by a reduction outside of all definitions. -/
theorem simplify_eq_ok {r : Term} (h : simplify execute m t s = .ok r s') :
    ∃ q e, LambdaScript.reduce ⟨execute, s.display, s.limits.rounds⟩ s.limits.depth
        ⟨m, .outside s.table, s.trail⟩ t ⟨s.reading.next, []⟩ = .ok (r, q) e ∧
      s' = settle s e :=
  reduce_eq_ok h

end Act

/-! ### Entries -/

/-- The reduction with which a session performs an entry. -/
def Session.reduction (s : Session) (execute : Bool) (p : Place) (t : Term) :
    EStateM.Result Failure Effects Placed :=
  reduce ⟨execute, s.display, s.limits.rounds⟩ s.limits.depth ⟨.normal, p, s.trail⟩ t
    ⟨s.reading.next, []⟩

/-- The ways in which an entry is performed, without an error or with one. -/
inductive Performed (s : Session) : Entry → Option SessionError → Session → Prop
  | bound {a t} : Performed s (.define a t false) none { s with table := s.table.bind a t }
  | defined {a t r q e} :
      s.reduction false (.whole (s.table.bind a t) a) t = .ok (r, q) e →
      Performed s (.define a t true) none
        { Act.settle s e with table := (s.table.bind a t).bind a r }
  | broken {a t f e} :
      s.reduction false (.whole (s.table.bind a t) a) t = .error f e →
      Performed s (.define a t true) (some (.fault f.fault))
        { Act.settle s e with table := f.table, trail := f.trail }
  | executed {t r q e output} : s.reduction true (.outside s.table) t = .ok (r, q) e →
      Performed s (.execute t) none { Act.settle s e with output := output }
  | interrupted {t f e output} : s.reduction true (.outside s.table) t = .error f e →
      Performed s (.execute t) (some (.fault f.fault))
        { Act.settle s e with table := f.table, trail := f.trail, output := output }
  | untold {t fault} : t.print? s.display = .error fault →
      Performed s (.execute t) (some (.fault fault)) s
  | unfinished {t r q e output fault} : s.reduction true (.outside s.table) t = .ok (r, q) e →
      r.print? s.display = .error fault →
      Performed s (.execute t) (some (.fault fault)) { Act.settle s e with output := output }

namespace Act

variable {s s' : Session}

/-- Telling an expression changes nothing but what has been printed. -/
theorem tell_eq_ok {label : String} {t : Term} (h : tell label t s = .ok () s') :
    ∃ output, s' = { s with output := output } := by
  obtain ⟨text, s₁, htext, hline⟩ := Outcome.bind_eq_ok h
  change ofFault (t.print? s.display) s = _ at htext
  rcases hp : t.print? s.display with fault | printed
  · rw [hp] at htext
    cases htext
  · rw [hp] at htext
    cases htext
    change (if s.switches.debug then sayLine _ else pure ()) s = _ at hline
    split at hline
    · cases hline
      exact ⟨_, rfl⟩
    · cases hline
      exact ⟨s.output, rfl⟩

theorem tell_eq_error {label : String} {t : Term} {err : SessionError}
    (h : tell label t s = .error err s') :
    ∃ fault, t.print? s.display = .error fault ∧ err = .fault fault ∧ s' = s := by
  rcases Outcome.bind_eq_error h with htext | ⟨text, s₁, -, hline⟩
  · change ofFault (t.print? s.display) s = _ at htext
    rcases hp : t.print? s.display with fault | printed
    · rw [hp] at htext
      cases htext
      exact ⟨fault, rfl, rfl, rfl⟩
    · rw [hp] at htext
      cases htext
  · change (if s₁.switches.debug then sayLine _ else pure ()) s₁ = _ at hline
    split at hline <;> cases hline

/-- **Every entry that is performed is performed in one of these ways.** -/
theorem performed_of_ok {entry : Entry} (h : perform entry s = .ok () s') :
    Performed s entry none s' := by
  cases entry with
  | define a t reduced =>
    cases reduced with
    | false =>
      cases h
      exact .bound
    | true =>
      obtain ⟨r, s₁, hreduce, hbind⟩ :=
        Outcome.bind_eq_ok (s := { s with table := s.table.bind a t }) h
      obtain ⟨q, e, hreduction, rfl⟩ := reduce_eq_ok hreduce
      cases hbind
      exact .defined hreduction
  | execute t =>
    obtain ⟨_, s₁, htell, h₁⟩ := Outcome.bind_eq_ok h
    obtain ⟨output, rfl⟩ := tell_eq_ok htell
    obtain ⟨r, s₂, hreduce, htell'⟩ := Outcome.bind_eq_ok h₁
    obtain ⟨q, e, hreduction, rfl⟩ := simplify_eq_ok hreduce
    obtain ⟨output', rfl⟩ := tell_eq_ok htell'
    exact .executed hreduction

theorem performed_of_error {entry : Entry} {err : SessionError}
    (h : perform entry s = .error err s') : Performed s entry (some err) s' := by
  cases entry with
  | define a t reduced =>
    cases reduced with
    | false => cases h
    | true =>
      rcases Outcome.bind_eq_error (s := { s with table := s.table.bind a t }) h with
        hreduce | ⟨r, s₁, -, hbind⟩
      · obtain ⟨f, e, hreduction, rfl, rfl⟩ := reduce_eq_error hreduce
        exact .broken hreduction
      · cases hbind
  | execute t =>
    rcases Outcome.bind_eq_error h with htell | ⟨_, s₁, htell, h₁⟩
    · obtain ⟨fault, hfault, rfl, rfl⟩ := tell_eq_error htell
      exact .untold hfault
    obtain ⟨output, rfl⟩ := tell_eq_ok htell
    rcases Outcome.bind_eq_error h₁ with hreduce | ⟨r, s₂, hreduce, htell'⟩
    · obtain ⟨f, e, hreduction, rfl, rfl⟩ := reduce_eq_error hreduce
      exact .interrupted hreduction
    · obtain ⟨q, e, hreduction, rfl⟩ := simplify_eq_ok hreduce
      obtain ⟨fault, hfault, rfl, rfl⟩ := tell_eq_error htell'
      exact .unfinished hreduction hfault

/-- Performing an entry leads to where one of the ways of performing it leads. -/
theorem performed_after (entry : Entry) (s : Session) :
    ∃ err, Performed s entry err (Outcome.after (perform entry) s) := by
  unfold Outcome.after
  rcases h : perform entry s with ⟨⟨⟩, s'⟩ | ⟨err, s'⟩
  · exact ⟨none, performed_of_ok h⟩
  · exact ⟨some err, performed_of_error h⟩

end Act

end LambdaScript
