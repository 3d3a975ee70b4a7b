/-
LambdaScript/Proofs/Runs.lean

Everything a reduction can do, said once.

`Runs s task c t e r e'` says that a task, begun on the expression `t` under the
circumstances `c` with the effects `e`, ends with `r` and the effects `e'`.  The
tasks are the functions that reduction is made of, and there is one rule for each
way through them; bounds on depth and rounds do not occur, because a reduction
that ends has not met them.  `Breaks` says the same of a task that fails.

Main results: `runs_of_reduce` and `breaks_of_reduce`.  What holds of all
reductions is proved by induction on these two relations, and never by opening
the functions again.
-/
import LambdaScript.Proofs.Outcomes

namespace LambdaScript

/-! ### Questions -/

namespace Circumstance

variable {α : Type} {c : Circumstance} {here : Term} {answer : Except Fault α} {e e' : Effects}

theorem ask_eq_ok {a : α} (h : c.ask here answer e = .ok a e') : answer = .ok a ∧ e' = e := by
  rcases answer with fault | b
  · cases h
  · cases h
    exact ⟨rfl, rfl⟩

theorem ask_eq_error {err : Failure} (h : c.ask here answer e = .error err e') :
    ∃ fault, answer = .error fault ∧ err = ⟨fault, c.place.definitions here, c.trail⟩ ∧
      e' = e := by
  rcases answer with fault | b
  · cases h
    exact ⟨fault, rfl, rfl, rfl⟩
  · cases h

end Circumstance

/-! ### Tasks and their rules -/

/-- What reduction consists of. -/
inductive Task
  /-- Reduce an expression. -/
  | reduce
  /-- Reduce an application whose sides are done. -/
  | application
  /-- Apply an application once. -/
  | apply
  /-- Unroll the application of a recursive function. -/
  | unroll
  deriving DecidableEq

namespace Term

/-- Reduction leaves the expression alone without a look at the definitions. -/
def stays : Term → Bool
  | app missing _ => true
  | app _ _ => false
  | lam _ _ _ => false
  | ref _ .free => false
  | _ => true

end Term

/-- Only an application whose left side is an application or a recursive function
unrolls. -/
theorem Term.unrolls_eq_true {t : Term} (h : t.unrolls = .ok true) :
    (∃ f a arg, t = .app (.app f a) arg) ∨
      ∃ b x u arg, t = .app (.lam b x u) arg ∧ b.recursive = true := by
  cases t with
  | missing => cases h
  | foreign => cases h
  | lam b x u => cases h
  | ref x l => cases h
  | app fn arg =>
    cases fn with
    | missing => cases h
    | foreign => cases h
    | app f a => exact .inl ⟨f, a, arg, rfl⟩
    | lam b x u =>
      rcases hb : b.recursive with - | -
      · simp [unrolls, isRecursive, hb, bind, Except.bind, pure, Except.pure] at h
      · exact .inr ⟨b, x, u, arg, rfl, hb⟩
    | ref x l =>
      rcases hl : l.isRecursive with fault | (- | -) <;>
        simp [unrolls, isRecursive, hl, bind, Except.bind, pure, Except.pure] at h

/-- Applying an expression with this left side does nothing. -/
def Setting.ignores (s : Setting) : Term → Bool
  | .lam _ _ _ => false
  | .ref x _ => !(s.execute && Action.isName x)
  | _ => true

namespace Circumstance

/-- The application of `f` to `a` is held back. -/
def HoldsBack (c : Circumstance) (f a : Term) : Prop :=
  match c.mode with
  | .normal => f.isRecursive = .ok true ∧ (a.containsRecursive c.trail = .ok true ∨
      a.containsRecursive c.trail = .ok false ∧ (Term.app f a).unrolls = .ok false)
  | .doneRecursive => f.isRecursive = .ok true
  | .applyRecursive => True

/-- The application of the recursive function `f` to `a` is to be unrolled. -/
structure Recurs (c : Circumstance) (f a : Term) : Prop where
  mode : c.mode = .normal
  recursive : f.isRecursive = .ok true
  contains : a.containsRecursive c.trail = .ok false
  unrolls : (Term.app f a).unrolls = .ok true

/-- Some question about the application of `f` to `a` has no answer. -/
def Stumbles (c : Circumstance) (f a : Term) (fault : Fault) : Prop :=
  c.mode ≠ .applyRecursive ∧ f.isRecursive = .error fault ∨
  c.mode = .normal ∧ f.isRecursive = .ok true ∧ (a.containsRecursive c.trail = .error fault ∨
    a.containsRecursive c.trail = .ok false ∧ (Term.app f a).unrolls = .error fault)

/-- The failure of what is done while `here` is at hand. -/
def failure (c : Circumstance) (here : Term) (fault : Fault) : Failure :=
  ⟨fault, c.place.definitions here, c.trail⟩

/-- The circumstances under which the body of a function is reduced that has been
applied. -/
def afterBeta (c : Circumstance) (b : Binder) (x : String) (t a : Term) : Circumstance :=
  (c.moved (if t.isArgumentOf b then c.place.leave (.app (.lam b x t) a)
    else (c.place.down (.function a)).down (.body b x))).inMode c.mode.afterApplication

end Circumstance

/-- The effects after something has been made. -/
def Effects.made (e : Effects) (next : Nat) : Effects := { e with next := next }

/-- Making something prints nothing. -/
theorem Effects.lines_made (e : Effects) (next : Nat) : (e.made next).lines = e.lines ++ [] :=
  (List.append_nil e.lines).symm

/-- The ways in which a task ends. -/
inductive Runs (s : Setting) : Task → Circumstance → Term → Effects → Placed → Effects → Prop
  | stay {c t e} : t.stays = true → Runs s .reduce c t e (t, c.place) e
  | unbound {c x e} : c.place.lookUp (.ref x .free) x = none →
      Runs s .reduce c (.ref x .free) e (.ref x .free, c.place) e
  | unfold {c x body e r e'} : c.place.lookUp (.ref x .free) x = some body →
      Runs s .reduce ((c.within .other).moved (c.place.leave (.ref x .free)))
        (body.copy e.next).1 (e.made (body.copy e.next).2) r e' →
      Runs s .reduce c (.ref x .free) e r e'
  | lam {c b x t e t' p e'} :
      Runs s .reduce ((c.within (.function b)).down (.body b x)) t e (t', p) e' →
      Runs s .reduce c (.lam b x t) e (.lam b x t', c.place) e'
  | app {c f a e f' p e₁ a' q e₂ r e₃} : (Term.app f a).stays = false →
      Runs s .reduce ((c.within .other).down (.function a)) f e (f', p) e₁ →
      Runs s .reduce ((c.within .other).down (.argument f')) a e₁ (a', q) e₂ →
      Runs s .application (c.within .other) (.app f' a') e₂ r e₃ →
      Runs s .reduce c (.app f a) e r e₃
  | held {c f a e} : c.HoldsBack f a → Runs s .application c (.app f a) e (.app f a, c.place) e
  | contract {c f a e r e'} : c.mode ≠ .applyRecursive → f.isRecursive = .ok false →
      Runs s .apply c (.app f a) e r e' → Runs s .application c (.app f a) e r e'
  | recur {c f a e t₁ p₁ e₁ t₂ p₂ e₂ r e₃} : c.Recurs f a →
      Runs s .unroll c (.app f a) e (t₁, p₁) e₁ →
      Runs s .apply ((c.moved p₁).inMode .doneRecursive) t₁ e₁ (t₂, p₂) e₂ →
      Runs s .reduce ((c.moved p₂).inMode .normal) t₂ e₂ r e₃ →
      Runs s .application c (.app f a) e r e₃
  | beta {c b x t a e r e'} :
      Runs s .reduce (c.afterBeta b x t a) (t.subst b a e.next).1
        (e.made (t.subst b a e.next).2) r e' →
      Runs s .apply c (.app (.lam b x t) a) e r e'
  | act {c x l a e line} : s.execute = true → Action.isName x = true →
      (c.place.definitions (.app (.ref x l) a)).announce s.display a = .ok line →
      Runs s .apply c (.app (.ref x l) a) e
        ((Term.identity e.next).1, c.place.leave (.app (.ref x l) a))
        ⟨(Term.identity e.next).2, e.lines ++ [line]⟩
  | ignored {c f a e} : s.ignores f = true → Runs s .apply c (.app f a) e (.app f a, c.place) e
  | rest {c t e} : t.unrolls = .ok false → Runs s .unroll c t e (t, c.place) e
  | inner {c f a arg e fn p e₁ r e₂} : (Term.app (.app f a) arg).unrolls = .ok true →
      Runs s .apply ((c.down (.function arg)).inMode .applyRecursive) (.app f a) e (fn, p) e₁ →
      Runs s .unroll c (.app fn arg) e₁ r e₂ →
      Runs s .unroll c (.app (.app f a) arg) e r e₂
  | outer {c b x t arg e t' p e₁ r e₂} : (Term.app (.lam b x t) arg).unrolls = .ok true →
      Runs s .apply (c.inMode .applyRecursive) (.app (.lam b x t) arg) e (t', p) e₁ →
      Runs s .unroll (c.moved p) t' e₁ r e₂ →
      Runs s .unroll c (.app (.lam b x t) arg) e r e₂

/-- The ways in which a task fails. -/
inductive Breaks (s : Setting) : Task → Circumstance → Term → Effects → Failure → Effects → Prop
  | tooDeep {c t e} {task : Task} : task = .reduce ∨ task = .unroll →
      Breaks s task c t e (c.failure t .tooDeep) e
  | unfold {c x body e err e'} : c.place.lookUp (.ref x .free) x = some body →
      Breaks s .reduce ((c.within .other).moved (c.place.leave (.ref x .free)))
        (body.copy e.next).1 (e.made (body.copy e.next).2) err e' →
      Breaks s .reduce c (.ref x .free) e err e'
  | lam {c b x t e err e'} :
      Breaks s .reduce ((c.within (.function b)).down (.body b x)) t e err e' →
      Breaks s .reduce c (.lam b x t) e err e'
  | fn {c f a e err e'} : (Term.app f a).stays = false →
      Breaks s .reduce ((c.within .other).down (.function a)) f e err e' →
      Breaks s .reduce c (.app f a) e err e'
  | arg {c f a e f' p e₁ err e'} : (Term.app f a).stays = false →
      Runs s .reduce ((c.within .other).down (.function a)) f e (f', p) e₁ →
      Breaks s .reduce ((c.within .other).down (.argument f')) a e₁ err e' →
      Breaks s .reduce c (.app f a) e err e'
  | app {c f a e f' p e₁ a' q e₂ err e'} : (Term.app f a).stays = false →
      Runs s .reduce ((c.within .other).down (.function a)) f e (f', p) e₁ →
      Runs s .reduce ((c.within .other).down (.argument f')) a e₁ (a', q) e₂ →
      Breaks s .application (c.within .other) (.app f' a') e₂ err e' →
      Breaks s .reduce c (.app f a) e err e'
  | stumble {c f a e fault} : c.Stumbles f a fault →
      Breaks s .application c (.app f a) e (c.failure (.app f a) fault) e
  | contract {c f a e err e'} : c.mode ≠ .applyRecursive → f.isRecursive = .ok false →
      Breaks s .apply c (.app f a) e err e' → Breaks s .application c (.app f a) e err e'
  | recurUnroll {c f a e err e'} : c.Recurs f a →
      Breaks s .unroll c (.app f a) e err e' → Breaks s .application c (.app f a) e err e'
  | recurApply {c f a e t₁ p₁ e₁ err e'} : c.Recurs f a →
      Runs s .unroll c (.app f a) e (t₁, p₁) e₁ →
      Breaks s .apply ((c.moved p₁).inMode .doneRecursive) t₁ e₁ err e' →
      Breaks s .application c (.app f a) e err e'
  | recurReduce {c f a e t₁ p₁ e₁ t₂ p₂ e₂ err e'} : c.Recurs f a →
      Runs s .unroll c (.app f a) e (t₁, p₁) e₁ →
      Runs s .apply ((c.moved p₁).inMode .doneRecursive) t₁ e₁ (t₂, p₂) e₂ →
      Breaks s .reduce ((c.moved p₂).inMode .normal) t₂ e₂ err e' →
      Breaks s .application c (.app f a) e err e'
  | nothingToApply {c e} : Breaks s .apply c .missing e (c.failure .missing .nothingToApply) e
  | notAnApplication {c t e} : t ≠ .missing → (∀ f a, t ≠ .app f a) →
      Breaks s .apply c t e (c.failure t .notAnApplication) e
  | beta {c b x t a e err e'} :
      Breaks s .reduce (c.afterBeta b x t a) (t.subst b a e.next).1
        (e.made (t.subst b a e.next).2) err e' →
      Breaks s .apply c (.app (.lam b x t) a) e err e'
  | act {c x l a e fault} : s.execute = true → Action.isName x = true →
      (c.place.definitions (.app (.ref x l) a)).announce s.display a = .error fault →
      Breaks s .apply c (.app (.ref x l) a) e (c.failure (.app (.ref x l) a) fault) e
  | puzzle {c t e fault} : t.unrolls = .error fault →
      Breaks s .unroll c t e (c.failure t fault) e
  | inner {c f a arg e err e'} : (Term.app (.app f a) arg).unrolls = .ok true →
      Breaks s .apply ((c.down (.function arg)).inMode .applyRecursive) (.app f a) e err e' →
      Breaks s .unroll c (.app (.app f a) arg) e err e'
  | innerRest {c f a arg e fn p e₁ err e'} : (Term.app (.app f a) arg).unrolls = .ok true →
      Runs s .apply ((c.down (.function arg)).inMode .applyRecursive) (.app f a) e (fn, p) e₁ →
      Breaks s .unroll c (.app fn arg) e₁ err e' →
      Breaks s .unroll c (.app (.app f a) arg) e err e'
  | outer {c b x t arg e err e'} : (Term.app (.lam b x t) arg).unrolls = .ok true →
      Breaks s .apply (c.inMode .applyRecursive) (.app (.lam b x t) arg) e err e' →
      Breaks s .unroll c (.app (.lam b x t) arg) e err e'
  | outerRest {c b x t arg e t' p e₁ err e'} : (Term.app (.lam b x t) arg).unrolls = .ok true →
      Runs s .apply (c.inMode .applyRecursive) (.app (.lam b x t) arg) e (t', p) e₁ →
      Breaks s .unroll (c.moved p) t' e₁ err e' →
      Breaks s .unroll c (.app (.lam b x t) arg) e err e'

/-- Reduction of an application with a left side. -/
theorem reduceWith_app {again : Reducer} {s : Setting} {c : Circumstance} {f a : Term}
    (h : (Term.app f a).stays = false) :
    reduceWith again s c (.app f a) = (do
      let (f', _) ← again ((c.within .other).down (.function a)) f
      let (a', _) ← again ((c.within .other).down (.argument f')) a
      reduceApplicationWith again s (c.within .other) f' a') := by
  cases f with
  | missing => cases h
  | foreign => rfl
  | app g b => rfl
  | lam b x t => rfl
  | ref x l => rfl

/-! ### Every reduction that ends is a run -/

section Ends

variable {s : Setting} {again : Reducer}
  (hagain : ∀ {c t e r e'}, again c t e = .ok r e' → Runs s .reduce c t e r e')

include hagain

theorem runs_of_applyWith {c : Circumstance} {t : Term} {e e' : Effects} {r : Placed}
    (h : applyWith again s c t e = .ok r e') : Runs s .apply c t e r e' := by
  cases t with
  | missing => cases h
  | foreign => cases h
  | lam b x t => cases h
  | ref x l => cases h
  | app f a =>
    cases f with
    | missing =>
      cases h
      exact .ignored rfl
    | foreign =>
      cases h
      exact .ignored rfl
    | app g b =>
      cases h
      exact .ignored rfl
    | lam b x t => exact .beta (hagain h)
    | ref x l =>
      -- the link is not looked at, only the name
      simp only [applyWith] at h
      by_cases hx : (s.execute && Action.isName x) = true
      · rw [if_pos hx] at h
        obtain ⟨hexec, hname⟩ := Bool.and_eq_true_iff.mp hx
        obtain ⟨line, e₁, hask, hprint⟩ := Outcome.bind_eq_ok h
        obtain ⟨hline, rfl⟩ := Circumstance.ask_eq_ok hask
        cases hprint
        exact .act hexec hname hline
      · rw [if_neg hx] at h
        cases h
        exact .ignored (by rw [Setting.ignores, eq_false_of_ne_true hx]; rfl)

theorem runs_of_unrollWith {rounds : Nat} {c : Circumstance} {t : Term} {e e' : Effects}
    {r : Placed} (h : unrollWith again s rounds c t e = .ok r e') : Runs s .unroll c t e r e' := by
  induction rounds generalizing c t e with
  | zero => cases h
  | succ rounds ih =>
    unfold unrollWith at h
    obtain ⟨unrolls, e₁, hask, hgo⟩ := Outcome.bind_eq_ok h
    obtain ⟨hunrolls, rfl⟩ := Circumstance.ask_eq_ok hask
    cases unrolls with
    | false =>
      cases hgo
      exact .rest hunrolls
    | true =>
      rw [if_pos rfl] at hgo
      split at hgo
      · obtain ⟨⟨fn, p⟩, e₁, happly, hgo⟩ := Outcome.bind_eq_ok hgo
        exact .inner hunrolls (runs_of_applyWith hagain happly) (ih hgo)
      · obtain ⟨⟨t', p⟩, e₁, happly, hgo⟩ := Outcome.bind_eq_ok hgo
        exact .outer hunrolls (runs_of_applyWith hagain happly) (ih hgo)
      · -- nothing else unrolls
        rename_i hinner houter
        rcases Term.unrolls_eq_true hunrolls with ⟨f, a, arg, rfl⟩ | ⟨b, x, u, arg, rfl, -⟩
        · exact absurd rfl (hinner f a arg)
        · exact absurd rfl (houter b x u arg)

theorem runs_of_reduceApplicationWith {c : Circumstance} {f a : Term} {e e' : Effects}
    {r : Placed} (h : reduceApplicationWith again s c f a e = .ok r e') :
    Runs s .application c (.app f a) e r e' := by
  unfold reduceApplicationWith at h
  rcases hm : c.mode with - | - | -
  · -- normal: three questions, each of which may hold the application back
    simp only [hm] at h
    obtain ⟨recursive, e₁, hask, hgo⟩ := Outcome.bind_eq_ok h
    obtain ⟨hrec, rfl⟩ := Circumstance.ask_eq_ok hask
    cases recursive with
    | false => exact .contract (by rw [hm]; nofun) hrec (runs_of_applyWith hagain hgo)
    | true =>
      rw [if_pos rfl] at hgo
      obtain ⟨contains, e₁, hask, hgo'⟩ := Outcome.bind_eq_ok hgo
      obtain ⟨hcontains, rfl⟩ := Circumstance.ask_eq_ok hask
      cases contains with
      | true =>
        cases hgo'
        exact .held (by rw [Circumstance.HoldsBack, hm]; exact ⟨hrec, .inl hcontains⟩)
      | false =>
        obtain ⟨unrolls, e₁, hask, hgo''⟩ := Outcome.bind_eq_ok hgo'
        obtain ⟨hunrolls, rfl⟩ := Circumstance.ask_eq_ok hask
        cases unrolls with
        | false =>
          cases hgo''
          exact .held (by rw [Circumstance.HoldsBack, hm]; exact ⟨hrec, .inr ⟨hcontains, hunrolls⟩⟩)
        | true =>
          rw [if_pos rfl] at hgo''
          obtain ⟨⟨t₁, p₁⟩, e₁, h₁, hgo₁⟩ := Outcome.bind_eq_ok hgo''
          obtain ⟨⟨t₂, p₂⟩, e₂, h₂, h₃⟩ := Outcome.bind_eq_ok hgo₁
          exact .recur ⟨hm, hrec, hcontains, hunrolls⟩ (runs_of_unrollWith hagain h₁)
            (runs_of_applyWith hagain h₂) (hagain h₃)
  · -- applyRecursive: nothing is applied
    simp only [hm] at h
    cases h
    exact .held (by rw [Circumstance.HoldsBack, hm]; trivial)
  · -- doneRecursive: only the first question is asked
    simp only [hm] at h
    obtain ⟨recursive, e₁, hask, hgo⟩ := Outcome.bind_eq_ok h
    obtain ⟨hrec, rfl⟩ := Circumstance.ask_eq_ok hask
    cases recursive with
    | false => exact .contract (by rw [hm]; nofun) hrec (runs_of_applyWith hagain hgo)
    | true =>
      cases hgo
      exact .held (by rw [Circumstance.HoldsBack, hm]; exact hrec)

theorem runs_of_reduceWith {c : Circumstance} {t : Term} {e e' : Effects} {r : Placed}
    (h : reduceWith again s c t e = .ok r e') : Runs s .reduce c t e r e' := by
  cases t with
  | missing =>
    cases h
    exact .stay rfl
  | foreign =>
    cases h
    exact .stay rfl
  | lam b x t =>
    unfold reduceWith reduceVisiting at h
    obtain ⟨⟨t', p⟩, e₁, hbody, hgo⟩ := Outcome.bind_eq_ok h
    cases hgo
    exact .lam (hagain hbody)
  | ref x l =>
    cases l with
    | binder b =>
      cases h
      exact .stay rfl
    | reference k own =>
      cases h
      exact .stay rfl
    | endless =>
      cases h
      exact .stay rfl
    | free =>
      rcases hbody : c.place.lookUp (.ref x .free) x with - | body
      · simp only [reduceWith, reduceVisiting, hbody] at h
        cases h
        exact .unbound hbody
      · simp only [reduceWith, reduceVisiting, hbody] at h
        exact .unfold hbody (hagain h)
  | app f a =>
    rcases hstays : (Term.app f a).stays with - | -
    · rw [reduceWith_app hstays] at h
      obtain ⟨⟨f', p⟩, e₁, hf, hgo⟩ := Outcome.bind_eq_ok h
      obtain ⟨⟨a', q⟩, e₂, ha, happ⟩ := Outcome.bind_eq_ok hgo
      exact .app hstays (hagain hf) (hagain ha) (runs_of_reduceApplicationWith hagain happ)
    · cases f with
      | missing =>
        cases h
        exact .stay rfl
      | foreign => cases hstays
      | app g b => cases hstays
      | lam b x t => cases hstays
      | ref x l => cases hstays

end Ends

/-- **Every reduction that ends is a run.** -/
theorem runs_of_reduce {s : Setting} {depth : Nat} {c : Circumstance} {t : Term} {e e' : Effects}
    {r : Placed} (h : reduce s depth c t e = .ok r e') : Runs s .reduce c t e r e' := by
  induction depth generalizing c t e r e' with
  | zero => cases h
  | succ depth ih => exact runs_of_reduceWith ih h

/-! ### Every reduction that fails breaks -/

section Fails

variable {s : Setting} {again : Reducer}
  (hagain : ∀ {c t e r e'}, again c t e = .ok r e' → Runs s .reduce c t e r e')
  (hbreak : ∀ {c t e err e'}, again c t e = .error err e' → Breaks s .reduce c t e err e')

include hbreak

theorem breaks_of_applyWith {c : Circumstance} {t : Term} {e e' : Effects} {err : Failure}
    (h : applyWith again s c t e = .error err e') : Breaks s .apply c t e err e' := by
  cases t with
  | missing =>
    cases h
    exact .nothingToApply
  | foreign =>
    cases h
    exact .notAnApplication nofun nofun
  | lam b x t =>
    cases h
    exact .notAnApplication nofun nofun
  | ref x l =>
    cases h
    exact .notAnApplication nofun nofun
  | app f a =>
    cases f with
    | missing => cases h
    | foreign => cases h
    | app g b => cases h
    | lam b x t => exact .beta (hbreak h)
    | ref x l =>
      simp only [applyWith] at h
      by_cases hx : (s.execute && Action.isName x) = true
      · rw [if_pos hx] at h
        obtain ⟨hexec, hname⟩ := Bool.and_eq_true_iff.mp hx
        rcases Outcome.bind_eq_error h with hask | ⟨line, e₁, hask, hprint⟩
        · obtain ⟨fault, hline, rfl, rfl⟩ := Circumstance.ask_eq_error hask
          exact .act hexec hname hline
        · cases hprint
      · rw [if_neg hx] at h
        cases h

include hagain

theorem breaks_of_unrollWith {rounds : Nat} {c : Circumstance} {t : Term} {e e' : Effects}
    {err : Failure} (h : unrollWith again s rounds c t e = .error err e') :
    Breaks s .unroll c t e err e' := by
  induction rounds generalizing c t e with
  | zero =>
    cases h
    exact .tooDeep (.inr rfl)
  | succ rounds ih =>
    unfold unrollWith at h
    rcases Outcome.bind_eq_error h with hask | ⟨unrolls, e₁, hask, hgo⟩
    · obtain ⟨fault, hunrolls, rfl, rfl⟩ := Circumstance.ask_eq_error hask
      exact .puzzle hunrolls
    · obtain ⟨hunrolls, rfl⟩ := Circumstance.ask_eq_ok hask
      cases unrolls with
      | false => cases hgo
      | true =>
        rw [if_pos rfl] at hgo
        split at hgo
        · rcases Outcome.bind_eq_error hgo with happly | ⟨⟨fn, p⟩, e₁, happly, hgo⟩
          · exact .inner hunrolls (breaks_of_applyWith hbreak happly)
          · exact .innerRest hunrolls (runs_of_applyWith hagain happly) (ih hgo)
        · rcases Outcome.bind_eq_error hgo with happly | ⟨⟨t', p⟩, e₁, happly, hgo⟩
          · exact .outer hunrolls (breaks_of_applyWith hbreak happly)
          · exact .outerRest hunrolls (runs_of_applyWith hagain happly) (ih hgo)
        · -- nothing else unrolls
          rename_i hinner houter
          rcases Term.unrolls_eq_true hunrolls with ⟨f, a, arg, rfl⟩ | ⟨b, x, u, arg, rfl, -⟩
          · exact absurd rfl (hinner f a arg)
          · exact absurd rfl (houter b x u arg)

theorem breaks_of_reduceApplicationWith {c : Circumstance} {f a : Term} {e e' : Effects}
    {err : Failure} (h : reduceApplicationWith again s c f a e = .error err e') :
    Breaks s .application c (.app f a) e err e' := by
  unfold reduceApplicationWith at h
  rcases hm : c.mode with - | - | -
  · -- normal: a question may have no answer, and so may what comes after it
    simp only [hm] at h
    have hmode : c.mode ≠ .applyRecursive := by rw [hm]; nofun
    rcases Outcome.bind_eq_error h with hask | ⟨recursive, e₁, hask, hgo⟩
    · obtain ⟨fault, hrec, rfl, rfl⟩ := Circumstance.ask_eq_error hask
      exact .stumble (.inl ⟨hmode, hrec⟩)
    obtain ⟨hrec, rfl⟩ := Circumstance.ask_eq_ok hask
    cases recursive with
    | false => exact .contract hmode hrec (breaks_of_applyWith hbreak hgo)
    | true =>
      rw [if_pos rfl] at hgo
      rcases Outcome.bind_eq_error hgo with hask | ⟨contains, e₁, hask, hgo'⟩
      · obtain ⟨fault, hcontains, rfl, rfl⟩ := Circumstance.ask_eq_error hask
        exact .stumble (.inr ⟨hm, hrec, .inl hcontains⟩)
      obtain ⟨hcontains, rfl⟩ := Circumstance.ask_eq_ok hask
      cases contains with
      | true => cases hgo'
      | false =>
        rcases Outcome.bind_eq_error hgo' with hask | ⟨unrolls, e₁, hask, hgo''⟩
        · obtain ⟨fault, hunrolls, rfl, rfl⟩ := Circumstance.ask_eq_error hask
          exact .stumble (.inr ⟨hm, hrec, .inr ⟨hcontains, hunrolls⟩⟩)
        obtain ⟨hunrolls, rfl⟩ := Circumstance.ask_eq_ok hask
        cases unrolls with
        | false => cases hgo''
        | true =>
          rw [if_pos rfl] at hgo''
          have hrecurs : c.Recurs f a := ⟨hm, hrec, hcontains, hunrolls⟩
          rcases Outcome.bind_eq_error hgo'' with h₁ | ⟨⟨t₁, p₁⟩, e₁, h₁, hgo₁⟩
          · exact .recurUnroll hrecurs (breaks_of_unrollWith hagain hbreak h₁)
          rcases Outcome.bind_eq_error hgo₁ with h₂ | ⟨⟨t₂, p₂⟩, e₂, h₂, h₃⟩
          · exact .recurApply hrecurs (runs_of_unrollWith hagain h₁)
              (breaks_of_applyWith hbreak h₂)
          · exact .recurReduce hrecurs (runs_of_unrollWith hagain h₁)
              (runs_of_applyWith hagain h₂) (hbreak h₃)
  · simp only [hm] at h
    cases h
  · simp only [hm] at h
    have hmode : c.mode ≠ .applyRecursive := by rw [hm]; nofun
    rcases Outcome.bind_eq_error h with hask | ⟨recursive, e₁, hask, hgo⟩
    · obtain ⟨fault, hrec, rfl, rfl⟩ := Circumstance.ask_eq_error hask
      exact .stumble (.inl ⟨hmode, hrec⟩)
    obtain ⟨hrec, rfl⟩ := Circumstance.ask_eq_ok hask
    cases recursive with
    | false => exact .contract hmode hrec (breaks_of_applyWith hbreak hgo)
    | true => cases hgo

theorem breaks_of_reduceWith {c : Circumstance} {t : Term} {e e' : Effects} {err : Failure}
    (h : reduceWith again s c t e = .error err e') : Breaks s .reduce c t e err e' := by
  cases t with
  | missing => cases h
  | foreign => cases h
  | lam b x t =>
    unfold reduceWith reduceVisiting at h
    rcases Outcome.bind_eq_error h with hbody | ⟨⟨t', p⟩, e₁, hbody, hgo⟩
    · exact .lam (hbreak hbody)
    · cases hgo
  | ref x l =>
    cases l with
    | binder b => cases h
    | reference k own => cases h
    | endless => cases h
    | free =>
      rcases hbody : c.place.lookUp (.ref x .free) x with - | body
      · simp only [reduceWith, reduceVisiting, hbody] at h
        cases h
      · simp only [reduceWith, reduceVisiting, hbody] at h
        exact .unfold hbody (hbreak h)
  | app f a =>
    rcases hstays : (Term.app f a).stays with - | -
    · rw [reduceWith_app hstays] at h
      rcases Outcome.bind_eq_error h with hf | ⟨⟨f', p⟩, e₁, hf, hgo⟩
      · exact .fn hstays (hbreak hf)
      rcases Outcome.bind_eq_error hgo with ha | ⟨⟨a', q⟩, e₂, ha, happ⟩
      · exact .arg hstays (hagain hf) (hbreak ha)
      · exact .app hstays (hagain hf) (hagain ha)
          (breaks_of_reduceApplicationWith hagain hbreak happ)
    · cases f with
      | missing => cases h
      | foreign => cases hstays
      | app g b => cases hstays
      | lam b x t => cases hstays
      | ref x l => cases hstays

end Fails

/-- **Every reduction that fails breaks.** -/
theorem breaks_of_reduce {s : Setting} {depth : Nat} {c : Circumstance} {t : Term}
    {e e' : Effects} {err : Failure} (h : reduce s depth c t e = .error err e') :
    Breaks s .reduce c t e err e' := by
  induction depth generalizing c t e err e' with
  | zero =>
    cases h
    exact .tooDeep (.inl rfl)
  | succ depth ih => exact breaks_of_reduceWith runs_of_reduce ih h

end LambdaScript
