/-
LambdaScript/Proofs/Soundness.lean

What reduction does, in the words of the lambda calculus.

`Rule s d m linked` are the rules of the language under the setting `s`, with the
definitions `d`, in the mode `m`: a function is applied, a free reference is
replaced by the definition of its name, and, when actions are executed, an action
that is applied to an argument prints a line and is replaced by the identity
function.  Which functions are applied is up to the mode; in mode `doneRecursive`
recursive ones are not.

Main result: `reduce_follows_rules`, every reduction of an expression that is part
of no definition is a finite sequence of such steps.  An action is known by its
name alone, so a reference that is bound by a function of that name is executed
too (`reduce_executes_bound_reference`).  Programs cannot write such a function;
where none occurs, only free references are executed.
-/
import LambdaScript.Proofs.Simulation

namespace LambdaScript

open Nameless (Rules Step Steps Conv Filling)

/-! ### The rules of the language -/

/-- The line announces some expression that reads as `a`. -/
def Table.Announces (d : Table) (display : Display) (a : Nameless String) (line : String) :
    Prop :=
  ∃ (Δ : List Binder) (u : Term), u.Scoped Δ ∧ u.nameless Δ = a ∧ d.announce display u = .ok line

/-- The rules of the language.  With `linked` set, a reference that belongs to a
function is executed like a free one. -/
inductive Rule (s : Setting) (d : Table) (m : Mode) (linked : Bool) : Rules String
  | beta {r : Bool} (x : String) (u v : Nameless String) : m.contracts r = true →
      Rule s d m linked (.app (.lam r x u) v) none (u.instantiate v)
  | delta {x : String} {u : Nameless String} : d.unfolding x = some u →
      Rule s d m linked (.free x) none u
  | action {x line : String} {a : Nameless String} : s.execute = true → Action.isName x = true →
      d.Announces s.display a line →
      Rule s d m linked (.app (.free x) a) (some line) Nameless.identity
  | boundAction {i : Nat} {x line : String} {a : Nameless String} : linked = true →
      s.execute = true → Action.isName x = true → d.Announces s.display a line →
      Rule s d m linked (.app (.bound i x) a) (some line) Nameless.identity

/-- A place that is part of no definition offers what its table says. -/
theorem faithful_outside {s : Setting} {d : Table} (hd : d.WellScoped) (m : Mode)
    (Γ : List Binder) (t : Term) : Faithful (Rule s d m true) s Γ (.outside d) t := by
  intro u _ _
  refine ⟨?_, ?_, ?_⟩
  · intro x e he
    exact (hd.of_find? he).links
  · intro x e he _
    exact ⟨.delta (Table.unfolding_eq_some he), e.body.avoids_empty⟩
  · intro hexec Δ a line ha hline x head hname hhead
    -- free or bound, the reference is executed for its name
    have hannounces : d.Announces s.display (a.nameless Δ) line := ⟨Δ, a, ha, rfl, hline⟩
    cases head with
    | free y =>
      obtain rfl : y = x := hhead
      exact .action hexec hname hannounces
    | bound i y =>
      obtain rfl : y = x := hhead
      exact .boundAction rfl hexec hname hannounces
    | app f b => exact hhead.elim
    | lam r y u => exact hhead.elim

/-! ### References with the name of an action -/

namespace Nameless

/-- Only free references bear the name of an action. -/
def FreeActions : Nameless String → Prop
  | bound _ x => Action.isName x = false
  | free _ => True
  | app f a => f.FreeActions ∧ a.FreeActions
  | lam _ _ t => t.FreeActions

theorem FreeActions.rename {t : Nameless String} (h : t.FreeActions) (f : Nat → Nat) :
    (t.rename f).FreeActions := by
  induction t generalizing f with
  | bound i x => exact h
  | free x => trivial
  | app g a ihg iha => exact ⟨ihg h.1 f, iha h.2 f⟩
  | lam r x t ih => exact ih h (under f)

theorem FreeActions.under {σ : Filling String}
    (hσ : ∀ i x, Action.isName x = false → (σ i x).FreeActions) (i : Nat) (x : String)
    (hx : Action.isName x = false) : (σ.under i x).FreeActions := by
  cases i with
  | zero => exact hx
  | succ i => exact (hσ i x hx).rename Nat.succ

theorem FreeActions.fill {t : Nameless String} (h : t.FreeActions) {σ : Filling String}
    (hσ : ∀ i x, Action.isName x = false → (σ i x).FreeActions) : (t.fill σ).FreeActions := by
  induction t generalizing σ with
  | bound i x => exact hσ i x h
  | free x => trivial
  | app g a ihg iha => exact ⟨ihg h.1 hσ, iha h.2 hσ⟩
  | lam r x t ih => exact ih h (FreeActions.under hσ)

theorem FreeActions.instantiate {t a : Nameless String} (ht : t.FreeActions)
    (ha : a.FreeActions) : (t.instantiate a).FreeActions := by
  apply ht.fill
  intro i x hx
  cases i with
  | zero => exact ha
  | succ i => exact hx

end Nameless

/-- Only free references of the bodies bear the name of an action. -/
def Table.FreeActions (d : Table) : Prop :=
  ∀ x u, d.unfolding x = some u → u.FreeActions

section FreeActions

variable {s : Setting} {d : Table} {m : Mode} (hd : d.FreeActions)

include hd

/-- Where only free references bear the name of an action, only free ones are
executed, and it stays like that. -/
theorem Rule.freeActions {t u : Nameless String} {l : Option String} (h : Rule s d m true t l u)
    (ht : t.FreeActions) : Rule s d m false t l u ∧ u.FreeActions := by
  cases h with
  | beta x u v hr => exact ⟨.beta x u v hr, .instantiate (t := u) ht.1 ht.2⟩
  | delta hx => exact ⟨.delta hx, hd _ _ hx⟩
  | action hexec hname hline =>
    have hidentity : Nameless.identity.FreeActions := (by decide : Action.isName "x" = false)
    exact ⟨.action hexec hname hline, hidentity⟩
  | boundAction _ _ hname _ =>
    -- the rule that is left out needs a bound reference with the name of an action
    have hnot := ht.1
    rw [Nameless.FreeActions, hname] at hnot
    cases hnot

theorem step_freeActions {t u : Nameless String} {l : Option String}
    (h : Step (Rule s d m true) t l u) (ht : t.FreeActions) :
    Step (Rule s d m false) t l u ∧ u.FreeActions := by
  induction h with
  | root hr =>
    obtain ⟨hr', hu⟩ := hr.freeActions hd ht
    exact ⟨.root hr', hu⟩
  | fn a _ ih =>
    obtain ⟨hs, hu⟩ := ih ht.1
    exact ⟨.fn a hs, hu, ht.2⟩
  | arg f _ ih =>
    obtain ⟨hs, hu⟩ := ih ht.2
    exact ⟨.arg f hs, ht.1, hu⟩
  | body r x _ ih =>
    obtain ⟨hs, hu⟩ := ih ht
    exact ⟨.body r x hs, hu⟩

theorem steps_freeActions {t u : Nameless String} {ls : List String}
    (h : Steps (Rule s d m true) t ls u) (ht : t.FreeActions) :
    Steps (Rule s d m false) t ls u := by
  induction h with
  | refl t => exact .refl t
  | head hs _ ih =>
    obtain ⟨hs', hu⟩ := step_freeActions hd hs ht
    exact .head hs' (ih hu)

end FreeActions

/-! ### Soundness -/

/-- **Reduction is sound.**  A reduction that ends, of a well-scoped expression that
is part of no definition, ends with a well-scoped expression, and without binders
the one turns into the other by finitely many steps of the rules, in an order in
which they print what the reduction has printed.  If only free references bear the
name of an action, no other is executed.

The supply lies above the keys in use; that is what makes new functions new. -/
theorem reduce_follows_rules {s : Setting} {depth : Nat} {m : Mode} {d : Table} {trail : Trail}
    {t r : Term} {p : Place} {e e' : Effects} (ht : t.WellScoped)
    (hkeys : ∀ b ∈ t.binders, b.key < e.next) (hd : d.WellScoped)
    (h : reduce s depth ⟨m, .outside d, trail⟩ t e = .ok (r, p) e') :
    r.WellScoped ∧ ∃ printed, e'.lines = e.lines ++ printed ∧
      Steps (Rule s d m true) (t.nameless []) printed (r.nameless []) ∧
      ((t.nameless []).FreeActions → d.FreeActions →
        Steps (Rule s d m false) (t.nameless []) printed (r.nameless [])) := by
  have hrun := runs_of_reduce h
  have htidy : t.Tidy e.next := ⟨ht.nodup, hkeys⟩
  have hready : Ready (Rule s d m true) s [] (.outside d) e.next t :=
    ⟨ht.links, htidy, fun _ hb => absurd hb List.not_mem_nil, faithful_outside hd m [] t⟩
  obtain ⟨hlinks, -, printed, hlines, hsteps⟩ :=
    hrun.follows (fun _ x u v hr => .beta x u v hr) hready (.inr ⟨rfl, trivial⟩)
  exact ⟨⟨hlinks, (hrun.grown htidy).nodup⟩, printed, hlines, hsteps,
    fun ht' hd' => steps_freeActions hd' hsteps ht'⟩

/-- `print ([$f. q f] id)` where `id` is `[x. x]`: the argument is reduced by a beta
and a delta step, then it is printed. -/
theorem reduce_follows_rules_printing :
    let d : Table := ⟨[⟨"id", .lam ⟨0, false⟩ "x" (.ref "x" (.binder ⟨0, false⟩))⟩]⟩
    let t : Term := .app (.ref "print" .free)
      (.app (.lam ⟨1, true⟩ "f" (.app (.ref "q" .free) (.ref "f" (.binder ⟨1, true⟩))))
        (.ref "id" .free))
    let s : Setting := ⟨true, .standard, 10⟩
    t.WellScoped ∧ d.WellScoped ∧
      reduce s 20 ⟨.normal, .outside d, []⟩ t ⟨2, []⟩
        = .ok ((Term.identity 4).1, .outside d) ⟨5, ["?q [x. x]"]⟩ ∧
      ∃ printed, ["?q [x. x]"] = [] ++ printed ∧
        Steps (Rule s d .normal true) (t.nameless []) printed Nameless.identity := by
  intro d t s
  have ht : t.WellScoped := by decide
  have hkeys : ∀ b ∈ t.binders, b.key < 2 := by decide
  have hd : d.WellScoped := by decide
  have h : reduce s 20 ⟨.normal, .outside d, []⟩ t ⟨2, []⟩
      = .ok ((Term.identity 4).1, .outside d) ⟨5, ["?q [x. x]"]⟩ := rfl
  obtain ⟨-, printed, hlines, hsteps, -⟩ := reduce_follows_rules ht hkeys hd h
  exact ⟨ht, hd, h, printed, hlines, hsteps⟩

/-- In `[print. print q]` the reference `print` belongs to the function and is executed
all the same.  No rule for free references does that. -/
theorem reduce_executes_bound_reference :
    let t : Term := .lam ⟨0, false⟩ "print"
      (.app (.ref "print" (.binder ⟨0, false⟩)) (.ref "q" .free))
    let s : Setting := ⟨true, .standard, 10⟩
    t.WellScoped ∧ ∃ r e', reduce s 10 ⟨.normal, .outside ⟨[]⟩, []⟩ t ⟨1, []⟩
        = .ok (r, .outside ⟨[]⟩) e' ∧
      ¬ ∃ printed, e'.lines = printed ∧
        Steps (Rule s ⟨[]⟩ .normal false) (t.nameless []) printed (r.nameless []) := by
  intro t s
  refine ⟨by decide, .lam ⟨0, false⟩ "print" (Term.identity 1).1, ⟨2, ["?q"]⟩, rfl, ?_⟩
  rintro ⟨printed, -, hsteps⟩
  have hirreducible : ∀ l v, ¬ Step (Rule s ⟨[]⟩ .normal false) (t.nameless []) l v := by
    intro l v hstep
    cases hstep with
    | root h => cases h
    | body _ _ h =>
      cases h with
      | root h =>
        cases h with
        | boundAction hlinked => cases hlinked
      | fn _ h =>
        cases h with
        | root h => cases h
      | arg _ h =>
        cases h with
        | root h =>
          cases h with
          | delta hq => cases hq
  cases hsteps.eq_of_irreducible hirreducible

end LambdaScript
