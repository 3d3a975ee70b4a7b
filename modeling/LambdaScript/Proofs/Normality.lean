/-
LambdaScript/Proofs/Normality.lean

What is left of an expression that has been reduced.

A result is *settled* (`Term.Settled`): no function that is not recursive stands
before an argument, and no free reference bears the name of a definition.  Every
reduction in mode `normal` or `doneRecursive` ends settled (`Runs.settled`).  The
argument follows the tasks of a reduction: whatever comes out of a substitution,
a copy or an unrolling is reduced again as a whole, so only what is held back or
ignored at the very end has to be looked at.

Main result: `reduce_normalises`, on the mode `doneRecursive`.  It never fails
but for want of depth, its results are settled, and a settled expression is
reduced to itself.  Where nothing is recursive, mode `normal` does the same in
the same way, and the results are normal forms for beta and delta.
-/
import LambdaScript.Proofs.Confluence
import LambdaScript.Proofs.Plain

namespace LambdaScript

open Nameless (Step Unfolding BetaDelta)

namespace Table

theorem mem_names {d : Table} {x : String} {e : Definition} (h : d.find? x = some e) :
    x ∈ d.names := by
  have hname := List.find?_some h
  exact List.mem_map.mpr ⟨e, List.mem_of_find?_eq_some h, of_decide_eq_true hname⟩

theorem mem_names_of_unfolding {d : Table} {x : String} {u : Nameless String}
    (h : d.unfolding x = some u) : x ∈ d.names := by
  obtain ⟨e, he, -⟩ := Option.map_eq_some_iff.mp h
  exact mem_names he

theorem find?_eq_none {d : Table} {x : String} (h : x ∉ d.names) : d.find? x = none := by
  rcases hx : d.find? x with - | e
  · rfl
  · exact absurd (mem_names hx) h

theorem notMem_names {d : Table} {x : String} (h : d.find? x = none) : x ∉ d.names := by
  intro hx
  obtain ⟨e, he, hname⟩ := List.mem_map.mp hx
  exact of_decide_eq_false (eq_false_of_ne_true (List.find?_eq_none.mp h e he)) hname

end Table

namespace Term

/-! ### Settled expressions -/

/-- What an expression consists of, itself included. -/
def parts : Term → List Term
  | app f a => app f a :: (f.parts ++ a.parts)
  | lam b x t => lam b x t :: t.parts
  | t => [t]

/-- How many expressions lie inside one another. -/
def height : Term → Nat
  | app f a => max f.height a.height + 1
  | lam _ _ t => t.height + 1
  | _ => 1

theorem height_pos (t : Term) : 0 < t.height := by
  cases t <;> exact Nat.succ_pos _

/-- Every part of an expression is as `P` says. -/
def All (P : Term → Prop) : Term → Prop
  | app f a => P (app f a) ∧ f.All P ∧ a.All P
  | lam b x t => P (lam b x t) ∧ t.All P
  | t => P t

theorem All.of_mem_parts {P : Term → Prop} {t u : Term} (h : t.All P) (hu : u ∈ t.parts) :
    P u := by
  induction t with
  | missing => exact List.mem_singleton.mp hu ▸ h
  | foreign => exact List.mem_singleton.mp hu ▸ h
  | ref x l => exact List.mem_singleton.mp hu ▸ h
  | lam b x t ih =>
    rcases List.mem_cons.mp hu with rfl | hu
    · exact h.1
    · exact ih h.2 hu
  | app f a ihf iha =>
    rcases List.mem_cons.mp hu with rfl | hu
    · exact h.1
    · rcases List.mem_append.mp hu with hu | hu
      · exact ihf h.2.1 hu
      · exact iha h.2.2 hu

/-- Reduction may end like this: no function that is not recursive is before an
argument, and no free reference bears one of the names that are defined. -/
def Done (names : List String) : Term → Prop
  | app (lam b _ _) _ => b.recursive = true
  | ref x .free => x ∉ names
  | _ => True

/-- Every part is done. -/
def Settled (names : List String) (t : Term) : Prop :=
  t.All (Done names)

namespace Settled

variable {names : List String} {t : Term}

/-- Without recursive functions, a settled expression has no step. -/
theorem irreducible (h : t.Settled names) (ht : t.Plain false) {U : Unfolding String}
    (hU : ∀ {x u}, U x = some u → x ∈ names) (Γ : List Binder) (l : Option String)
    (v : Nameless String) : ¬ Step (BetaDelta U) (t.nameless Γ) l v := by
  induction t generalizing Γ l v with
  | missing => exact ht.elim
  | foreign => exact ht.elim
  | ref x link =>
    intro hstep
    cases link with
    | free =>
      cases hstep with
      | root hr =>
        cases hr with
        | delta hx => exact h (hU hx)
    | binder b =>
      cases hstep with
      | root hr => cases hr
    | reference k own => exact ht
    | endless => exact ht
  | lam b x t ih =>
    intro hstep
    cases hstep with
    | root hr => cases hr
    | body _ _ hstep => exact ih h.2 ht.2 _ _ _ hstep
  | app f a ihf iha =>
    intro hstep
    cases hstep with
    | root hr =>
      cases f with
      | lam b x u =>
        have hb := ht.1.1 h.1
        cases hb
      | ref x link => cases link <;> cases hr
      | _ => cases hr
    | fn _ hstep => exact ihf h.2.1 ht.1 _ _ _ hstep
    | arg _ hstep => exact iha h.2.2 ht.2 _ _ _ hstep

end Settled

end Term

/-! ### Results are settled -/

/-- What a task may start from: an application with `P` on both sides, if it is to be
applied, and anything if it is to be reduced. -/
def Task.Starts (P : Term → Prop) : Task → Term → Prop
  | .reduce, _ => True
  | .unroll, _ => False
  | _, .app f a => P f ∧ P a
  | _, _ => False

theorem Mode.afterApplication_ne (m : Mode) : m.afterApplication ≠ .applyRecursive := by
  cases m <;> decide

/-- An application that is held back has a recursive left side. -/
theorem Circumstance.HoldsBack.isRecursive {c : Circumstance} {f a : Term} (h : c.HoldsBack f a)
    (hc : c.mode ≠ .applyRecursive) : f.isRecursive = .ok true := by
  unfold Circumstance.HoldsBack at h
  rcases hm : c.mode with - | - | -
  · rw [hm] at h
    exact h.1
  · exact absurd hm hc
  · rw [hm] at h
    exact h

/-- The names are found at the place, whatever it holds. -/
def Place.Offers (names : List String) (p : Place) : Prop :=
  ∀ t x, p.lookUp t x = none → x ∉ names

namespace Place.Offers

variable {names : List String} {p : Place}

theorem leave (h : p.Offers names) (t : Term) : (p.leave t).Offers names := by
  intro _ x hx
  rw [Place.lookUp_eq, Place.definitions_leave, ← Place.lookUp_eq] at hx
  exact h t x hx

theorem down (h : p.Offers names) (f : Frame) : (p.down f).Offers names := by
  intro t x hx
  rw [Place.lookUp_eq, Place.definitions_down, ← Place.lookUp_eq] at hx
  exact h (f.plug t) x hx

theorem afterBeta {c : Circumstance} (h : c.place.Offers names) (b : Binder) (x : String)
    (t a : Term) : (c.afterBeta b x t a).place.Offers names := by
  show Place.Offers names (if t.isArgumentOf b then _ else _)
  split
  · exact h.leave _
  · exact (h.down _).down _

end Place.Offers

theorem Table.offers_outside (d : Table) : (Place.outside d).Offers d.names :=
  fun _ _ hx => Table.notMem_names (Option.map_eq_none_iff.mp hx)

/-- A run loses no names. -/
theorem Runs.offers {s : Setting} {task : Task} {c : Circumstance} {t : Term} {e e' : Effects}
    {r : Placed} (h : Runs s task c t e r e') {names : List String}
    (hc : c.place.Offers names) : r.2.Offers names := by
  induction h with
  | stay _ => exact hc
  | unbound _ => exact hc
  | unfold _ _ ih => exact ih (hc.leave _)
  | lam _ _ => exact hc
  | app _ _ _ _ _ _ ih => exact ih hc
  | held _ => exact hc
  | contract _ _ _ ih => exact ih hc
  | recur _ _ _ _ ih₁ ih₂ ih₃ => exact ih₃ (ih₂ (ih₁ hc))
  | beta _ ih => exact ih (hc.afterBeta _ _ _ _)
  | act _ _ _ => exact hc.leave _
  | ignored _ => exact hc
  | rest _ => exact hc
  | inner _ _ _ _ ih => exact ih hc
  | outer _ _ _ ih₁ ih₂ => exact ih₂ (ih₁ hc)

theorem Runs.settled {s : Setting} {task : Task} {c : Circumstance} {t : Term} {e e' : Effects}
    {r : Placed} (h : Runs s task c t e r e') {names : List String}
    (hc : c.place.Offers names) (hp : c.place.Plain true) (ht : t.Plain true)
    (hm : c.mode ≠ .applyRecursive) (hs : task.Starts (·.Settled names) t) :
    r.1.Settled names := by
  induction h with
  | @stay c t e hstays =>
    cases t with
    | ref x l =>
      cases l with
      | free => cases hstays
      | _ => trivial
    | lam b x t => cases hstays
    | app f a =>
      rw [ht.1.stays_app] at hstays
      cases hstays
    | _ => trivial
  | unbound hx => exact hc _ _ hx
  | @unfold c x body e r e' hbody _ ih =>
    exact ih (hc.leave _) (hp.leave ht) ((hp _ ht x body hbody).copy e.next) hm trivial
  | lam _ ih => exact ⟨trivial, ih (hc.down _) (hp.body ht) ht.2 hm trivial⟩
  | app _ hf ha _ ihf iha ih =>
    have hpf := (hf.plain (hp.fn ht.2) ht.1).1
    have hpa := (ha.plain (hp.arg hpf) ht.2).1
    exact ih hc hp ⟨hpf, hpa⟩ hm ⟨ihf (hc.down _) (hp.fn ht.2) ht.1 hm trivial,
      iha (hc.down _) (hp.arg hpf) ht.2 hm trivial⟩
  | @held c f a e hheld =>
    refine ⟨?_, hs⟩
    cases f with
    | lam b x u => exact Except.ok.inj (hheld.isRecursive hm)
    | _ => trivial
  | contract _ _ _ ih => exact ih hc hp ht hm hs
  | recur _ h₁ h₂ _ _ _ ih =>
    -- whatever unrolling leaves behind, it is reduced again in mode `normal`
    have hp₁ := h₁.plain hp ht
    have hp₂ := h₂.plain hp₁.2 hp₁.1
    exact ih (h₂.offers (h₁.offers hc)) hp₂.2 hp₂.1 nofun trivial
  | beta _ ih =>
    exact ih (hc.afterBeta _ _ _ _) (hp.afterBeta ht) (ht.1.2.subst ht.2 _ _)
      (Mode.afterApplication_ne _) trivial
  | act _ _ _ => exact ⟨trivial, trivial⟩
  | @ignored c f a e hignores =>
    refine ⟨?_, hs⟩
    cases f with
    | lam b x u => cases hignores
    | _ => trivial
  | rest _ => exact hs.elim
  | inner _ _ _ _ _ => exact hs.elim
  | outer _ _ _ _ _ => exact hs.elim

/-! ### Settled expressions are reduced to themselves -/

theorem reduceApplicationWith_of_settled {again : Reducer} {s : Setting} {c : Circumstance}
    {f a : Term} {names : List String} (h : (Term.app f a).Settled names) (hf : f.Plain true)
    (hs : s.execute = false) (hc : c.mode = .doneRecursive) (e : Effects) :
    reduceApplicationWith again s c f a e = .ok (.app f a, c.place) e := by
  obtain ⟨r, hr, -⟩ := hf.isRecursive_eq
  simp only [reduceApplicationWith, hc, hr]
  cases r with
  | true => rfl
  | false =>
    cases f with
    | missing => exact hf.elim
    | foreign => exact hf.elim
    | app g b => rfl
    | lam b x u =>
      -- a settled application has a recursive function in front, and that is held back
      have hb : b.recursive = true := h.1
      rw [Term.isRecursive, hb] at hr
      cases hr
    | ref x l =>
      show applyWith again s c (.app (.ref x l) a) e = _
      rw [applyWith, hs]
      rfl

/-- When nothing is executed, a settled expression is reduced to itself, with no more
depth than it has itself. -/
theorem reduce_of_settled {s : Setting} (hs : s.execute = false) {d : Table} {t : Term}
    (h : t.Settled d.names) (ht : t.Plain true) {depth : Nat} (hdepth : t.height ≤ depth)
    (trail : Trail) (e : Effects) :
    reduce s depth ⟨.doneRecursive, .outside d, trail⟩ t e = .ok (t, .outside d) e := by
  induction t generalizing depth trail e with
  | missing => exact ht.elim
  | foreign => exact ht.elim
  | ref x l =>
    obtain ⟨n, rfl⟩ := Nat.exists_eq_add_one.mpr (Nat.lt_of_lt_of_le (Term.height_pos _) hdepth)
    cases l with
    | free =>
      have hx : (Place.outside d).lookUp (.ref x .free) x = none :=
        Option.map_eq_none_iff.mpr (Table.find?_eq_none h)
      simp only [reduce, reduceWith, reduceVisiting, hx]
      rfl
    | binder b => rfl
    | reference k own => exact ht.elim
    | endless => exact ht.elim
  | lam b x t ih =>
    obtain ⟨n, rfl⟩ := Nat.exists_eq_add_one.mpr (Nat.lt_of_lt_of_le (Term.height_pos _) hdepth)
    have hbody := ih h.2 ht.2 (Nat.le_of_succ_le_succ hdepth) (.function b :: trail) e
    exact Outcome.bind_of_ok hbody
  | app f a ihf iha =>
    obtain ⟨n, rfl⟩ := Nat.exists_eq_add_one.mpr (Nat.lt_of_lt_of_le (Term.height_pos _) hdepth)
    have hdepth' := Nat.max_le.mp (Nat.le_of_succ_le_succ hdepth)
    have hf := ihf h.2.1 ht.1 hdepth'.1 (.other :: trail) e
    have ha := iha h.2.2 ht.2 hdepth'.2 (.other :: trail) e
    rw [reduce, reduceWith_app ht.1.stays_app]
    refine (Outcome.bind_of_ok hf).trans ((Outcome.bind_of_ok ha).trans ?_)
    exact reduceApplicationWith_of_settled h ht.1 hs rfl e

/-! ### Reduction without unrolling does not fail -/

/-- In mode `doneRecursive` the only thing that can go wrong with a plain expression
is that it goes too deep. -/
theorem Breaks.fault_eq {s : Setting} {task : Task} {c : Circumstance} {t : Term} {e e' : Effects}
    {err : Failure} (h : Breaks s task c t e err e') (hp : c.place.Plain true) (ht : t.Plain true)
    (hm : c.mode = .doneRecursive) (hs : task.Starts (fun _ => True) t) :
    err.fault = .tooDeep := by
  induction h with
  | tooDeep _ => rfl
  | @unfold c x body e err e' hbody _ ih =>
    exact ih (hp.leave ht) ((hp _ ht x body hbody).copy e.next) hm trivial
  | lam _ ih => exact ih (hp.body ht) ht.2 hm trivial
  | fn _ _ ih => exact ih (hp.fn ht.2) ht.1 hm trivial
  | arg _ hf _ ih => exact ih (hp.arg (hf.plain (hp.fn ht.2) ht.1).1) ht.2 hm trivial
  | app _ hf ha _ ih =>
    have hpf := (hf.plain (hp.fn ht.2) ht.1).1
    have hpa := (ha.plain (hp.arg hpf) ht.2).1
    exact ih hp ⟨hpf, hpa⟩ hm ⟨trivial, trivial⟩
  | @stumble c f a e fault hstumbles =>
    rcases hstumbles with ⟨-, hfault⟩ | ⟨hnormal, -⟩
    · obtain ⟨r, hr, -⟩ := ht.1.isRecursive_eq
      rw [hr] at hfault
      cases hfault
    · rw [hm] at hnormal
      cases hnormal
  | contract _ _ _ ih => exact ih hp ht hm ⟨trivial, trivial⟩
  | recurUnroll hrecurs _ _ => cases hm.symm.trans hrecurs.mode
  | recurApply hrecurs _ _ _ => cases hm.symm.trans hrecurs.mode
  | recurReduce hrecurs _ _ _ _ => cases hm.symm.trans hrecurs.mode
  | nothingToApply => exact hs.elim
  | @notAnApplication c t e _ happ =>
    cases t with
    | app f a => exact absurd rfl (happ f a)
    | _ => exact hs.elim
  | @beta c b x t a e err e' _ ih =>
    refine ih (hp.afterBeta ht) (ht.1.2.subst ht.2 _ _) ?_ trivial
    show c.mode.afterApplication = _
    rw [hm]
    rfl
  | @act c x l a e fault _ _ hfault =>
    obtain ⟨line, hline⟩ := ht.2.announce_eq (c.place.definitions (.app (.ref x l) a)) s.display
    rw [hline] at hfault
    cases hfault
  | puzzle _ => exact hs.elim
  | inner _ _ _ => exact hs.elim
  | innerRest _ _ _ _ => exact hs.elim
  | outer _ _ _ => exact hs.elim
  | outerRest _ _ _ _ => exact hs.elim

/-! ### The modes without recursive functions -/

section Unmarked

variable {s : Setting} {d : Table} {again : Reducer}

/-- An application that is not recursive is applied, unless the mode forbids it. -/
theorem reduceApplicationWith_eq_applyWith {c : Circumstance} {f a : Term}
    (hf : f.isRecursive = .ok false) (hc : c.mode = .normal ∨ c.mode = .doneRecursive) :
    reduceApplicationWith again s c f a = applyWith again s c (.app f a) := by
  rcases hc with hm | hm
  · simp only [reduceApplicationWith, hm, hf]
    rfl
  · simp only [reduceApplicationWith, hm, hf]
    rfl

/-- Outside of all definitions it makes no difference whether the body of a function is
replaced where it stands. -/
theorem afterBeta_outside (m : Mode) (d : Table) (trail : Trail) (b : Binder) (x : String)
    (t a : Term) : Circumstance.afterBeta ⟨m, .outside d, trail⟩ b x t a
      = ⟨m.afterApplication, .outside d, trail⟩ := by
  unfold Circumstance.afterBeta
  split
  · rfl
  · rfl

theorem applyWith_normal_eq (hagain : ∀ {t : Term}, t.Plain false → ∀ trail e,
      again ⟨.normal, .outside d, trail⟩ t e = again ⟨.doneRecursive, .outside d, trail⟩ t e)
    {f a : Term} (hf : f.Plain false) (ha : a.Plain false) (trail : Trail) (e : Effects) :
    applyWith again s ⟨.normal, .outside d, trail⟩ (.app f a) e
      = applyWith again s ⟨.doneRecursive, .outside d, trail⟩ (.app f a) e := by
  cases f with
  | missing => rfl
  | foreign => rfl
  | app g b => rfl
  | ref x l =>
    simp only [applyWith]
    split
    · rfl
    · rfl
  | lam b x t =>
    apply Outcome.bind_congr rfl
    rintro new e' hmake
    cases hmake
    show again (Circumstance.afterBeta ⟨.normal, .outside d, trail⟩ b x t a) _ _
      = again (Circumstance.afterBeta ⟨.doneRecursive, .outside d, trail⟩ b x t a) _ _
    rw [afterBeta_outside, afterBeta_outside]
    exact hagain (hf.2.subst ha b e.next) trail _

/-- Where nothing is recursive, the mode `normal` is the mode `doneRecursive`. -/
theorem reduce_normal_eq (hd : (Place.outside d).Plain false) (depth : Nat) {t : Term}
    (ht : t.Plain false) (trail : Trail) (e : Effects) :
    reduce s depth ⟨.normal, .outside d, trail⟩ t e
      = reduce s depth ⟨.doneRecursive, .outside d, trail⟩ t e := by
  induction depth generalizing t trail e with
  | zero => rfl
  | succ n ih =>
    cases t with
    | missing => rfl
    | foreign => rfl
    | lam b x t =>
      apply Outcome.bind_congr (ih ht.2 _ e)
      rintro ⟨t', p⟩ e' -
      rfl
    | ref x l =>
      cases l with
      | free =>
        rcases hx : (Place.outside d).lookUp (.ref x .free) x with - | body
        · simp only [reduce, reduceWith, reduceVisiting, hx]
        · simp only [reduce, reduceWith, reduceVisiting, hx]
          apply Outcome.bind_congr rfl
          rintro new e' hmake
          cases hmake
          exact ih ((hd _ ht x body hx).copy e.next) _ _
      | _ => rfl
    | app f a =>
      rw [reduce, reduceWith_app ht.1.stays_app, reduceWith_app ht.1.stays_app]
      -- both sides come out the same, and as plain as they were
      apply Outcome.bind_congr (ih ht.1 _ e)
      rintro ⟨f', p⟩ e₁ hf
      apply Outcome.bind_congr (ih ht.2 _ e₁)
      rintro ⟨a', q⟩ e₂ ha
      have hpf : f'.Plain false := ((runs_of_reduce hf).plain hd ht.1).1
      have hpa : a'.Plain false := ((runs_of_reduce ha).plain hd ht.2).1
      have hr := hpf.isRecursive_eq_false
      show reduceApplicationWith _ s ⟨.normal, .outside d, .other :: trail⟩ f' a' e₂
        = reduceApplicationWith _ s ⟨.doneRecursive, .outside d, .other :: trail⟩ f' a' e₂
      rw [reduceApplicationWith_eq_applyWith hr (.inl rfl),
        reduceApplicationWith_eq_applyWith hr (.inr rfl)]
      exact applyWith_normal_eq ih hpf hpa _ e₂

end Unmarked

/-! ### Normalisation -/

/-- **Reduction in mode `doneRecursive` normalises.**  Of a scoped expression outside of
all definitions,

* it never fails, if it may go as deep as it needs;
* its results hold no function before an argument but recursive ones, and no free
  reference to a definition;
* it makes itself of its results, when nothing is executed;
* after it, a session has the trail that it had before.

Where nothing is recursive, the mode `normal` is no different, and its results are
normal forms. -/
theorem reduce_normalises {t : Term} {d : Table} (ht : t.Scoped [])
    (hd : ∀ x ∈ d.toList, x.body.Scoped []) (s : Setting) (depth : Nat) (trail : Trail)
    (e : Effects) :
    (∀ err e', reduce s depth ⟨.doneRecursive, .outside d, trail⟩ t e = .error err e' →
      err.fault = .tooDeep) ∧
    (∀ r p e', reduce s depth ⟨.doneRecursive, .outside d, trail⟩ t e = .ok (r, p) e' →
      (∀ b x u a, Term.app (.lam b x u) a ∈ r.parts → b.recursive = true) ∧
      (∀ x, Term.ref x .free ∈ r.parts → x ∉ d.names) ∧
      ∀ depth' ≥ r.height, ∀ trail' e₁,
        reduce { s with execute := false } depth' ⟨.doneRecursive, .outside d, trail'⟩ r e₁
          = .ok (r, .outside d) e₁) ∧
    (∀ execute r σ σ', Act.simplify execute .doneRecursive t σ = .ok r σ' →
      σ'.trail = σ.trail) ∧
    (t.Unmarked → d.Unmarked →
      reduce s depth ⟨.normal, .outside d, trail⟩ t e
        = reduce s depth ⟨.doneRecursive, .outside d, trail⟩ t e ∧
      ∀ r p e', reduce s depth ⟨.normal, .outside d, trail⟩ t e = .ok (r, p) e' →
        ∀ l v, ¬ Step (BetaDelta d.unfolding) (r.nameless []) l v) := by
  have htp := ht.plain_true
  have hdp := Table.plain_outside fun x hx => (hd x hx).plain_true
  have hoffers := d.offers_outside
  refine ⟨?_, ?_, ?_, ?_⟩
  · intro err e' h
    exact (breaks_of_reduce h).fault_eq hdp htp rfl trivial
  · intro r p e' h
    have hrun := runs_of_reduce h
    have hsettled : r.Settled d.names := hrun.settled hoffers hdp htp nofun trivial
    refine ⟨?_, ?_, ?_⟩
    · intro b x u a hmem
      exact Term.All.of_mem_parts hsettled hmem
    · intro x hmem
      exact Term.All.of_mem_parts hsettled hmem
    · intro depth' hdepth trail' e₁
      exact reduce_of_settled rfl hsettled (hrun.plain hdp htp).1 hdepth trail' e₁
  · rintro execute r σ σ' h
    obtain ⟨p, e', -, rfl⟩ := Act.simplify_eq_ok h
    rfl
  · intro htu hdu
    have htf := ht.plain_false htu
    have hdf := Table.plain_outside fun x hx => (hd x hx).plain_false (hdu x hx)
    refine ⟨reduce_normal_eq hdf depth htf trail e, ?_⟩
    intro r p e' h
    have hrun := runs_of_reduce h
    have hsettled : r.Settled d.names := hrun.settled hoffers hdp htp nofun trivial
    exact hsettled.irreducible (hrun.plain hdf htf).1 Table.mem_names_of_unfolding []

/-- `[$f. f y] ([x. x x] id)` where `id` is `[x. x]` stops at `[$f. f y] [x. x]`; its
argument, which has no recursive function, has a normal form. -/
theorem reduce_normalises_held :
    let d : Table := ⟨[⟨"id", .lam ⟨0, false⟩ "x" (.ref "x" (.binder ⟨0, false⟩))⟩]⟩
    let f : Term := .lam ⟨1, true⟩ "f" (.app (.ref "f" (.binder ⟨1, true⟩)) (.ref "y" .free))
    let x : Term := .ref "x" (.binder ⟨2, false⟩)
    let a : Term := .app (.lam ⟨2, false⟩ "x" (.app x x)) (.ref "id" .free)
    let s : Setting := ⟨false, .standard, 10⟩
    let i : Term := (Term.identity 6).1
    (Term.app f a).Scoped [] ∧ a.Scoped [] ∧ d.WellScoped ∧
      reduce s 20 ⟨.doneRecursive, .outside d, []⟩ (.app f a) ⟨3, []⟩
        = .ok (.app f i, .outside d) ⟨7, []⟩ ∧
      reduce s 4 ⟨.doneRecursive, .outside d, []⟩ (.app f i) ⟨7, []⟩
        = .ok (.app f i, .outside d) ⟨7, []⟩ ∧
      reduce s 20 ⟨.normal, .outside d, []⟩ a ⟨3, []⟩ = .ok (i, .outside d) ⟨7, []⟩ ∧
      ∀ l v, ¬ Step (BetaDelta d.unfolding) (i.nameless []) l v := by
  intro d f x a s i
  have hfa : (Term.app f a).Scoped [] := by decide
  have ha : a.Scoped [] := by decide
  have hd : d.WellScoped := by decide
  have hdone : reduce s 20 ⟨.doneRecursive, .outside d, []⟩ (.app f a) ⟨3, []⟩
      = .ok (.app f i, .outside d) ⟨7, []⟩ := rfl
  have hnormal : reduce s 20 ⟨.normal, .outside d, []⟩ a ⟨3, []⟩
      = .ok (i, .outside d) ⟨7, []⟩ := rfl
  obtain ⟨-, hresult, -, -⟩ :=
    reduce_normalises hfa (fun e he => (hd e he).links) s 20 [] ⟨3, []⟩
  obtain ⟨-, -, -, hunmarked⟩ :=
    reduce_normalises ha (fun e he => (hd e he).links) s 20 [] ⟨3, []⟩
  have hagain := (hresult _ _ _ hdone).2.2 4 (by decide) [] ⟨7, []⟩
  have hnf := (hunmarked (by decide) (by decide)).2 _ _ _ hnormal
  exact ⟨hfa, ha, hd, hdone, hagain, hnormal, hnf⟩

end LambdaScript
