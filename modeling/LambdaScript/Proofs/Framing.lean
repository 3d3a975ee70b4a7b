/-
LambdaScript/Proofs/Framing.lean

What a reduction leaves alone.

A reduction reads every definition and changes at most one: the one whose body it
works on.  `Place.Within q p` says so of places, that whatever the definitions
become while `q` is worked at, they may become while `p` is.  Going down into a
frame stays within, and so does leaving for a copy.  Hence no task gets further
than the place at which it has begun, whether it ends (`Runs.within`) or fails
(`Breaks.within`).

What is bound to a name is no part of `Table.without`, the definitions of all other
names.
-/
import LambdaScript.Proofs.Runs

namespace LambdaScript

/-! ### Places -/

namespace Place

/-- Whatever the definitions become at `q`, they may become at `p`. -/
def Within (q p : Place) : Prop :=
  ∀ t, ∃ u, q.definitions t = p.definitions u

variable {p q r : Place}

theorem Within.refl (p : Place) : p.Within p :=
  fun t => ⟨t, rfl⟩

theorem Within.trans (h : r.Within q) (h' : q.Within p) : r.Within p := by
  intro t
  obtain ⟨u, hu⟩ := h t
  obtain ⟨v, hv⟩ := h' u
  exact ⟨v, hu.trans hv⟩

/-- What the definitions have become further in. -/
theorem Within.lift (h : q.Within p) {d : Table} (hd : ∃ u, d = q.definitions u) :
    ∃ u, d = p.definitions u := by
  obtain ⟨u, rfl⟩ := hd
  exact h u

theorem within_down (p : Place) (f : Frame) : (p.down f).Within p :=
  fun t => ⟨f.plug t, p.definitions_down f t⟩

theorem within_leave (p : Place) (here : Term) : (p.leave here).Within p :=
  fun t => ⟨here, p.definitions_leave here t⟩

theorem within_afterBeta (c : Circumstance) (b : Binder) (x : String) (t a : Term) :
    (c.afterBeta b x t a).place.Within c.place := by
  show Place.Within (if t.isArgumentOf b then _ else _) _
  split
  · exact c.place.within_leave _
  · exact ((c.place.down (.function a)).within_down (.body b x)).trans (c.place.within_down _)

end Place

/-! ### Tasks -/

/-- What is true of a place, of the places inside it and of those that are left for stays
true along a task. -/
theorem Runs.place {P : Place → Prop} (hdown : ∀ p f, P p → P (p.down f))
    (hleave : ∀ p t, P p → P (p.leave t)) {s : Setting} {task : Task} {c : Circumstance}
    {t : Term} {e e' : Effects} {r : Placed} (h : Runs s task c t e r e') (hc : P c.place) :
    P r.2 := by
  induction h with
  | stay _ => exact hc
  | unbound _ => exact hc
  | unfold _ _ ih => exact ih (hleave _ _ hc)
  | lam _ _ => exact hc
  | app _ _ _ _ _ _ ih => exact ih hc
  | held _ => exact hc
  | contract _ _ _ ih => exact ih hc
  | recur _ _ _ _ ih₁ ih₂ ih₃ => exact ih₃ (ih₂ (ih₁ hc))
  | @beta c b x t a e r e' _ ih =>
    apply ih
    show P (if t.isArgumentOf b then _ else _)
    split
    · exact hleave _ _ hc
    · exact hdown _ _ (hdown _ _ hc)
  | act _ _ _ => exact hleave _ _ hc
  | ignored _ => exact hc
  | rest _ => exact hc
  | inner _ _ _ _ ih => exact ih hc
  | outer _ _ _ ih₁ ih₂ => exact ih₂ (ih₁ hc)

/-- A task ends at a place within the one at which it has begun. -/
theorem Runs.within {s : Setting} {task : Task} {c : Circumstance} {t : Term} {e e' : Effects}
    {r : Placed} (h : Runs s task c t e r e') : r.2.Within c.place :=
  h.place (fun p f hp => (p.within_down f).trans hp) (fun p t hp => (p.within_leave t).trans hp)
    (.refl _)

/-- A task that fails leaves definitions that the place at which it has begun may have. -/
theorem Breaks.within {s : Setting} {task : Task} {c : Circumstance} {t : Term} {e e' : Effects}
    {err : Failure} (h : Breaks s task c t e err e') :
    ∃ u, err.table = c.place.definitions u := by
  induction h with
  | tooDeep _ => exact ⟨_, rfl⟩
  | unfold _ _ ih => exact (Place.within_leave _ _).lift ih
  | lam _ ih => exact (Place.within_down _ _).lift ih
  | fn _ _ ih => exact (Place.within_down _ _).lift ih
  | arg _ _ _ ih => exact (Place.within_down _ _).lift ih
  | app _ _ _ _ ih => exact ih
  | stumble _ => exact ⟨_, rfl⟩
  | contract _ _ _ ih => exact ih
  | recurUnroll _ _ ih => exact ih
  | recurApply _ h₁ _ ih => exact h₁.within.lift ih
  | recurReduce _ h₁ h₂ _ ih => exact (h₂.within.trans h₁.within).lift ih
  | nothingToApply => exact ⟨_, rfl⟩
  | notAnApplication _ _ => exact ⟨_, rfl⟩
  | beta _ ih => exact (Place.within_afterBeta _ _ _ _ _).lift ih
  | act _ _ _ => exact ⟨_, rfl⟩
  | puzzle _ => exact ⟨_, rfl⟩
  | inner _ _ ih => exact (Place.within_down _ _).lift ih
  | innerRest _ _ _ ih => exact ih
  | outer _ _ ih => exact ih
  | outerRest _ h₁ _ ih => exact h₁.within.lift ih

/-! ### Definitions of other names -/

namespace Table

/-- The definitions of all names but `a`. -/
def without (d : Table) (a : String) : Table :=
  ⟨d.toList.filter (·.name ≠ a)⟩

theorem filter_bindIn (a : String) (t : Term) (l : List Definition) :
    (bindIn a t l).filter (·.name ≠ a) = l.filter (·.name ≠ a) := by
  induction l with
  | nil => simp [bindIn]
  | cons e rest ih =>
    rw [bindIn]
    by_cases h : e.name = a
    · simp [h]
    · rw [if_neg h, List.filter_cons, List.filter_cons, ih]

theorem without_bind (d : Table) (a : String) (t : Term) :
    (d.bind a t).without a = d.without a :=
  congrArg Table.mk (filter_bindIn a t d.toList)

end Table

end LambdaScript
