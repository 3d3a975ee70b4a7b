/-
LambdaScript/Proofs/Circles.lean

Names that lead in a circle.

A name leads to `a` (`Table.Leads`) when its definition mentions `a`, or a name that
leads to `a`.  While `a` itself is reduced in its place, such names lead in a circle:
what is found under them mentions such a name again, for as long as the body of `a`
does (`Place.Circular`).

Main result: `Runs.avoids`.  A reference is replaced by a copy of what is found under
its name, and the copy is reduced, before anything else is done with it.  So a
reduction that meets a circle does not end, even if the reference would have been
thrown away later; and one that ends has met none.
-/
import LambdaScript.Proofs.Plain
import LambdaScript.Proofs.Simulation

namespace LambdaScript

/-! ### What leads to a name -/

namespace Term

variable {S S' : Set String} {t : Term}

theorem Avoids.mono (h : t.Avoids S) (hS : S' ⊆ S) : t.Avoids S' := by
  induction t with
  | missing => trivial
  | foreign => trivial
  | app f a ihf iha => exact ⟨ihf h.1, iha h.2⟩
  | lam b x t ih => exact ih h
  | ref x l =>
    cases l with
    | free => exact fun hx => h (hS hx)
    | _ => trivial

/-- An expression that does not avoid `S` mentions some name of it. -/
theorem exists_of_not_avoids (h : ¬ t.Avoids S) : ∃ x ∈ S, ¬ t.Avoids {x} := by
  induction t with
  | missing => exact absurd trivial h
  | foreign => exact absurd trivial h
  | app f a ihf iha =>
    by_cases hf : f.Avoids S
    · obtain ⟨x, hx, hmentions⟩ := iha fun ha => h ⟨hf, ha⟩
      exact ⟨x, hx, fun h' => hmentions h'.2⟩
    · obtain ⟨x, hx, hmentions⟩ := ihf hf
      exact ⟨x, hx, fun h' => hmentions h'.1⟩
  | lam b x t ih => exact ih h
  | ref x l =>
    cases l with
    | free => exact ⟨x, not_not.mp h, fun h' => h' rfl⟩
    | _ => exact absurd trivial h

end Term

/-- Unfolding `x`, and what comes of it, leads to a reference to `a`. -/
inductive Table.Leads (d : Table) (a : String) : String → Prop
  | here : Leads d a a
  | through {x y : String} {e : Definition} : d.find? x = some e → ¬ e.body.Avoids {y} →
      Leads d a y → Leads d a x

/-- The names that lead to `a`. -/
def Table.circle (d : Table) (a : String) : Set String :=
  { x | d.Leads a x }

/-- The body of a name that does not lead to `a` mentions no name that does. -/
theorem Table.avoids_circle {d : Table} {a x : String} {e : Definition} (he : d.find? x = some e)
    (hx : x ∉ d.circle a) : e.body.Avoids (d.circle a) := by
  by_contra hmentions
  obtain ⟨y, hy, hmentions⟩ := Term.exists_of_not_avoids hmentions
  exact hx (.through he hmentions hy)

/-! ### Places -/

/-- The names of `S` are all found at the place, and what is found mentions one of them
again, as long as the place holds something that does. -/
def Place.Circular (S : Set String) (p : Place) : Prop :=
  ∀ t : Term, ¬ t.Avoids S → ∀ x ∈ S, ∃ body, p.lookUp t x = some body ∧ ¬ body.Avoids S

namespace Place.Circular

variable {S : Set String} {p : Place}

theorem down (h : p.Circular S) (f : Frame) : (p.down f).Circular S := by
  intro t ht x hx
  have hplug : ¬ (f.plug t).Avoids S := by
    cases f with
    | function a => exact fun h' => ht h'.1
    | argument g => exact fun h' => ht h'.2
    | body b y => exact ht
  obtain ⟨body, hbody, hmentions⟩ := h _ hplug x hx
  refine ⟨body, ?_, hmentions⟩
  rw [Place.lookUp_eq, Place.definitions_down, ← Place.lookUp_eq]
  exact hbody

theorem leave (h : p.Circular S) {t : Term} (ht : ¬ t.Avoids S) : (p.leave t).Circular S := by
  intro u _ x hx
  obtain ⟨body, hbody, hmentions⟩ := h t ht x hx
  refine ⟨body, ?_, hmentions⟩
  rw [Place.lookUp_eq, Place.definitions_leave, ← Place.lookUp_eq]
  exact hbody

end Place.Circular

/-- While `a` is reduced in its place, the names that lead to it lead in a circle. -/
theorem circular_whole (d : Table) (a : String) (u : Term) :
    (Place.whole (d.bind a u) a).Circular (d.circle a) := by
  intro t ht x hx
  by_cases hxa : x = a
  · refine ⟨t, ?_, ht⟩
    rw [hxa, Place.lookUp_eq, Place.definitions_whole, Table.find?_bind_self]
    rfl
  · cases hx with
    | here => exact absurd rfl hxa
    | @through _ y e he hmentions hy =>
      refine ⟨e.body, ?_, fun havoids => hmentions (havoids.mono ?_)⟩
      · rw [Place.lookUp_eq, Place.definitions_whole, Table.bind_bind, Table.find?_bind_of_ne hxa,
          he]
        rfl
      · rintro z rfl
        exact hy

/-! ### Reductions -/

/-- **What leads in a circle is never reduced to an end.**  A reduction that ends, at a
place where the names of `S` lead in a circle, has started from something that mentions
none of them. -/
theorem Runs.avoids {S : Set String} {s : Setting} {task : Task} {c : Circumstance} {t : Term}
    {e e' : Effects} {r : Placed} (h : Runs s task c t e r e') (htask : task = .reduce)
    (hc : c.place.Circular S) (hp : c.place.Plain true) (ht : t.Plain true) : t.Avoids S := by
  induction h with
  | @stay c t e hstays =>
    cases t with
    | missing => trivial
    | foreign => trivial
    | lam b x t => cases hstays
    | app f a =>
      rw [ht.1.stays_app] at hstays
      cases hstays
    | ref x l =>
      cases l with
      | free => cases hstays
      | _ => trivial
  | @unbound c x e hnone =>
    intro hx
    obtain ⟨body, hbody, -⟩ := hc (.ref x .free) (fun h => h hx) x hx
    rw [hnone] at hbody
    cases hbody
  | @unfold c x body e r e' hbody _ ih =>
    intro hx
    have hmentions : ¬ (Term.ref x .free).Avoids S := fun h => h hx
    obtain ⟨body', hbody', hagain⟩ := hc _ hmentions x hx
    obtain rfl : body = body' := Option.some.inj (hbody.symm.trans hbody')
    -- the copy mentions such a name again, where it is looked up in the same way
    have hcopy := ih rfl (hc.leave hmentions) (hp.leave ht) ((hp _ ht x body hbody).copy _)
    exact hagain ((body.avoids_copy _).mp hcopy)
  | lam _ ih => exact ih rfl (hc.down _) (hp.body ht) ht.2
  | app _ h₁ _ _ ihf iha _ =>
    have hpf := (h₁.plain (hp.fn ht.2) ht.1).1
    exact ⟨ihf rfl (hc.down _) (hp.fn ht.2) ht.1, iha rfl (hc.down _) (hp.arg hpf) ht.2⟩
  | held _ => cases htask
  | contract _ _ _ _ => cases htask
  | recur _ _ _ _ _ _ _ => cases htask
  | beta _ _ => cases htask
  | act _ _ _ => cases htask
  | ignored _ => cases htask
  | rest _ => cases htask
  | inner _ _ _ _ _ => cases htask
  | outer _ _ _ _ _ => cases htask

end LambdaScript
