/-
LambdaScript/Proofs/Dependencies.lean

Definitions that depend on themselves have no value.

A name depends on another (`Table.DependsOn`) when the other is defined and occurs
free in its definition.  An expression may mention a name that leads, from one
dependency to the next, to a name that depends on itself.  Nothing forbids that, and
the reference may even stand where it would be thrown away.  But every reference is
replaced by its definition, and this is reduced, before anything else is done with
it; so the reduction of such an expression has no end.

The argument is turned round: from a reduction that ends it is read off that the
names it has met can be ordered.  `Runs.accessible` does so by induction on the run.
The run of a reference contains the run of a copy of its definition, and with it an
order below every name that the definition mentions.

Main result: `no_value_of_cycle`.
-/
import LambdaScript.Proofs.Broken
import Mathlib.Logic.Relation

namespace LambdaScript

open Relation (ReflTransGen TransGen)

/-! ### Names that are mentioned -/

namespace Term

/-- The name occurs as a free reference. -/
def Mentions (t : Term) (x : String) : Prop :=
  ref x .free ∈ t.parts

instance decidableMentions (t : Term) (x : String) : Decidable (t.Mentions x) :=
  inferInstanceAs (Decidable (ref x .free ∈ t.parts))

variable {x : String}

theorem mentions_app {f a : Term} : (app f a).Mentions x ↔ f.Mentions x ∨ a.Mentions x := by
  simp [Mentions, parts]

theorem mentions_lam {b : Binder} {y : String} {t : Term} :
    (lam b y t).Mentions x ↔ t.Mentions x := by
  simp [Mentions, parts]

theorem mentions_ref {y : String} {l : Link} : (ref y l).Mentions x ↔ y = x ∧ l = .free := by
  simp [Mentions, parts, eq_comm]

theorem mentions_iff_not_avoids (t : Term) : t.Mentions x ↔ ¬ t.Avoids {x} := by
  induction t with
  | missing => simp [Mentions, parts, Avoids]
  | foreign => simp [Mentions, parts, Avoids]
  | app f a ihf iha => rw [mentions_app, ihf, iha, Avoids, not_and_or]
  | lam b y t ih => rw [mentions_lam, ih, Avoids]
  | ref y l =>
    rw [mentions_ref]
    cases l with
    | free => exact ⟨fun h => not_not.mpr h.1, fun h => ⟨not_not.mp h, rfl⟩⟩
    | _ => exact iff_of_false (fun h => nomatch h.2) (fun h => h trivial)

/-- A copy mentions the names of the original. -/
theorem mentions_copy (t : Term) (next : Nat) : (t.copy next).1.Mentions x ↔ t.Mentions x := by
  rw [mentions_iff_not_avoids, mentions_iff_not_avoids, avoids_copy]

theorem hasMissing_copyUnder (t : Term) (copies : Renaming) (next : Nat) :
    (t.copyUnder copies next).1.hasMissing = t.hasMissing := by
  induction t generalizing copies next with
  | missing => rfl
  | foreign => rfl
  | app f a ihf iha => rw [copyUnder, hasMissing, hasMissing, ihf, iha]
  | lam b y t ih => exact ih _ (next + 1)
  | ref y l => rfl

/-- A copy lacks nothing that the original has. -/
theorem hasMissing_copy (t : Term) (next : Nat) : (t.copy next).1.hasMissing = t.hasMissing :=
  t.hasMissing_copyUnder [] next

end Term

/-! ### Dependencies -/

namespace Table

/-- The definition of `m` mentions `n`, and `n` is defined. -/
def DependsOn (d : Table) (m n : String) : Prop :=
  n ∈ d.names ∧ ∃ e, d.find? m = some e ∧ e.body.Mentions n

/-- What can be ordered does not depend on itself, nor does anything it leads to. -/
theorem not_cycle_of_acc {d : Table} {m n : String} (hm : Acc (fun y x => d.DependsOn x y) m)
    (hleads : ReflTransGen d.DependsOn m n) : ¬ TransGen d.DependsOn n n := by
  have hn : Acc (fun y x => d.DependsOn x y) n := by
    induction hleads with
    | refl => exact hm
    | tail _ hstep ih => exact ih.inv hstep
  intro hcycle
  -- on a cycle `n` is below itself
  have hirrefl : ∀ v, Acc (TransGen fun y x => d.DependsOn x y) v →
      ¬ TransGen (fun y x => d.DependsOn x y) v v := by
    intro v hv
    induction hv with
    | intro v _ ih => exact fun hback => ih v hback hback
  exact hirrefl n hn.transGen (Relation.transGen_swap.mpr hcycle)

end Table

/-! ### Reductions -/

/-- **What a reduction has met can be ordered.**  Outside of all definitions, every name
that an expression mentions, and every name that it leads to, depends only on names
further down. -/
theorem Runs.accessible {d : Table} (hd : ∀ e ∈ d.toList, e.body.hasMissing = false)
    {s : Setting} {task : Task} {c : Circumstance} {t : Term} {e e' : Effects} {r : Placed}
    (h : Runs s task c t e r e') (htask : task = .reduce) (hc : c.place = .outside d)
    (ht : t.hasMissing = false) {x : String} (hx : t.Mentions x) :
    Acc (fun n m => d.DependsOn m n) x := by
  induction h generalizing x with
  | @stay c t e hstays =>
    cases t with
    | missing => cases ht
    | foreign => cases List.mem_singleton.mp hx
    | lam b y t => cases hstays
    | app f a =>
      cases f with
      | missing => cases ht
      | _ => cases hstays
    | ref y l =>
      obtain ⟨-, rfl⟩ := Term.mentions_ref.mp hx
      cases hstays
  | @unbound c y e hnone =>
    obtain ⟨rfl, -⟩ := Term.mentions_ref.mp hx
    rw [hc, Place.lookUp_eq, Place.definitions_outside] at hnone
    constructor
    rintro n ⟨-, e, he, -⟩
    rw [he] at hnone
    cases hnone
  | @unfold c y body e r e' hbody _ ih =>
    obtain ⟨rfl, -⟩ := Term.mentions_ref.mp hx
    have hplace : c.place.leave (.ref y .free) = .outside d := by rw [hc]; rfl
    rw [hc, Place.lookUp_eq, Place.definitions_outside] at hbody
    obtain ⟨e₀, he₀, rfl⟩ := Option.map_eq_some_iff.mp hbody
    have hwhole : (e₀.body.copy e.next).1.hasMissing = false := by
      rw [Term.hasMissing_copy]
      exact hd e₀ (List.mem_of_find?_eq_some he₀)
    -- the copy has been reduced as well, so all that it mentions can be ordered
    constructor
    rintro n ⟨-, e₁, he₁, hn⟩
    rw [he₀] at he₁
    cases he₁
    exact ih rfl hplace hwhole ((Term.mentions_copy _ _).mpr hn)
  | @lam c b y t e t' p e' _ ih =>
    have hplace : c.place.down (.body b y) = .outside d := by rw [hc]; rfl
    exact ih rfl hplace ht (Term.mentions_lam.mp hx)
  | @app c f a e f' p e₁ a' q e₂ r e₃ _ _ _ _ ihf iha _ =>
    obtain ⟨hf, ha⟩ := Bool.or_eq_false_iff.mp ht
    have hplace : ∀ frame, c.place.down frame = .outside d := by
      intro frame
      rw [hc]
      rfl
    rcases Term.mentions_app.mp hx with hx | hx
    · exact ihf rfl (hplace (.function a)) hf hx
    · exact iha rfl (hplace (.argument f')) ha hx
  | held _ => cases htask
  | contract _ _ _ _ => cases htask
  | recur _ _ _ _ _ _ _ => cases htask
  | beta _ _ => cases htask
  | act _ _ _ => cases htask
  | ignored _ => cases htask
  | rest _ => cases htask
  | inner _ _ _ _ _ => cases htask
  | outer _ _ _ _ _ => cases htask

/-- **Cyclic definitions have no value.**  Let neither the expression nor a definition lack
anything, and let the expression be part of no definition.

* If it mentions a name that leads to one that depends on itself, it is not reduced to
  anything: in no mode, with actions executed or not, at no depth, in no number of rounds.
* If it is reduced to something, no name that it mentions leads to one that depends on
  itself. -/
theorem no_value_of_cycle {d : Table} {t : Term}
    (hd : ∀ e ∈ d.toList, e.body.hasMissing = false) (ht : t.hasMissing = false) (s : Setting)
    (depth : Nat) (mode : Mode) (trail : Trail) (e : Effects) :
    ((∃ m n, t.Mentions m ∧ m ∈ d.names ∧ ReflTransGen d.DependsOn m n ∧
        TransGen d.DependsOn n n) →
      ∀ r e', reduce s depth ⟨mode, .outside d, trail⟩ t e ≠ .ok r e') ∧
    ∀ r e', reduce s depth ⟨mode, .outside d, trail⟩ t e = .ok r e' →
      ∀ m n, t.Mentions m → ReflTransGen d.DependsOn m n → ¬ TransGen d.DependsOn n n := by
  have hacyclic : ∀ r e', reduce s depth ⟨mode, .outside d, trail⟩ t e = .ok r e' →
      ∀ m n, t.Mentions m → ReflTransGen d.DependsOn m n → ¬ TransGen d.DependsOn n n := by
    intro r e' h m n hm hleads
    have hacc := (runs_of_reduce h).accessible hd rfl rfl ht hm
    exact Table.not_cycle_of_acc hacc hleads
  refine ⟨?_, hacyclic⟩
  rintro ⟨m, n, hm, -, hleads, hcycle⟩ r e' h
  exact hacyclic r e' h m n hm hleads hcycle

/-- In `[x. q] a` the reference would be thrown away.  But `a` leads to `b`, and `b` and `c`
mention each other. -/
theorem no_value_of_cycle_discarded :
    let d : Table := ⟨[⟨"a", .ref "b" .free⟩, ⟨"b", .app (.ref "q" .free) (.ref "c" .free)⟩,
      ⟨"c", .lam ⟨0, false⟩ "y" (.ref "b" .free)⟩]⟩
    let t : Term := .app (.lam ⟨1, false⟩ "x" (.ref "q" .free)) (.ref "a" .free)
    (t.Mentions "a" ∧ d.DependsOn "a" "b" ∧ d.DependsOn "b" "c" ∧ d.DependsOn "c" "b") ∧
      ∀ s depth mode trail e r e',
        reduce s depth ⟨mode, .outside d, trail⟩ t e ≠ .ok r e' := by
  intro d t
  have hm : t.Mentions "a" := by decide
  have hab : d.DependsOn "a" "b" := ⟨by decide, _, rfl, by decide⟩
  have hbc : d.DependsOn "b" "c" := ⟨by decide, _, rfl, by decide⟩
  have hcb : d.DependsOn "c" "b" := ⟨by decide, _, rfl, by decide⟩
  refine ⟨⟨hm, hab, hbc, hcb⟩, ?_⟩
  intro s depth mode trail e
  exact (no_value_of_cycle (by decide) rfl s depth mode trail e).1
    ⟨"a", "b", hm, by decide, .single hab, .head hbc (.single hcb)⟩

end LambdaScript
