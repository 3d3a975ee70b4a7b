/-
LambdaScript/Proofs/Linking.lean

Lexical scoping of what is read.

A reader sees a reference before it knows the functions around it, so references are
linked afterwards: when a function with its header has been read, each function of the
header takes the references to its name that are still free, the innermost function
first.  What comes out is lexical scoping, and here it is said without the order in
which the links are made.  `Term.references` lists the references of an expression,
each with the functions around it; a link can be checked against these alone.

Main result: `links_of_read`.
-/
import LambdaScript.Proofs.Reading

namespace LambdaScript

/-! ### Lexical links -/

namespace Link

variable {Γ : List (Binder × String)} {x : String}

theorem lexical_eq_free : lexical Γ x = .free ↔ ∀ a ∈ Γ, a.2 ≠ x := by
  rcases h : Γ.find? (·.2 = x) with - | p
  · have hnone := List.find?_eq_none.mp h
    simpa [lexical, h] using hnone
  · have hname : p.2 = x := by simpa using List.find?_some h
    have hlink : lexical Γ x ≠ .free := by simp [lexical, h]
    exact ⟨fun hfree => absurd hfree hlink,
      fun hne => absurd hname (hne p (List.mem_of_find?_eq_some h))⟩

/-- A lexical link leads to the first function with the name. -/
theorem lexical_eq_binder {b : Binder} :
    lexical Γ x = .binder b ↔
      ∃ inner outer, Γ = inner ++ (b, x) :: outer ∧ ∀ a ∈ inner, a.2 ≠ x := by
  unfold lexical
  constructor
  · intro h
    rcases hp : Γ.find? (·.2 = x) with - | ⟨c, y⟩
    · rw [hp] at h
      cases h
    · rw [hp] at h
      obtain rfl : c = b := Link.binder.inj h
      obtain ⟨hname, inner, outer, hΓ, hinner⟩ := List.find?_eq_some_iff_append.mp hp
      obtain rfl : y = x := by simpa using hname
      exact ⟨inner, outer, hΓ, fun a ha => by simpa using hinner a ha⟩
  · rintro ⟨inner, outer, rfl, hinner⟩
    have hfind : (inner ++ (b, x) :: outer).find? (·.2 = x) = some (b, x) := by
      rw [List.find?_eq_some_iff_append]
      exact ⟨by simp, inner, outer, rfl, fun a ha => by simpa using hinner a ha⟩
    rw [hfind]

end Link

/-! ### References -/

/-- A reference where it stands: the functions around it, innermost first, with its name and
its link. -/
structure Occurrence where
  around : List (Binder × String)
  name : String
  link : Link
  deriving DecidableEq

namespace Term

/-- The references of an expression inside the functions `Γ`. -/
def references (Γ : List (Binder × String)) : Term → List Occurrence
  | app f a => f.references Γ ++ a.references Γ
  | lam b x t => t.references ((b, x) :: Γ)
  | ref x l => [⟨Γ, x, l⟩]
  | _ => []

theorem Lexical.link_of_mem {t : Term} {Γ : List (Binder × String)} (h : t.Lexical Γ)
    {o : Occurrence} (ho : o ∈ t.references Γ) : o.link = .lexical o.around o.name := by
  induction t generalizing Γ with
  | missing => exact h.elim
  | foreign => exact h.elim
  | app f a ihf iha =>
    rcases List.mem_append.mp ho with ho | ho
    · exact ihf h.1 ho
    · exact iha h.2 ho
  | lam b x t ih => exact ih (Γ := (b, x) :: Γ) h ho
  | ref x l =>
    obtain rfl := List.mem_singleton.mp ho
    exact h

end Term

/-! ### What is read -/

namespace Parse

theorem read_of_series {r r' : Reading} {t : Term} (h : series r = .ok t r') :
    Read r.next t r'.next := by
  obtain ⟨n, r₁, hbound, hgo⟩ := Outcome.bind_eq_ok h
  cases hbound
  exact read_of_seriesOf (reads_expressionWithin _) hgo

end Parse

/-- **Lexical scoping.**  Whatever the text and wherever its reading has come: in an expression
or a series that is read there, a reference is free exactly when no function around it bears
its name, and otherwise it belongs to the innermost one that does.  The functions of the
expression are all different and have keys that the reading has taken from the supply. -/
theorem links_of_read {r r' : Reading} {t : Term}
    (h : Parse.expression r = .ok t r' ∧ t ≠ .missing ∨ Parse.series r = .ok t r') :
    (∀ o ∈ t.references [],
      (o.link = .free ↔ ∀ a ∈ o.around, a.2 ≠ o.name) ∧
      ∀ b, o.link = .binder b ↔
        ∃ inner outer, o.around = inner ++ (b, o.name) :: outer ∧ ∀ a ∈ inner, a.2 ≠ o.name) ∧
    t.binders.Nodup ∧ ∀ b ∈ t.binders, r.next ≤ b.key ∧ b.key < r'.next := by
  have hread : Read r.next t r'.next := by
    rcases h with ⟨hexpression, hpresent⟩ | hseries
    · rcases Parse.reads_expression hexpression with ⟨hmissing, -⟩ | hread
      · exact absurd hmissing hpresent
      · exact hread
    · exact Parse.read_of_series hseries
  have hgrown := hread.grown .missing
  refine ⟨fun o ho => ?_, hgrown.nodup, fun b hb => ?_⟩
  · rw [hread.lexical.link_of_mem ho]
    exact ⟨Link.lexical_eq_free, fun b => Link.lexical_eq_binder⟩
  · exact (hgrown.old_or_new b hb).resolve_left List.not_mem_nil

/-- In `[x x. x [y x. x y] z ()]` the name `x` is taken by the second function of the outer
header, and again by the second of the inner one; the empty series has an `x` of its own. -/
theorem links_of_read_shadowed :
    let r : Reading := ⟨⟨some '[', "x x. x [y x. x y] z ()]".toList, .start⟩, 5⟩
    let b (n : Nat) : Binder := ⟨n, false⟩
    let x (n : Nat) : Term := .ref "x" (.binder (b n))
    let inner : Term := .lam (b 7) "y" (.lam (b 8) "x" (.app (x 8) (.ref "y" (.binder (b 7)))))
    let t : Term := .lam (b 5) "x" (.lam (b 6) "x"
      (.app (.app (.app (x 6) inner) (.ref "z" .free)) (.lam (b 9) "x" (x 9))))
    Outcome.verdict Parse.expression r = .ok t ∧
    (∀ o ∈ t.references [],
      (o.link = .free ↔ ∀ a ∈ o.around, a.2 ≠ o.name) ∧
      ∀ b, o.link = .binder b ↔
        ∃ inner outer, o.around = inner ++ (b, o.name) :: outer ∧ ∀ a ∈ inner, a.2 ≠ o.name) ∧
    t.binders.Nodup ∧
    ∀ b ∈ t.binders, 5 ≤ b.key ∧ b.key < (Outcome.after Parse.expression r).next := by
  intro r b x inner t
  have hread : Outcome.verdict Parse.expression r = .ok t := by decide +kernel
  exact ⟨hread, links_of_read (.inl ⟨Outcome.eq_ok_of_verdict hread, nofun⟩)⟩

end LambdaScript
