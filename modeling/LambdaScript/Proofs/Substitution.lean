/-
LambdaScript/Proofs/Substitution.lean

Substitution in the midst of an expression.

Substitution goes through the body of a function and puts a copy of the argument in the place
of each reference to the function; what is around the application is not looked at.  That this
is instantiation without captures depends on the surroundings all the same: references of
argument and body may lead to functions around the application.  The surroundings are a
`Site`, and `Site.around` are the functions that a spot lies in.

The functions of the result are those of the body, in their order, and new ones
(`filter_binders_subst`).  So the result fits where the body or the application was
(`Site.grown_plug`), and no function occurs twice afterwards.

Main result: `subst_instantiates`.
-/
import LambdaScript.Place
import LambdaScript.Proofs.Linking
import LambdaScript.Proofs.Scope

namespace LambdaScript

open Term (Tidy Grown Apart)

variable {next next' : Nat} {here new : Term}

/-! ### The surroundings of a spot -/

namespace Frame

/-- The function whose body the spot is, if there is one. -/
def functions : Frame → List Binder
  | body b _ => [b]
  | _ => []

variable {f : Frame} {Γ : List Binder}

theorem scoped_of_plug (h : (f.plug here).Scoped Γ) : here.Scoped (f.functions ++ Γ) := by
  cases f with
  | function a => exact h.1
  | argument g => exact h.2
  | body b x => exact h

theorem scoped_plug (h : (f.plug here).Scoped Γ) (hnew : new.Scoped (f.functions ++ Γ)) :
    (f.plug new).Scoped Γ := by
  cases f with
  | function a => exact ⟨hnew, h.2⟩
  | argument g => exact ⟨h.1, hnew⟩
  | body b x => exact hnew

theorem tidy_of_plug (h : (f.plug here).Tidy next) : here.Tidy next := by
  cases f with
  | function a => exact h.fn
  | argument g => exact h.arg
  | body b x => exact h.body

/-- Functions outside a frame, and that of the frame, are outside the spot. -/
theorem apart_of_plug (h : (f.plug here).Tidy next) (hΓ : Apart Γ next (f.plug here)) :
    Apart (f.functions ++ Γ) next here := by
  cases f with
  | function a => exact hΓ.fn
  | argument g => exact hΓ.arg
  | body b x => exact hΓ.body h

theorem grown_plug (h : (f.plug here).Tidy next) (hnew : Grown next here next' new) :
    Grown next (f.plug here) next' (f.plug new) := by
  cases f with
  | function a => exact .app h hnew (h.arg.mono hnew.le).grown
  | argument g => exact .app h h.fn.grown hnew
  | body b x => exact .lam h hnew

end Frame

namespace Site

/-- The functions around a spot, innermost first. -/
def around (s : Site) : List Binder :=
  s.path.flatMap Frame.functions

/-- A spot and the spot one frame further out. -/
theorem around_cons (x : String) (f : Frame) (path : List Frame) :
    around ⟨x, f :: path⟩ = f.functions ++ around ⟨x, path⟩ :=
  List.flatMap_cons

variable {s : Site}

theorem scoped_of_plug (h : (s.plug here).Scoped []) : here.Scoped s.around := by
  obtain ⟨x, path⟩ := s
  induction path generalizing here with
  | nil => exact h
  | cons f path ih =>
    rw [around_cons]
    exact Frame.scoped_of_plug (ih h)

theorem scoped_plug (h : (s.plug here).Scoped []) (hnew : new.Scoped s.around) :
    (s.plug new).Scoped [] := by
  obtain ⟨x, path⟩ := s
  induction path generalizing here new with
  | nil => exact hnew
  | cons f path ih =>
    rw [around_cons] at hnew
    exact ih h (Frame.scoped_plug (scoped_of_plug h) hnew)

theorem tidy_of_plug (h : (s.plug here).Tidy next) : here.Tidy next := by
  obtain ⟨x, path⟩ := s
  induction path generalizing here with
  | nil => exact h
  | cons f path ih => exact Frame.tidy_of_plug (ih h)

/-- The functions around a spot do not occur in it. -/
theorem apart_of_plug (h : (s.plug here).Tidy next) : Apart s.around next here := by
  obtain ⟨x, path⟩ := s
  induction path generalizing here with
  | nil => exact fun _ hb => absurd hb List.not_mem_nil
  | cons f path ih =>
    rw [around_cons]
    exact Frame.apart_of_plug (tidy_of_plug (s := ⟨x, path⟩) h) (ih h)

/-- When the spot grows, so does the whole. -/
theorem grown_plug (h : (s.plug here).Tidy next) (hnew : Grown next here next' new) :
    Grown next (s.plug here) next' (s.plug new) := by
  obtain ⟨x, path⟩ := s
  induction path generalizing here new with
  | nil => exact hnew
  | cons f path ih =>
    exact ih (Frame.grown_plug (tidy_of_plug (s := ⟨x, path⟩) h) hnew) h

/-- What has grown from the spot and is scoped there makes a well-scoped whole again. -/
theorem wellScoped_plug (hlinks : (s.plug here).Scoped []) (h : (s.plug here).Tidy next)
    (hgrown : Grown next here next' new) (hnew : new.Scoped s.around) :
    (s.plug new).WellScoped :=
  ⟨scoped_plug hlinks hnew, (grown_plug h hgrown).nodup⟩

end Site

/-! ### The functions and references of the result -/

namespace Term

variable {t : Term} {Γ : List Binder}

/-- A link of a scoped expression leads to one of its functions or to one around it. -/
theorem Scoped.mem_of_link (h : t.Scoped Γ) {Δ : List (Binder × String)} {o : Occurrence}
    (ho : o ∈ t.references Δ) {b : Binder} (hb : o.link = .binder b) : b ∈ Γ ∨ b ∈ t.binders := by
  induction t generalizing Γ Δ with
  | missing => exact h.elim
  | foreign => exact h.elim
  | app f a ihf iha =>
    rcases List.mem_append.mp ho with ho | ho
    · exact (ihf h.1 ho).imp_right (List.mem_append_left _)
    · exact (iha h.2 ho).imp_right (List.mem_append_right _)
  | lam c x t ih =>
    rcases ih (Γ := c :: Γ) h ho with hΓ | ht
    · rcases List.mem_cons.mp hΓ with rfl | hΓ
      · exact .inr List.mem_cons_self
      · exact .inl hΓ
    · exact .inr (List.mem_cons_of_mem _ ht)
  | ref x l =>
    obtain rfl := List.mem_singleton.mp ho
    obtain rfl : l = .binder b := hb
    exact .inl h

/-- Substitution leaves the functions of the expression in their order; the others of the
result are new. -/
theorem filter_binders_subst (b : Binder) (arg : Term) {limit : Nat} (hle : limit ≤ next)
    (ht : t.Tidy limit) :
    (t.subst b arg next).1.binders.filter (·.key < limit) = t.binders := by
  induction t generalizing next with
  | missing => rfl
  | foreign => rfl
  | app f a ihf iha =>
    have hf := (grown_subst b arg (ht.fn.mono hle)).le
    rw [subst, binders, binders, List.filter_append, ihf hle ht.fn,
      iha (Nat.le_trans hle hf) ht.arg]
  | lam c x t ih =>
    rw [subst, binders, binders, List.filter_cons_of_pos (by simpa using ht.key_lt),
      ih hle ht.body]
  | ref x l =>
    by_cases h : l = .binder b
    · -- a copy has no old function
      rw [subst, if_pos h]
      apply List.filter_eq_nil_iff.mpr
      intro c hc
      have hnew := ((grown_copy missing arg next).old_or_new c hc).resolve_left List.not_mem_nil
      simpa using Nat.le_trans hle hnew.1
    · rw [subst, if_neg h]
      rfl

end Term

/-- **Substitution is instantiation without captures.**  Let an application of a function to an
argument stand anywhere in a well-scoped expression, with the supply above all functions.
Substituting the argument in the body of the function gives an expression that reads as the
body instantiated by the argument.  No reference to the function remains in it.  The functions
of the body are still there, in their order; all others are new, so none occurs twice and none
belongs to the argument.  With everything else as it was, the whole is well scoped again when
the result takes the place of the body, and when it takes the place of the application. -/
theorem subst_instantiates {s : Site} {b : Binder} {x : String} {t r : Term}
    (h : (s.plug (.app (.lam b x t) r)).WellScoped)
    (hkeys : ∀ c ∈ (s.plug (.app (.lam b x t) r)).binders, c.key < next) :
    let new := (t.subst b r next).1
    new.Scoped s.around ∧
      new.nameless s.around = (t.nameless (b :: s.around)).instantiate (r.nameless s.around) ∧
      (∀ o ∈ new.references [], o.link ≠ .binder b) ∧
      new.binders.filter (·.key < next) = t.binders ∧
      new.binders.Nodup ∧ new.binders.Disjoint r.binders ∧
      (s.plug (.app (.lam b x new) r)).WellScoped ∧ (s.plug new).WellScoped := by
  have hwhole : (s.plug (.app (.lam b x t) r)).Tidy next := ⟨h.nodup, hkeys⟩
  have hlinks := Site.scoped_of_plug h.links
  have htidy := Site.tidy_of_plug hwhole
  have hapart := Site.apart_of_plug hwhole
  have hbody : Apart (b :: s.around) next t := hapart.fn.body htidy.fn
  have hgrown := Term.grown_subst b r htidy.fn.body
  obtain ⟨hscoped, hreads⟩ := Term.nameless_subst hlinks.1 hlinks.2 htidy.fn.body hbody
  have hgrownBody : Grown next (.app (.lam b x t) r) (t.subst b r next).2
      (.app (.lam b x (t.subst b r next).1) r) :=
    .app htidy (.lam htidy.fn hgrown) (htidy.arg.mono hgrown.le).grown
  refine ⟨hscoped, hreads, ?_, Term.filter_binders_subst b r (Nat.le_refl next) htidy.fn.body,
    hgrown.nodup, ?_, ?_, Site.wellScoped_plug h.links hwhole hgrown.of_redex hscoped⟩
  · -- the function is neither around the application nor in the result
    intro o ho hlink
    rcases hscoped.mem_of_link ho hlink with haround | hinside
    · exact hapart.fn.notMem haround
    · exact (hgrown.apart hbody b List.mem_cons_self).2 hinside
  · intro c hnew hr
    exact (List.nodup_append.mp hgrownBody.nodup).2.2 c (List.mem_cons_of_mem _ hnew) c hr rfl
  · have hplaced : (Term.app (.lam b x (t.subst b r next).1) r).Scoped s.around :=
      ⟨hscoped.mono (List.subset_cons_self b s.around), hlinks.2⟩
    exact Site.wellScoped_plug h.links hwhole hgrownBody hplaced

/-- In `[y. [x. x [y. x y]] [z. y z]]` the argument refers to the outer `y`, and one of the two
references that it replaces stands below another `y`. -/
theorem subst_instantiates_shadowed :
    let v (x : String) (n : Nat) : Term := .ref x (.binder ⟨n, false⟩)
    let s : Site := ⟨"d", [.body ⟨0, false⟩ "y"]⟩
    let t : Term := .app (v "x" 1) (.lam ⟨2, false⟩ "y" (.app (v "x" 1) (v "y" 2)))
    let r : Term := .lam ⟨3, false⟩ "z" (.app (v "y" 0) (v "z" 3))
    let new : Term := (t.subst ⟨1, false⟩ r 4).1
    (s.plug (.app (.lam ⟨1, false⟩ "x" t) r)).WellScoped ∧
      new.nameless s.around = .app (.lam false "z" (.app (.bound 1 "y") (.bound 0 "z")))
        (.lam false "y" (.app (.lam false "z" (.app (.bound 2 "y") (.bound 0 "z")))
          (.bound 0 "y"))) ∧
      (∀ o ∈ new.references [], o.link ≠ .binder ⟨1, false⟩) ∧
      new.binders.filter (·.key < 4) = [⟨2, false⟩] ∧ new.binders.Disjoint r.binders ∧
      (s.plug new).WellScoped := by
  intro v s t r new
  have h : (s.plug (.app (.lam ⟨1, false⟩ "x" t) r)).WellScoped := by decide
  have hkeys : ∀ c ∈ (s.plug (.app (.lam ⟨1, false⟩ "x" t) r)).binders, c.key < 4 := by decide
  obtain ⟨-, hreads, hrefs, hfunctions, -, hdisjoint, -, hwhole⟩ := subst_instantiates h hkeys
  refine ⟨h, hreads.trans ?_, hrefs, hfunctions, hdisjoint, hwhole⟩
  decide

end LambdaScript
