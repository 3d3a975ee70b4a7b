/-
LambdaScript/Proofs/Recursion.lean

Reductions with definitions and recursive functions that are known to end.

`Evaluates` has no rules for names and for recursive functions.  `Reduces G m M t v` has
them: `G` tells what the names that have been defined stand for, `m` is the mode, and `M` are
the marks of the functions around the expression.  A recursive function that is not applied
is held back by its argument, or by the mode; where its argument is closed and has no
recursive functions, it is unrolled.  There is one rule for the kind of unrolling that a fixed
point makes: what is unrolled is a recursive function applied to something recursive, and this
becomes a function that is not recursive.

No depth is told.  What is reduced according to these rules is reduced with every depth from
some depth on (`Reduces.attained`).  Closed expressions can be reduced by `evaluate`, which
follows the rules as long as nothing has to be unrolled (`reduces_of_evaluate`).

Main result: `Reduces.attained`.
-/
import Mathlib.Order.Filter.AtTopBot.Basic
import LambdaScript.Proofs.Evaluation
import LambdaScript.Proofs.Rounds
import LambdaScript.Proofs.Standing

namespace LambdaScript

/-- What names stand for. -/
abbrev Glossary := List (String × Nameless String)

namespace Nameless

variable {ν : Type}

/-! ### Marks -/

/-- The marks of the functions around an expression, seen from inside a function. -/
def inside (r : Bool) (M : Nat → Bool) : Nat → Bool
  | 0 => r
  | i + 1 => M i

/-- The recursive mark of an expression, given those of the functions around it. -/
def recursive (M : Nat → Bool) : Nameless ν → Bool
  | bound i _ => M i
  | free _ => false
  | app f a => f.recursive M && a.recursive M
  | lam r _ _ => r

/-- No function of the expression is recursive. -/
def Unmarked : Nameless ν → Prop
  | app f a => f.Unmarked ∧ a.Unmarked
  | lam r _ t => r = false ∧ t.Unmarked
  | _ => True

/-- The expression contains no recursion: it is closed, and no function of it is recursive. -/
def Grounded (t : Nameless ν) : Prop :=
  t.Closed ∧ t.Unmarked

instance decidableClosedAt : (k : Nat) → (t : Nameless ν) → Decidable (t.ClosedAt k)
  | k, bound i _ => inferInstanceAs (Decidable (i < k))
  | _, free _ => isTrue trivial
  | k, app f a =>
    have := decidableClosedAt k f
    have := decidableClosedAt k a
    inferInstanceAs (Decidable (f.ClosedAt k ∧ a.ClosedAt k))
  | k, lam _ _ t => decidableClosedAt (k + 1) t

instance decidableUnmarked : (t : Nameless ν) → Decidable t.Unmarked
  | bound _ _ => isTrue trivial
  | free _ => isTrue trivial
  | app f a =>
    have := decidableUnmarked f
    have := decidableUnmarked a
    inferInstanceAs (Decidable (f.Unmarked ∧ a.Unmarked))
  | lam r _ t =>
    have := decidableUnmarked t
    inferInstanceAs (Decidable (r = false ∧ t.Unmarked))

instance decidableGrounded (t : Nameless ν) : Decidable t.Grounded :=
  inferInstanceAs (Decidable (t.ClosedAt 0 ∧ t.Unmarked))

/-! ### Reduction -/

/-- Reducing from the inside ends with the last expression. -/
inductive Reduces (G : Glossary) :
    Mode → (Nat → Bool) → Nameless String → Nameless String → Prop
  | bound {m M} (i : Nat) (x : String) : Reduces G m M (bound i x) (bound i x)
  | unfold {m M x t v} : (x, t) ∈ G → Reduces G m M t v → Reduces G m M (free x) v
  | lam {m M r t v} (x : String) : Reduces G m (inside r M) t v →
      Reduces G m M (lam r x t) (lam r x v)
  | app {m M f g a b} : Reduces G m M f g → Reduces G m M a b → g.recursive M = false →
      ¬ g.IsFunction → Reduces G m M (app f a) (app g b)
  | beta {m M f x t a b v} : Reduces G m M f (Nameless.lam false x t) → Reduces G m M a b →
      Reduces G m M (t.instantiate b) v → Reduces G m M (app f a) v
  | held {m M f g a b} : Reduces G m M f g → Reduces G m M a b → g.recursive M = true →
      m = .doneRecursive ∨ ¬ b.Grounded → Reduces G m M (app f a) (app g b)
  | unroll {M f y t c a b x u w v} :
      Reduces G .normal M f (Nameless.app (Nameless.lam true y t) c) → c.recursive M = true →
      Reduces G .normal M a b → b.Grounded →
      Reduces G .doneRecursive M (t.instantiate c) (Nameless.lam false x u) →
      Reduces G .doneRecursive M (u.instantiate b) w → Reduces G .normal M w v →
      Reduces G .normal M (app f a) v

variable {G H : Glossary} {m : Mode} {M : Nat → Bool} {t v : Nameless String}

theorem Reduces.mono (h : Reduces G m M t v) (hG : G ⊆ H) : Reduces H m M t v := by
  induction h with
  | bound i x => exact .bound i x
  | unfold hx _ ih => exact .unfold (hG hx) ih
  | lam x _ ih => exact .lam x ih
  | app _ _ hrec hg ihf iha => exact .app ihf iha hrec hg
  | beta _ _ _ ihf iha ih => exact .beta ihf iha ih
  | held _ _ hrec hheld ihf iha => exact .held ihf iha hrec hheld
  | unroll _ hc _ hb _ _ _ ihf iha ih₁ ih₂ ih₃ => exact .unroll ihf hc iha hb ih₁ ih₂ ih₃

/-- Nothing around an expression is recursive. -/
def unmarked : Nat → Bool := fun _ => false

theorem inside_unmarked : inside false unmarked = unmarked := by
  funext i
  cases i <;> rfl

theorem Evaluates.recursive_eq_false {d : Nat} (h : Evaluates d t v) :
    v.recursive unmarked = false := by
  induction h with
  | bound i x => rfl
  | lam x _ _ => rfl
  | app _ _ _ ihf _ => rw [recursive, ihf, Bool.false_and]
  | beta _ _ _ _ _ ih => exact ih

/-- What evaluates without names and recursive functions is reduced to the same. -/
theorem Evaluates.reduces {d : Nat} (h : Evaluates d t v) (G : Glossary) (m : Mode) :
    Reduces G m unmarked t v := by
  induction h with
  | bound i x => exact .bound i x
  | lam x _ ih =>
    rw [← inside_unmarked] at ih
    exact .lam x ih
  | app hf _ hg ihf iha => exact .app ihf iha hf.recursive_eq_false hg
  | beta _ _ _ ihf iha ih => exact .beta ihf iha ih

/-! ### Reducing closed expressions by computation -/

/-- Reduces an expression as long as nothing has to be unrolled, with so many reductions inside
one another. -/
def evaluate (G : Glossary) :
    Nat → Mode → (Nat → Bool) → Nameless String → Option (Nameless String)
  | 0, _, _, _ => none
  | n + 1, m, M, t =>
    match t with
    | bound i x => some (bound i x)
    | free x => do evaluate G n m M (← G.lookup x)
    | lam r x t => do return lam r x (← evaluate G n m (inside r M) t)
    | app f a => do
      let g ← evaluate G n m M f
      let b ← evaluate G n m M a
      if g.recursive M then
        if m = .doneRecursive ∨ ¬ b.Grounded then return app g b else none
      else
        match g with
        | lam _ _ t => evaluate G n m M (t.instantiate b)
        | g => return app g b

theorem reduces_of_evaluate {n : Nat} (h : evaluate G n m M t = some v) : Reduces G m M t v := by
  induction n generalizing m M t v with
  | zero => cases h
  | succ n ih =>
    cases t with
    | bound i x =>
      cases h
      exact .bound i x
    | free x =>
      obtain ⟨u, hu, hv⟩ := Option.bind_eq_some_iff.mp h
      obtain ⟨l₁, l₂, hG, -⟩ := List.lookup_eq_some_iff.mp hu
      exact .unfold (hG ▸ List.mem_append_right _ List.mem_cons_self) (ih hv)
    | lam r x t =>
      obtain ⟨u, hu, hv⟩ := Option.bind_eq_some_iff.mp h
      cases hv
      exact .lam x (ih hu)
    | app f a =>
      obtain ⟨g, hg, h⟩ := Option.bind_eq_some_iff.mp h
      obtain ⟨b, hb, h⟩ := Option.bind_eq_some_iff.mp h
      have hf := ih hg
      have ha := ih hb
      by_cases hrec : g.recursive M = true
      · rw [if_pos hrec] at h
        split at h
        · next hheld =>
          cases h
          exact .held hf ha hrec hheld
        · cases h
      · rw [if_neg hrec] at h
        have hrec' := eq_false_of_ne_true hrec
        cases g with
        | lam r x t =>
          obtain rfl : r = false := hrec'
          exact .beta hf ha (ih h)
        | bound i x =>
          cases h
          exact .app hf ha hrec' id
        | free x =>
          cases h
          exact .app hf ha hrec' id
        | app g c =>
          cases h
          exact .app hf ha hrec' id

end Nameless

/-! ### Marks of expressions -/

namespace Term

variable {Γ : List Binder} {t : Term}

/-- The marks of functions, innermost first. -/
def marks (Γ : List Binder) (i : Nat) : Bool :=
  Γ[i]?.elim false (·.recursive)

theorem marks_cons (b : Binder) (Γ : List Binder) :
    marks (b :: Γ) = Nameless.inside b.recursive (marks Γ) := by
  funext i
  cases i <;> rfl

theorem isRecursive_eq_recursive (h : t.Scoped Γ) :
    t.isRecursive = .ok ((t.nameless Γ).recursive (marks Γ)) := by
  induction t with
  | missing => exact h.elim
  | foreign => exact h.elim
  | lam b x t _ => rfl
  | ref x l =>
    cases l with
    | free => rfl
    | binder b =>
      show Except.ok b.recursive = .ok (Γ[Γ.idxOf b]?.elim false (·.recursive))
      rw [List.getElem?_idxOf h, Option.elim_some]
    | reference k own => exact h.elim
    | endless => exact h.elim
  | app f a ihf iha =>
    rw [Plain.isRecursive_app h.1.plain_true h.2.plain_true, ihf h.1, iha h.2, nameless,
      Nameless.recursive]
    cases (f.nameless Γ).recursive (marks Γ) <;> rfl

/-- Where no recursion is found in the light of a trail with the functions `Γ`, the functions
referred to are those of `Δ` and the expression's own, and none is recursive. -/
theorem grounded_of_containsRecursive {trail : Trail} {Δ : List Binder} (h : t.Scoped (Δ ++ Γ))
    (hΓ : ∀ b ∈ Γ, .function b ∈ trail) (hc : t.containsRecursive trail = .ok false) :
    (t.nameless (Δ ++ Γ)).ClosedAt Δ.length ∧ (t.nameless (Δ ++ Γ)).Unmarked := by
  induction t generalizing Δ with
  | missing => exact h.elim
  | foreign => exact h.elim
  | app f a ihf iha =>
    rcases hf : f.containsRecursive trail with fault | (- | -)
    · simp only [containsRecursive, hf] at hc
      cases hc
    · simp only [containsRecursive, hf] at hc
      obtain ⟨hfc, hfu⟩ := ihf h.1 hf
      obtain ⟨hac, hau⟩ := iha h.2 hc
      exact ⟨⟨hfc, hac⟩, hfu, hau⟩
    · simp only [containsRecursive, hf] at hc
      cases hc
  | lam b x t ih =>
    rcases hb : b.recursive with - | -
    · simp only [containsRecursive, hb] at hc
      obtain ⟨hclosed, hunmarked⟩ := ih (Δ := b :: Δ) h hc
      exact ⟨hclosed, hb, hunmarked⟩
    · simp only [containsRecursive, hb] at hc
      cases hc
  | ref x l =>
    cases l with
    | free => exact ⟨trivial, trivial⟩
    | binder b =>
      refine ⟨?_, trivial⟩
      rcases hb : b.recursive with - | -
      · simp only [containsRecursive, Link.isRecursive, hb] at hc
        have hon : .function b ∉ trail := fun hon =>
          Bool.false_ne_true ((Except.ok.inj hc).symm.trans (List.contains_iff_mem.mpr hon))
        have hΔ : b ∈ Δ := (List.mem_append.mp h).resolve_right fun hb => hon (hΓ b hb)
        show (Δ ++ Γ).idxOf b < Δ.length
        rw [List.idxOf_append_of_mem hΔ]
        exact List.idxOf_lt_length_of_mem hΔ
      · simp only [containsRecursive, Link.isRecursive, hb] at hc
        cases hc
    | reference k own => exact h.elim
    | endless => exact h.elim

/-- An expression that refers only to functions that are neither recursive nor on the trail
contains no recursion. -/
theorem containsRecursive_of_grounded {trail : Trail} {Δ : List Binder} (h : t.Scoped (Δ ++ Γ))
    (hmissing : .missing ∉ trail) (ht : ∀ b ∈ t.binders, .function b ∉ trail)
    (hΔ : ∀ b ∈ Δ, b.recursive = false ∧ .function b ∉ trail)
    (hclosed : (t.nameless (Δ ++ Γ)).ClosedAt Δ.length)
    (hunmarked : (t.nameless (Δ ++ Γ)).Unmarked) : t.containsRecursive trail = .ok false := by
  induction t generalizing Δ with
  | missing => exact h.elim
  | foreign => exact h.elim
  | app f a ihf iha =>
    have hf := ihf h.1 (fun b hb => ht b (List.mem_append_left _ hb)) hΔ hclosed.1 hunmarked.1
    have ha := iha h.2 (fun b hb => ht b (List.mem_append_right _ hb)) hΔ hclosed.2 hunmarked.2
    simp only [containsRecursive, hf, ha]
    rfl
  | lam b x t ih =>
    have hb : b.recursive = false := hunmarked.1
    have hΔ' : ∀ c ∈ b :: Δ, c.recursive = false ∧ .function c ∉ trail := by
      intro c hc
      rcases List.mem_cons.mp hc with rfl | hc
      · exact ⟨hb, ht c List.mem_cons_self⟩
      · exact hΔ c hc
    have hbody := ih (Δ := b :: Δ) h (fun c hc => ht c (List.mem_cons_of_mem _ hc)) hΔ' hclosed
      hunmarked.2
    simp only [containsRecursive, hb, hbody]
    rfl
  | ref x l =>
    cases l with
    | free => exact congrArg Except.ok (eq_false_of_ne_true (mt List.contains_iff_mem.mp hmissing))
    | binder b =>
      have hb : b ∈ Δ := by
        by_contra hb
        have hlt : (Δ ++ Γ).idxOf b < Δ.length := hclosed
        rw [List.idxOf_append_of_notMem hb] at hlt
        omega
      obtain ⟨hrec, hon⟩ := hΔ b hb
      simp only [containsRecursive, Link.isRecursive, hrec]
      exact congrArg Except.ok (eq_false_of_ne_true (mt List.contains_iff_mem.mp hon))
    | reference k own => exact h.elim
    | endless => exact h.elim

/-- Inside the functions `Γ`, all of which are on the trail, an expression contains recursion
unless it is closed and has no recursive functions. -/
theorem containsRecursive_eq_not_grounded {trail : Trail} {next : Nat} (h : t.Scoped Γ)
    (henc : Enclosed Γ trail next t) (hΓ : ∀ b ∈ Γ, .function b ∈ trail) :
    t.containsRecursive trail = .ok (!decide (t.nameless Γ).Grounded) := by
  by_cases hg : (t.nameless Γ).Grounded
  · have hmissing : .missing ∉ trail := by
      intro hv
      rcases henc.visits _ hv with heq | ⟨b, -, heq⟩ <;> cases heq
    have hbinders : ∀ b ∈ t.binders, .function b ∉ trail := by
      intro b hb hv
      rcases henc.visits _ hv with heq | ⟨c, hc, heq⟩
      · cases heq
      · cases heq
        exact (henc.apart b hc).2 hb
    rw [decide_eq_true hg]
    exact containsRecursive_of_grounded (Δ := []) h hmissing hbinders
      (fun _ hb => absurd hb List.not_mem_nil) hg.1 hg.2
  · obtain ⟨r, hr⟩ := h.plain_true.containsRecursive_eq trail
    rw [decide_eq_false hg, hr]
    cases r with
    | true => rfl
    | false => exact absurd (grounded_of_containsRecursive (Δ := []) h hΓ hr) hg

end Term

/-! ### Being prepared -/

/-- The names of a glossary are defined, and stand for what it says. -/
def Table.Provides (d : Table) (G : Glossary) : Prop :=
  ∀ p ∈ G, ∃ e, d.find? p.1 = some e ∧ e.body.Scoped [] ∧ e.body.nameless [] = p.2

/-- The names of a glossary stand for what it says, whatever the place holds. -/
def Place.Provides (p : Place) (G : Glossary) : Prop :=
  ∀ here, (p.definitions here).Provides G

theorem Place.Provides.within {p q : Place} {G : Glossary} (h : p.Provides G) (hq : q.Within p) :
    q.Provides G := by
  intro here
  obtain ⟨u, hu⟩ := hq here
  rw [hu]
  exact h u

open Nameless (Reduces inside)

/-- An expression is prepared for reduction inside the functions `Γ`: the glossary `G` is at hand,
`M` are the marks of these functions, and all of them are on the trail. -/
structure Prepared (G : Glossary) (M : Nat → Bool) (Γ : List Binder) (c : Circumstance) (next : Nat)
    (t : Term) : Prop where
  place : c.place.Provides G
  marks : Term.marks Γ = M
  trail : ∀ b ∈ Γ, .function b ∈ c.trail
  links : t.Scoped Γ
  enclosed : Enclosed Γ c.trail next t

namespace Prepared

open Term (Grown)

variable {G : Glossary} {M : Nat → Bool} {Γ : List Binder} {c c' : Circumstance}
  {next next' : Nat} {t t' f a : Term} {b : Binder} {x : String}

theorem other (h : Prepared G M Γ c next t) : Prepared G M Γ (c.within .other) next t :=
  ⟨h.place, h.marks, fun b hb => List.mem_cons_of_mem _ (h.trail b hb), h.links, h.enclosed.other⟩

theorem inMode (h : Prepared G M Γ c next t) (m : Mode) : Prepared G M Γ (c.inMode m) next t :=
  ⟨h.place, h.marks, h.trail, h.links, h.enclosed⟩

/-- What has grown from an expression is prepared for reduction within its place. -/
theorem grown (h : Prepared G M Γ c next t) (hlinks : t'.Scoped Γ) (ht : Grown next t next' t')
    (hplace : c'.place.Within c.place) (htrail : c'.trail = c.trail) :
    Prepared G M Γ c' next' t' := by
  refine ⟨h.place.within hplace, h.marks, ?_, hlinks, ?_⟩
  · rw [htrail]
    exact h.trail
  · rw [htrail]
    exact h.enclosed.grown ht

theorem fn (h : Prepared G M Γ c next (.app f a)) (a' : Term) :
    Prepared G M Γ (c.down (.function a')) next f :=
  ⟨h.place.within (c.place.within_down _), h.marks, h.trail, h.links.1, h.enclosed.fn⟩

theorem arg (h : Prepared G M Γ c next (.app f a)) (f' : Term) (hle : next ≤ next') :
    Prepared G M Γ (c.down (.argument f')) next' a :=
  ⟨h.place.within (c.place.within_down _), h.marks, h.trail, h.links.2, h.enclosed.arg.mono hle⟩

theorem body (h : Prepared G M Γ c next (.lam b x t)) :
    Prepared G (inside b.recursive M) (b :: Γ) ((c.within (.function b)).down (.body b x)) next
      t := by
  refine ⟨h.place.within (c.place.within_down _), ?_, ?_, h.links, h.enclosed.body⟩
  · rw [Term.marks_cons, h.marks]
  · intro k hk
    rcases List.mem_cons.mp hk with rfl | hk
    · exact List.mem_cons_self
    · exact List.mem_cons_of_mem _ (h.trail k hk)

/-- A copy of the body of a definition takes the place of a reference. -/
theorem unfold (h : Prepared G M Γ c next (.ref x .free)) {body : Term} (hbody : body.Scoped []) :
    Prepared G M Γ ((c.within .other).moved (c.place.leave (.ref x .free))) (body.copy next).2
      (body.copy next).1 :=
  h.other.grown (Term.nameless_copy (hbody.mono (List.nil_subset Γ)) fun b hb =>
      (h.enclosed.apart b hb).1).1
    (Term.grown_copy _ body next) (Place.within_leave c.place _) rfl

theorem isRecursive (h : Prepared G M Γ c next t) :
    t.isRecursive = .ok ((t.nameless Γ).recursive M) := by
  rw [Term.isRecursive_eq_recursive h.links, h.marks]

theorem containsRecursive (h : Prepared G M Γ c next t) :
    t.containsRecursive c.trail = .ok (!decide (t.nameless Γ).Grounded) :=
  Term.containsRecursive_eq_not_grounded h.links h.enclosed h.trail

end Prepared

/-! ### Reduction finds the value -/

/-- An expression that is prepared and reads as `u` is reduced to one that reads as `v`, with
depth `d`. -/
structure Attained (G : Glossary) (m : Mode) (M : Nat → Bool) (u v : Nameless String) (d : Nat) :
    Prop where
  reach : ∀ {s : Setting} {c : Circumstance} {Γ : List Binder} {t : Term} {e : Effects},
    s.execute = false → 2 ≤ s.rounds → Prepared G M Γ c e.next t → c.mode = m →
    t.nameless Γ = u →
    ∃ r p next, reduce s d c t e = .ok (r, p) (e.made next) ∧ r.Scoped Γ ∧ r.nameless Γ = v

section Attained

open Term (Grown)

variable {G : Glossary} {m : Mode} {M : Nat → Bool} {d : Nat} {s : Setting} {c : Circumstance}
  {Γ : List Binder} {e : Effects} {next : Nat} {b : Binder} {x y : String}
  {u v w f a g : Nameless String}

theorem Attained.bound (i : Nat) (x : String) :
    Attained G m M (.bound i x) (.bound i x) (d + 1) := by
  refine ⟨fun {s c Γ t e} hs hr ht hc hu => ?_⟩
  obtain ⟨b, rfl⟩ := Term.eq_of_nameless_eq_bound ht.links hu
  exact ⟨_, _, _, rfl, ht.links, hu⟩

theorem Attained.unfold (h : Attained G m M u v d) (hx : (x, u) ∈ G) :
    Attained G m M (.free x) v (d + 1) := by
  refine ⟨fun {s c Γ t e} hs hr ht hc hu => ?_⟩
  obtain rfl := Term.eq_of_nameless_eq_free ht.links hu
  obtain ⟨entry, hfind, hbody, hreads⟩ := ht.place (.ref x .free) _ hx
  have hcopy := (Term.nameless_copy (hbody.mono (List.nil_subset Γ)) fun b hb =>
    (ht.enclosed.apart b hb).1).2
  have hsame : entry.body.nameless Γ = u := (Term.nameless_append hbody Γ).trans hreads
  obtain ⟨r, p, next, hreduce, hlinks, hv⟩ :=
    h.reach (e := e.made (entry.body.copy e.next).2) hs hr (ht.unfold hbody) hc
      (hcopy.trans hsame)
  refine ⟨r, p, next, ?_, hlinks, hv⟩
  have hbody' : c.place.lookUp (.ref x .free) x = some entry.body := by
    rw [Place.lookUp_eq, hfind]
    rfl
  simp only [reduce, reduceWith, reduceVisiting, hbody']
  exact hreduce

theorem Attained.lam {r : Bool} (h : Attained G m (inside r M) u v d) (x : String) :
    Attained G m M (.lam r x u) (.lam r x v) (d + 1) := by
  refine ⟨fun {s c Γ t e} hs hr ht hc hu => ?_⟩
  obtain ⟨b, t', rfl, rfl, hu'⟩ := Term.eq_of_nameless_eq_lam ht.links hu
  obtain ⟨r, p, next, hreduce, hlinks, hv⟩ := h.reach hs hr ht.body hc hu'
  exact ⟨_, _, next, Outcome.bind_of_ok hreduce, hlinks, congrArg (Nameless.lam _ x) hv⟩

/-- Applying a function, where what comes out is reduced. -/
theorem Attained.contract (h : Attained G m M (u.instantiate w) v d) (hs : s.execute = false)
    (hr : 2 ≤ s.rounds) (hm : c.mode.afterApplication = m)
    {t a : Term} (ht : Prepared G M Γ c e.next (.app (.lam b x t) a))
    (hu : t.nameless (b :: Γ) = u) (hw : a.nameless Γ = w) :
    ∃ r p next, applyWith (reduce s d) s c (.app (.lam b x t) a) e = .ok (r, p) (e.made next) ∧
      r.Scoped Γ ∧ r.nameless Γ = v ∧ Grown e.next (.app (.lam b x t) a) next r ∧
      p.Within c.place := by
  have htidy := ht.enclosed.tidy
  obtain ⟨hlinks, hreads⟩ := Term.nameless_subst ht.links.1 ht.links.2 htidy.fn.body
    (ht.enclosed.apart.fn.body htidy.fn)
  have hgrown := (Term.grown_subst b a htidy.fn.body).of_redex (b := b) (x := x) (a := a)
  have hwithin := Place.within_afterBeta c b x t a
  have hnew : Prepared G M Γ (c.afterBeta b x t a) (t.subst b a e.next).2 (t.subst b a e.next).1 :=
    ht.grown hlinks hgrown hwithin rfl
  obtain ⟨r, p, next, hreduce, hlinks', hreads'⟩ :=
    h.reach (e := e.made (t.subst b a e.next).2) hs hr hnew hm (by rw [hreads, hu, hw])
  have hrun := runs_of_reduce hreduce
  exact ⟨r, p, next, hreduce, hlinks', hreads', hgrown.trans (hrun.grown hnew.enclosed.tidy),
    hrun.within.trans hwithin⟩

/-- The sides of an application are reduced first. -/
theorem Attained.app {z : Nameless String} (hf : Attained G m M u g d) (ha : Attained G m M v w d)
    (h : ∀ {s : Setting} {c : Circumstance} {Γ : List Binder} {f a : Term} {e : Effects},
      s.execute = false → 2 ≤ s.rounds → Prepared G M Γ c e.next (.app f a) → c.mode = m →
      f.nameless Γ = g → a.nameless Γ = w →
      ∃ r p next, reduceApplicationWith (reduce s d) s c f a e = .ok (r, p) (e.made next) ∧
        r.Scoped Γ ∧ r.nameless Γ = z) :
    Attained G m M (.app u v) z (d + 1) := by
  refine ⟨fun {s c Γ t e} hs hr ht hc hu => ?_⟩
  obtain ⟨f, a, rfl, hf', ha'⟩ := Term.eq_of_nameless_eq_app ht.links hu
  -- the keys that one side takes are new to the other, so the sides do not get in the way
  obtain ⟨f₁, p, n₁, hfn, hlinks₁, hreads₁⟩ := hf.reach hs hr (ht.other.fn a) hc hf'
  have hgrown₁ := (runs_of_reduce hfn).grown ht.enclosed.tidy.fn
  obtain ⟨a₁, q, n₂, harg, hlinks₂, hreads₂⟩ :=
    ha.reach (e := e.made n₁) hs hr (ht.other.arg f₁ hgrown₁.le) hc ha'
  have hgrown₂ := (runs_of_reduce harg).grown (ht.enclosed.tidy.arg.mono hgrown₁.le)
  have hgrown := hgrown₁.app ht.enclosed.tidy hgrown₂
  have ht₁ : Prepared G M Γ (c.within .other) n₂ (.app f₁ a₁) :=
    ht.other.grown ⟨hlinks₁, hlinks₂⟩ hgrown (.refl _) rfl
  obtain ⟨r, p', n₃, happ, hlinks, hreads⟩ := h (e := e.made n₂) hs hr ht₁ hc hreads₁ hreads₂
  refine ⟨r, p', n₃, ?_, hlinks, hreads⟩
  rw [reduce, reduceWith_app ht.links.1.plain_true.stays_app]
  exact (Outcome.bind_of_ok hfn).trans ((Outcome.bind_of_ok harg).trans happ)

theorem Attained.stuck (hf : Attained G m M f g d) (ha : Attained G m M a w d)
    (hm : m = .normal ∨ m = .doneRecursive) (hrec : g.recursive M = false) (hg : ¬ g.IsFunction) :
    Attained G m M (.app f a) (.app g w) (d + 1) := by
  refine hf.app ha fun {s c Γ fn arg e} hs hr ht hc hfn harg => ?_
  subst hfn harg
  refine ⟨.app fn arg, c.place, e.next, ?_, ht.links, rfl⟩
  have hfn : fn.isRecursive = .ok false := by
    rw [(ht.fn arg).isRecursive, hrec]
  rw [reduceApplicationWith_eq_applyWith hfn (hc ▸ hm)]
  exact applyWith_of_not_isFunction hs hg c e

theorem Attained.beta (hf : Attained G m M f (.lam false x u) d) (ha : Attained G m M a w d)
    (hm : m = .normal ∨ m = .doneRecursive) (h : Attained G m M (u.instantiate w) v d) :
    Attained G m M (.app f a) v (d + 1) := by
  refine hf.app ha fun {s c Γ fn arg e} hs hr ht hc hfn harg => ?_
  obtain ⟨b, t, rfl, hb, hu⟩ := Term.eq_of_nameless_eq_lam ht.links.1 hfn
  have hmode : c.mode.afterApplication = m := by
    rw [hc]
    rcases hm with rfl | rfl <;> rfl
  obtain ⟨r, p, next, happly, hlinks, hreads, -⟩ := h.contract hs hr hmode ht hu harg
  refine ⟨r, p, next, ?_, hlinks, hreads⟩
  have hfn : (Term.lam b x t).isRecursive = .ok false := congrArg Except.ok hb
  rw [reduceApplicationWith_eq_applyWith hfn (hc ▸ hm)]
  exact happly

theorem Attained.held (hf : Attained G m M f g d) (ha : Attained G m M a w d)
    (hm : m = .normal ∨ m = .doneRecursive) (hrec : g.recursive M = true)
    (hheld : m = .doneRecursive ∨ ¬ w.Grounded) :
    Attained G m M (.app f a) (.app g w) (d + 1) := by
  refine hf.app ha fun {s c Γ fn arg e} hs hr ht hc hfn harg => ?_
  subst hfn harg
  refine ⟨.app fn arg, c.place, e.next, ?_, ht.links, rfl⟩
  have hfn := (ht.fn arg).isRecursive
  rw [hrec] at hfn
  have harg : arg.containsRecursive c.trail = .ok (!decide (arg.nameless Γ).Grounded) :=
    (ht.arg fn (Nat.le_refl _)).containsRecursive
  rcases hm with rfl | rfl
  · rw [decide_eq_false (hheld.resolve_left nofun)] at harg
    simp only [reduceApplicationWith, hc, hfn, harg]
    rfl
  · simp only [reduceApplicationWith, hc, hfn]
    rfl

/-- A recursive function that is applied to something recursive is unrolled once more when the
argument contains no recursion. -/
theorem Prepared.recurs {t a arg : Term}
    (h : Prepared G M Γ c next (.app (.app (.lam b x t) a) arg)) (hm : c.mode = .normal)
    (hb : b.recursive = true) (ha : (a.nameless Γ).recursive M = true)
    (harg : (arg.nameless Γ).Grounded) : c.Recurs (.app (.lam b x t) a) arg := by
  have hrec : (Term.app (.lam b x t) a).isRecursive = .ok true := by
    rw [(h.fn arg).isRecursive, Term.nameless, Term.nameless, Nameless.recursive,
      Nameless.recursive, hb, ha]
    rfl
  have hcontains := (h.arg (.app (.lam b x t) a) (Nat.le_refl _)).containsRecursive
  rw [decide_eq_true harg] at hcontains
  refine ⟨hm, hrec, hcontains, ?_⟩
  simp only [Term.unrolls, hrec]
  rfl

/-- Unrolling stops at a function that is not recursive. -/
theorem unrollWith_stops {again : Reducer} {n : Nat} {t a : Term} (hb : b.recursive = false) :
    unrollWith again s (n + 1) c (.app (.lam b x t) a) e
      = .ok (.app (.lam b x t) a, c.place) e := by
  have hunrolls : (Term.app (.lam b x t) a).unrolls = .ok false := by
    rw [Term.unrolls, Term.isRecursive, hb]
    rfl
  rw [unrollWith, hunrolls]
  rfl

/-- Unrolling takes one round where it makes a function that is not recursive. -/
theorem Attained.round {t a arg : Term} {n : Nat}
    (h : Attained G .doneRecursive M (u.instantiate w) (.lam false y v) d)
    (hs : s.execute = false) (hr : 2 ≤ s.rounds)
    (ht : Prepared G M Γ c e.next (.app (.app (.lam b x t) a) arg)) (hu : t.nameless (b :: Γ) = u)
    (hw : a.nameless Γ = w) (hc : c.Recurs (.app (.lam b x t) a) arg) :
    ∃ k v' next, unrollWith (reduce s d) s (n + 2) c (.app (.app (.lam b x t) a) arg) e
        = .ok (.app (.lam k y v') arg, c.place) (e.made next) ∧
      Prepared G M Γ c next (.app (.lam k y v') arg) ∧ v'.nameless (k :: Γ) = v := by
  obtain ⟨fn, p, next, happly, hlinks, hreads, hgrown, -⟩ :=
    h.contract hs hr rfl ((ht.fn arg).inMode .applyRecursive) hu hw
  obtain ⟨k, v', rfl, hk, hv'⟩ := Term.eq_of_nameless_eq_lam hlinks hreads
  refine ⟨k, v', next, ?_, ?_, hv'⟩
  · rw [unrollWith_inner hc.unrolls]
    exact (Outcome.bind_of_ok happly).trans (unrollWith_stops hk)
  · have harg := (ht.enclosed.tidy.arg.mono hgrown.le).grown
    exact ht.grown ⟨hlinks, ht.links.2⟩ (.app ht.enclosed.tidy hgrown harg) (.refl _) rfl

/-- What is unrolled is applied, and the value is reduced again. -/
theorem Attained.unroll {q z : Nameless String}
    (hf : Attained G .normal M f (.app (.lam true x u) w) d) (hw : w.recursive M = true)
    (ha : Attained G .normal M a g d) (hg : g.Grounded)
    (hinner : Attained G .doneRecursive M (u.instantiate w) (.lam false y v) d)
    (houter : Attained G .doneRecursive M (v.instantiate g) z d)
    (hlast : Attained G .normal M z q d) : Attained G .normal M (.app f a) q (d + 1) := by
  refine hf.app ha fun {s c Γ fn arg e} hs hr ht hm hfn harg => ?_
  obtain ⟨k, a', rfl, hk, rfl⟩ := Term.eq_of_nameless_eq_app ht.links.1 hfn
  obtain ⟨b, t, rfl, hb, hu⟩ := Term.eq_of_nameless_eq_lam ht.links.1.1 hk
  subst harg
  have hc := ht.recurs hm hb hw hg
  obtain ⟨n, hn⟩ := Nat.exists_eq_add_of_le' hr
  -- one round of unrolling, the application with recursion held back, and the reduction of that
  obtain ⟨k, v', n₁, hround, ht₁, hv'⟩ := hinner.round (n := n) hs hr ht hu rfl hc
  have ht₁' := ht₁.inMode .doneRecursive
  obtain ⟨t₂, p₂, n₂, happly, hlinks₂, hreads₂, hgrown₂, hplace₂⟩ :=
    houter.contract (e := e.made n₁) hs hr rfl ht₁' hv' rfl
  have ht₂ : Prepared G M Γ ((c.moved p₂).inMode .normal) n₂ t₂ :=
    ht₁'.grown hlinks₂ hgrown₂ hplace₂ rfl
  obtain ⟨r, p, n₃, hreduce, hlinks, hreads⟩ := hlast.reach (e := e.made n₂) hs hr ht₂ rfl hreads₂
  refine ⟨r, p, n₃, ?_, hlinks, hreads⟩
  rw [reduceApplicationWith_recurs hc, hn]
  exact (Outcome.bind_of_ok hround).trans ((Outcome.bind_of_ok happly).trans hreduce)

end Attained

theorem eventually_succ {P Q : Nat → Prop} (h : ∀ᶠ d in Filter.atTop, P d)
    (hstep : ∀ d, P d → Q (d + 1)) : ∀ᶠ d in Filter.atTop, Q d := by
  obtain ⟨n, hn⟩ := Filter.eventually_atTop.mp h
  refine Filter.eventually_atTop.mpr ⟨n + 1, fun d hd => ?_⟩
  obtain ⟨k, rfl⟩ := Nat.exists_eq_add_of_le' hd
  exact hstep (k + n) (hn _ (Nat.le_add_left n k))

/-- What is reduced according to the rules is reduced in that way with every depth from some depth
on. -/
theorem Nameless.Reduces.attained {G : Glossary} {m : Mode} {M : Nat → Bool}
    {u v : Nameless String} (h : Reduces G m M u v) (hm : m = .normal ∨ m = .doneRecursive) :
    ∀ᶠ d in Filter.atTop, Attained G m M u v d := by
  -- each rule needs one level more than its premises
  induction h with
  | bound i x =>
    exact eventually_succ (Filter.Eventually.of_forall fun _ => trivial) fun d _ => .bound i x
  | unfold hx _ ih => exact eventually_succ (ih hm) fun d h => h.unfold hx
  | lam x _ ih => exact eventually_succ (ih hm) fun d h => h.lam x
  | app _ _ hrec hg ihf iha =>
    exact eventually_succ ((ihf hm).and (iha hm)) fun d ⟨hf, ha⟩ => hf.stuck ha hm hrec hg
  | beta _ _ _ ihf iha ih =>
    exact eventually_succ ((ihf hm).and ((iha hm).and (ih hm))) fun d ⟨hf, ha, h⟩ =>
      hf.beta ha hm h
  | held _ _ hrec hheld ihf iha =>
    exact eventually_succ ((ihf hm).and (iha hm)) fun d ⟨hf, ha⟩ => hf.held ha hm hrec hheld
  | unroll _ hc _ hb _ _ _ ihf iha ih₁ ih₂ ih₃ =>
    have hrounds := (ih₁ (.inr rfl)).and ((ih₂ (.inr rfl)).and (ih₃ hm))
    have hparts := (ihf hm).and ((iha hm).and hrounds)
    exact eventually_succ hparts fun d ⟨hf, ha, hinner, houter, hlast⟩ =>
      hf.unroll hc ha hb hinner houter hlast

end LambdaScript
