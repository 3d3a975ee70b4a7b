/-
LambdaScript/Proofs/Formed.lean

Reduction keeps the definitions well formed.

A table is well formed (`Table.WellFormed`) when its names are different and not
reserved, when every reference in a body is free or belongs to a function around it
in that body, and when no function occurs twice, be it in one body or in two.
Functions are the parts of an expression that have an identity, their binder; to
say that two bodies share nothing is to say that they share no function.

A definition is reduced inside the table, so the table is seen in every state of the
work, also in the odd one of an applied function whose body has been replaced while
it still stands before its argument.  `Place.Sound Γ p next t` says that the table
is well formed now that the place `p` holds `t`, and that it will be for as long as
the place holds something formed that has grown from `t`.  Each task keeps it
(`Runs.holds`), and where a task fails, the table that is left is one of those
(`Breaks.wellFormed`).
-/
import LambdaScript.Proofs.Reading
import LambdaScript.Proofs.Simulation

namespace LambdaScript

/-! ### Formed expressions -/

namespace Term

/-- Every reference is free or belongs to a function around it, no argument has a
reserved name, and nothing is foreign.  Parts may be missing. -/
def Formed (Γ : List Binder) : Term → Prop
  | missing => True
  | foreign => False
  | app f a => f.Formed Γ ∧ a.Formed Γ
  | lam b x t => isReserved x = false ∧ t.Formed (b :: Γ)
  | ref _ .free => True
  | ref _ (.binder b) => b ∈ Γ
  | ref _ _ => False

theorem Scoped.formed {t : Term} {Γ : List Binder} (h : t.Scoped Γ)
    (hnames : ∀ x ∈ t.argumentNames, isReserved x = false) : t.Formed Γ := by
  induction t generalizing Γ with
  | missing => trivial
  | foreign => exact h
  | app f a ihf iha =>
    exact ⟨ihf h.1 fun x hx => hnames x (List.mem_append_left _ hx),
      iha h.2 fun x hx => hnames x (List.mem_append_right _ hx)⟩
  | lam b x t ih =>
    exact ⟨hnames x List.mem_cons_self,
      ih (Γ := b :: Γ) h fun y hy => hnames y (List.mem_cons_of_mem _ hy)⟩
  | ref x l =>
    cases l with
    | free => trivial
    | binder b => exact h
    | reference k own => exact h
    | endless => exact h

namespace Formed

variable {t arg : Term} {Γ Γ' Δ : List Binder}

theorem mono (h : t.Formed Γ) (hΓ : Γ ⊆ Γ') : t.Formed Γ' := by
  induction t generalizing Γ Γ' with
  | missing => trivial
  | foreign => exact h
  | app f a ihf iha => exact ⟨ihf h.1 hΓ, iha h.2 hΓ⟩
  | lam b x t ih => exact ⟨h.1, ih h.2 (List.cons_subset_cons b hΓ)⟩
  | ref x l =>
    cases l with
    | free => trivial
    | binder b => exact hΓ h
    | reference k own => exact h
    | endless => exact h

theorem copyUnder {copies : Renaming} (h : t.Formed (copies.map (·.1) ++ Γ)) (next : Nat) :
    (t.copyUnder copies next).1.Formed (copies.map (·.2) ++ Γ) := by
  induction t generalizing copies next with
  | missing => trivial
  | foreign => exact h
  | app f a ihf iha => exact ⟨ihf h.1 _, iha h.2 _⟩
  | lam b x t ih => exact ⟨h.1, @ih ((b, ⟨next, b.recursive⟩) :: copies) h.2 _⟩
  | ref x l =>
    cases l with
    | free => trivial
    | reference k own => exact h
    | endless => exact h
    | binder b =>
      -- the link leads to the copy of `b`, or to `b` itself, which has not been copied
      show (copies.lookup b).getD b ∈ copies.map (·.2) ++ Γ
      rcases hb : copies.lookup b with - | b'
      · have hnot : b ∉ copies.map (·.1) := by
          intro hmem
          obtain ⟨p, hp, rfl⟩ := List.mem_map.mp hmem
          have hne := List.lookup_eq_none_iff.mp hb p hp
          rw [bne_self_eq_false] at hne
          cases hne
        exact List.mem_append_right _ ((List.mem_append.mp h).resolve_left hnot)
      · obtain ⟨l₁, l₂, rfl, -⟩ := List.lookup_eq_some_iff.mp hb
        simp

theorem copy (h : t.Formed Γ) (next : Nat) : (t.copy next).1.Formed Γ :=
  @copyUnder t Γ [] h next

theorem substUnder {b : Binder} (h : t.Formed (Δ ++ b :: Γ)) (harg : arg.Formed Γ) (next : Nat) :
    (t.subst b arg next).1.Formed (Δ ++ Γ) := by
  induction t generalizing Δ next with
  | missing => trivial
  | foreign => exact h
  | app f a ihf iha => exact ⟨ihf h.1 _, iha h.2 _⟩
  | lam c x t ih => exact ⟨h.1, ih (Δ := c :: Δ) h.2 _⟩
  | ref x l =>
    rw [Term.subst]
    by_cases hl : l = .binder b
    · rw [if_pos hl]
      exact (harg.mono (List.subset_append_right Δ Γ)).copy next
    · rw [if_neg hl]
      cases l with
      | free => trivial
      | reference k own => exact h
      | endless => exact h
      | binder c =>
        have hcb : c ≠ b := fun heq => hl (congrArg Link.binder heq)
        rcases List.mem_append.mp h with hΔ | hΓ
        · exact List.mem_append_left _ hΔ
        · exact List.mem_append_right _ ((List.mem_cons.mp hΓ).resolve_left hcb)

theorem subst {b : Binder} (h : t.Formed (b :: Γ)) (harg : arg.Formed Γ) (next : Nat) :
    (t.subst b arg next).1.Formed Γ :=
  substUnder (Δ := []) h harg next

theorem identity (next : Nat) : (Term.identity next).1.Formed Γ :=
  ⟨by decide, List.mem_cons_self⟩

end Formed

end Term

/-! ### Well-formed tables -/

namespace Table

/-- The names of the table are different and not reserved; the bodies are formed, none of
their functions occurs twice or in two of them, and the keys of all are below the
supply. -/
structure WellFormed (next : Nat) (d : Table) : Prop where
  names : d.names.Nodup
  unreserved : ∀ e ∈ d.toList, isReserved e.name = false
  formed : ∀ e ∈ d.toList, e.body.Formed []
  tidy : ∀ e ∈ d.toList, e.body.Tidy next
  separate : d.toList.Pairwise fun e e' => e.body.binders.Disjoint e'.body.binders

variable {d : Table} {a : String} {next next' : Nat} {B : Term}

theorem wellFormed_empty (next : Nat) : empty.WellFormed next :=
  ⟨List.nodup_nil, nofun, nofun, nofun, .nil⟩

theorem WellFormed.mono (h : d.WellFormed next) (hle : next ≤ next') : d.WellFormed next' :=
  { h with tidy := fun e he => (h.tidy e he).mono hle }

theorem WellFormed.formed_of_find? (h : d.WellFormed next) {x : String} {e : Definition}
    (he : d.find? x = some e) : e.body.Formed [] :=
  h.formed e (List.mem_of_find?_eq_some he)

theorem pairwise_bindIn {R : Definition → Definition → Prop} {l : List Definition}
    (hl : l.Pairwise R) (hleft : ∀ e ∈ l, R e ⟨a, B⟩) (hright : ∀ e ∈ l, R ⟨a, B⟩ e) :
    (bindIn a B l).Pairwise R := by
  induction l with
  | nil => exact List.pairwise_singleton R _
  | cons e rest ih =>
    obtain ⟨he, hrest⟩ := List.pairwise_cons.mp hl
    rw [bindIn]
    split
    · exact List.pairwise_cons.mpr ⟨fun e' he' => hright e' (List.mem_cons_of_mem _ he'), hrest⟩
    · refine List.pairwise_cons.mpr ⟨?_, ih hrest
        (fun e' he' => hleft e' (List.mem_cons_of_mem _ he'))
        fun e' he' => hright e' (List.mem_cons_of_mem _ he')⟩
      intro e' he'
      rcases mem_bindIn he' with rfl | he'
      · exact hleft e List.mem_cons_self
      · exact he e' he'

/-- A name may be bound to a formed expression whose functions are all new. -/
theorem WellFormed.bind (h : d.WellFormed next) (ha : isReserved a = false)
    (hB : Term.Grown next .missing next' B) (hformed : B.Formed []) :
    (d.bind a B).WellFormed next' := by
  have hnew : ∀ b ∈ B.binders, next ≤ b.key ∧ b.key < next' := fun b hb =>
    (hB.old_or_new b hb).resolve_left List.not_mem_nil
  have hapart : ∀ e ∈ d.toList, e.body.binders.Disjoint B.binders := by
    intro e he b hold hb
    exact absurd ((h.tidy e he).below b hold) (Nat.not_lt.mpr (hnew b hb).1)
  refine ⟨?_, ?_, ?_, ?_, ?_⟩
  · rw [names_bind]
    split
    · exact h.names
    · next hfresh =>
      rw [← List.concat_eq_append]
      exact h.names.concat hfresh
  · intro e he
    rcases mem_bindIn he with rfl | he
    · exact ha
    · exact h.unreserved e he
  · intro e he
    rcases mem_bindIn he with rfl | he
    · exact hformed
    · exact h.formed e he
  · intro e he
    rcases mem_bindIn he with rfl | he
    · exact ⟨hB.nodup, fun b hb => (hnew b hb).2⟩
    · exact (h.tidy e he).mono hB.le
  · exact pairwise_bindIn h.separate hapart fun e he _ hb hold => hapart e he hold hb

end Table

/-! ### Places -/

/-- The definitions are well formed while the place holds something formed that has grown
from `t`. -/
def Place.Sound (Γ : List Binder) (p : Place) (next : Nat) (t : Term) : Prop :=
  ∀ next' u, Term.Grown next t next' u → u.Formed Γ → (p.definitions u).WellFormed next'

theorem sound_outside {d : Table} {next : Nat} (h : d.WellFormed next) (Γ : List Binder)
    (t : Term) : (Place.outside d).Sound Γ next t :=
  fun _ _ hu _ => h.mono hu.le

/-- While a definition is reduced in its place, nothing of its body is part of another
one. -/
theorem sound_whole {d : Table} {next next' : Nat} (h : d.WellFormed next) {a : String}
    (ha : isReserved a = false) {t u : Term} (ht : Term.Grown next .missing next' t) :
    (Place.whole (d.bind a u) a).Sound [] next' t := by
  intro next'' v hv hf
  rw [Place.definitions_whole, Table.bind_bind]
  exact h.bind ha (ht.trans hv) hf

/-- The place holds the formed expression `t` and is sound. -/
structure Place.Holds (Γ : List Binder) (p : Place) (next : Nat) (t : Term) : Prop where
  tidy : t.Tidy next
  formed : t.Formed Γ
  sound : p.Sound Γ next t

namespace Place.Holds

variable {Γ : List Binder} {p : Place} {next next' : Nat} {t t' f f' a a' : Term} {b : Binder}
  {x : String}

theorem wellFormed (h : p.Holds Γ next t) : (p.definitions t).WellFormed next :=
  h.sound next t h.tidy.grown h.formed

theorem grown (h : p.Holds Γ next t) (ht : Term.Grown next t next' t') (hf : t'.Formed Γ) :
    p.Holds Γ next' t' :=
  ⟨ht.tidy h.tidy, hf, fun next'' u hu => h.sound next'' u (ht.trans hu)⟩

/-- Outside of all definitions nothing changes any more. -/
theorem leave (h : p.Holds Γ next t) (ht : Term.Grown next t next' t') (hf : t'.Formed Γ) :
    (p.leave t).Holds Γ next' t' :=
  ⟨ht.tidy h.tidy, hf, fun _ _ hu _ => h.wellFormed.mono (Nat.le_trans ht.le hu.le)⟩

/-- A copy of what is found under a name. -/
theorem unfold (h : p.Holds Γ next (.ref x .free)) {body : Term}
    (hbody : p.lookUp (.ref x .free) x = some body) :
    (p.leave (.ref x .free)).Holds Γ (body.copy next).2 (body.copy next).1 := by
  rw [Place.lookUp_eq] at hbody
  obtain ⟨e, he, rfl⟩ := Option.map_eq_some_iff.mp hbody
  have hformed := (h.wellFormed.formed_of_find? he).mono (List.nil_subset Γ)
  exact h.leave (Term.grown_copy (.ref x .free) e.body next) (hformed.copy next)

/-! #### Parts, and what comes of them -/

theorem fn (h : p.Holds Γ next (.app f a)) : (p.down (.function a)).Holds Γ next f := by
  refine ⟨h.tidy.fn, h.formed.1, fun next' u hu hf => ?_⟩
  rw [Place.definitions_down]
  exact h.sound next' _ (.app h.tidy hu (h.tidy.arg.mono hu.le).grown) ⟨hf, h.formed.2⟩

theorem arg (h : p.Holds Γ next (.app f a)) : (p.down (.argument f)).Holds Γ next a := by
  refine ⟨h.tidy.arg, h.formed.2, fun next' u hu ha => ?_⟩
  rw [Place.definitions_down]
  exact h.sound next' _ (.app h.tidy h.tidy.fn.grown hu) ⟨h.formed.1, ha⟩

theorem body (h : p.Holds Γ next (.lam b x t)) : (p.down (.body b x)).Holds (b :: Γ) next t := by
  refine ⟨h.tidy.body, h.formed.2, fun next' u hu hf => ?_⟩
  rw [Place.definitions_down]
  exact h.sound next' _ (.lam h.tidy hu) ⟨h.formed.1, hf⟩

theorem fnDone (h : p.Holds Γ next (.app f a)) (hf : Term.Grown next f next' f')
    (hformed : f'.Formed Γ) : p.Holds Γ next' (.app f' a) :=
  h.grown (.app h.tidy hf (h.tidy.arg.mono hf.le).grown) ⟨hformed, h.formed.2⟩

theorem argDone (h : p.Holds Γ next (.app f a)) (ha : Term.Grown next a next' a')
    (hformed : a'.Formed Γ) : p.Holds Γ next' (.app f a') :=
  h.grown (.app h.tidy h.tidy.fn.grown ha) ⟨h.formed.1, hformed⟩

theorem bodyDone (h : p.Holds Γ next (.lam b x t)) (ht : Term.Grown next t next' t')
    (hformed : t'.Formed (b :: Γ)) : p.Holds Γ next' (.lam b x t') :=
  h.grown (.lam h.tidy ht) ⟨h.formed.1, hformed⟩

/-- The body of a function that is applied is replaced where it stands, unless it is the
argument alone.  What is there now does not refer to the function. -/
theorem beta {c : Circumstance} (h : c.place.Holds Γ next (.app (.lam b x t) a)) :
    (c.afterBeta b x t a).place.Holds Γ (t.subst b a next).2 (t.subst b a next).1 := by
  have hgrown := Term.grown_subst b a h.tidy.fn.body
  have hformed := h.formed.1.2.subst h.formed.2 next
  show Place.Holds Γ (if t.isArgumentOf b then _ else _) _ _
  split
  · exact h.leave hgrown.of_redex hformed
  · refine ⟨hgrown.tidy h.tidy.fn.body, hformed, fun next' u hu hf => ?_⟩
    rw [Place.definitions_down, Place.definitions_down]
    have hbody := hgrown.trans hu
    exact h.sound next' _ (.app h.tidy (.lam h.tidy.fn hbody) (h.tidy.arg.mono hbody.le).grown)
      ⟨⟨h.formed.1.1, hf.mono (List.subset_cons_self b Γ)⟩, h.formed.2⟩

end Place.Holds

/-! ### Tasks -/

section Tasks

variable {s : Setting} {task : Task} {c : Circumstance} {t : Term} {e e' : Effects}
  {Γ : List Binder}

/-- A task keeps the definitions well formed, and ends with something formed. -/
theorem Runs.holds {r : Placed} (h : Runs s task c t e r e') (ht : c.place.Holds Γ e.next t) :
    r.2.Holds Γ e'.next r.1 := by
  induction h generalizing Γ with
  | stay _ => exact ht
  | unbound _ => exact ht
  | unfold hbody _ ih => exact ih (ht.unfold hbody)
  | lam h₁ ih => exact ht.bodyDone (h₁.grown ht.tidy.body) (ih ht.body).formed
  | app _ h₁ h₂ _ ihf iha ih =>
    have hfn := ht.fnDone (h₁.grown ht.tidy.fn) (ihf ht.fn).formed
    exact ih (hfn.argDone (h₂.grown hfn.tidy.arg) (iha hfn.arg).formed)
  | held _ => exact ht
  | contract _ _ _ ih => exact ih ht
  | recur _ _ _ _ ih₁ ih₂ ih₃ => exact ih₃ (ih₂ (ih₁ ht))
  | beta _ ih => exact ih ht.beta
  | @act c x l a e line _ _ _ =>
    exact ht.leave (Term.grown_identity (.app (.ref x l) a) e.next) (.identity _)
  | ignored _ => exact ht
  | rest _ => exact ht
  | inner _ h₁ _ ih₁ ih₂ => exact ih₂ (ht.fnDone (h₁.grown ht.tidy.fn) (ih₁ ht.fn).formed)
  | outer _ _ _ ih₁ ih₂ => exact ih₂ (ih₁ ht)

/-- A task that fails leaves well-formed definitions. -/
theorem Breaks.wellFormed {err : Failure} (h : Breaks s task c t e err e')
    (ht : c.place.Holds Γ e.next t) : err.table.WellFormed e'.next := by
  induction h generalizing Γ with
  | tooDeep _ => exact ht.wellFormed
  | unfold hbody _ ih => exact ih (ht.unfold hbody)
  | lam _ ih => exact ih ht.body
  | fn _ _ ih => exact ih ht.fn
  | arg _ h₁ _ ih => exact ih (ht.fnDone (h₁.grown ht.tidy.fn) (h₁.holds ht.fn).formed).arg
  | app _ h₁ h₂ _ ih =>
    have hfn := ht.fnDone (h₁.grown ht.tidy.fn) (h₁.holds ht.fn).formed
    exact ih (hfn.argDone (h₂.grown hfn.tidy.arg) (h₂.holds hfn.arg).formed)
  | stumble _ => exact ht.wellFormed
  | contract _ _ _ ih => exact ih ht
  | recurUnroll _ _ ih => exact ih ht
  | recurApply _ h₁ _ ih => exact ih (h₁.holds ht)
  | recurReduce _ h₁ h₂ _ ih =>
    have ht₁ := h₁.holds ht
    exact ih (h₂.holds ht₁)
  | nothingToApply => exact ht.wellFormed
  | notAnApplication _ _ => exact ht.wellFormed
  | beta _ ih => exact ih ht.beta
  | act _ _ _ => exact ht.wellFormed
  | puzzle _ => exact ht.wellFormed
  | inner _ _ ih => exact ih ht.fn
  | innerRest _ h₁ _ ih => exact ih (ht.fnDone (h₁.grown ht.tidy.fn) (h₁.holds ht.fn).formed)
  | outer _ _ ih => exact ih ht
  | outerRest _ h₁ _ ih => exact ih (h₁.holds ht)

end Tasks

end LambdaScript
