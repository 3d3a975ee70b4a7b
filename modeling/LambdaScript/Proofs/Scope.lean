/-
LambdaScript/Proofs/Scope.lean

Well-scoped expressions and how they read without binders.

An expression is scoped below the functions `Γ`, innermost first, when it has no
leaf that is no expression and each of its references is free or belongs to a
function around it: one of its own or one of `Γ`.  A scoped expression reads as a
nameless one (`nameless`), where a link is the number of functions between the
reference and its own.  Identities of functions are gone then, while names and
marks remain.

Main results: a copy reads like the expression it was made from
(`nameless_copy`), and putting copies of an argument in the place of references to
a function reads as applying the function (`nameless_subst`).  The second needs
the discipline of binders: the function does not occur in its own body, and no
function of the body is one of `Γ`.
-/
import LambdaScript.Definitions
import LambdaScript.Proofs.Binders
import LambdaScript.Proofs.Confluence
import Mathlib.Data.List.Basic

namespace LambdaScript

open Nameless (under Filling)

namespace Term

/-! ### Scoping and reading -/

/-- Every leaf is a reference that is free or belongs to a function around it. -/
def Scoped (Γ : List Binder) : Term → Prop
  | app f a => f.Scoped Γ ∧ a.Scoped Γ
  | lam b _ t => t.Scoped (b :: Γ)
  | ref _ .free => True
  | ref _ (.binder b) => b ∈ Γ
  | _ => False

/-- How a scoped expression reads without binders. -/
def nameless (Γ : List Binder) : Term → Nameless String
  | app f a => .app (f.nameless Γ) (a.nameless Γ)
  | lam b x t => .lam b.recursive x (t.nameless (b :: Γ))
  | ref x (.binder b) => .bound (Γ.idxOf b) x
  | ref x _ => .free x
  | _ => .free ""

/-- A whole expression with every reference free or bound in it, in which no
function occurs twice. -/
structure WellScoped (t : Term) : Prop where
  links : t.Scoped []
  nodup : t.binders.Nodup

instance decidableScoped (Γ : List Binder) : (t : Term) → Decidable (t.Scoped Γ)
  | missing => isFalse id
  | foreign => isFalse id
  | app f a =>
    have := decidableScoped Γ f
    have := decidableScoped Γ a
    inferInstanceAs (Decidable (f.Scoped Γ ∧ a.Scoped Γ))
  | lam b _ t => decidableScoped (b :: Γ) t
  | ref _ .free => isTrue trivial
  | ref _ (.binder b) => inferInstanceAs (Decidable (b ∈ Γ))
  | ref _ (.reference _ _) => isFalse id
  | ref _ .endless => isFalse id

instance decidableWellScoped (t : Term) : Decidable t.WellScoped :=
  decidable_of_iff (t.Scoped [] ∧ t.binders.Nodup) ⟨fun h => ⟨h.1, h.2⟩, fun h => ⟨h.1, h.2⟩⟩

theorem Scoped.mono {t : Term} {Γ Γ' : List Binder} (h : t.Scoped Γ) (hΓ : Γ ⊆ Γ') :
    t.Scoped Γ' := by
  induction t generalizing Γ Γ' with
  | missing => exact h
  | foreign => exact h
  | app f a ihf iha => exact ⟨ihf h.1 hΓ, iha h.2 hΓ⟩
  | lam b x t ih => exact ih (Γ := b :: Γ) h (List.cons_subset_cons b hΓ)
  | ref x l =>
    cases l with
    | free => trivial
    | binder b => exact hΓ h
    | reference k own => exact h
    | endless => exact h

/-- What is scoped without any function around it reads the same everywhere. -/
theorem nameless_append {t : Term} {Γ : List Binder} (h : t.Scoped Γ) (Γ' : List Binder) :
    t.nameless (Γ ++ Γ') = t.nameless Γ := by
  induction t generalizing Γ with
  | missing => rfl
  | foreign => rfl
  | app f a ihf iha => rw [nameless, ihf h.1, iha h.2, nameless]
  | lam b x t ih =>
    rw [nameless, nameless, ← List.cons_append, ih (Γ := b :: Γ) h]
  | ref x l =>
    cases l with
    | binder b => rw [nameless, nameless, List.idxOf_append_of_mem h]
    | free => rfl
    | reference k own => rfl
    | endless => rfl

theorem closedAt_nameless {t : Term} {Γ : List Binder} (h : t.Scoped Γ) :
    (t.nameless Γ).ClosedAt Γ.length := by
  induction t generalizing Γ with
  | missing => trivial
  | foreign => trivial
  | app f a ihf iha => exact ⟨ihf h.1, iha h.2⟩
  | lam b x t ih => exact ih (Γ := b :: Γ) h
  | ref x l =>
    cases l with
    | binder b => exact List.idxOf_lt_length_of_mem h
    | free => trivial
    | reference k own => trivial
    | endless => trivial

/-! ### Expressions by how they read -/

section Reading

variable {Γ : List Binder} {t : Term}

theorem eq_of_nameless_eq_bound (ht : t.Scoped Γ) {i : Nat} {x : String}
    (h : t.nameless Γ = .bound i x) : ∃ b, t = ref x (.binder b) := by
  cases t with
  | missing => exact ht.elim
  | foreign => exact ht.elim
  | app f a => cases h
  | lam b y t => cases h
  | ref y l =>
    cases l with
    | binder b =>
      cases h
      exact ⟨b, rfl⟩
    | _ => cases h

theorem eq_of_nameless_eq_free (ht : t.Scoped Γ) {x : String} (h : t.nameless Γ = .free x) :
    t = ref x .free := by
  cases t with
  | missing => exact ht.elim
  | foreign => exact ht.elim
  | app f a => cases h
  | lam b y t => cases h
  | ref y l =>
    cases l with
    | free =>
      cases h
      rfl
    | binder b => cases h
    | reference k own => exact ht.elim
    | endless => exact ht.elim

theorem eq_of_nameless_eq_lam (ht : t.Scoped Γ) {r : Bool} {x : String} {u : Nameless String}
    (h : t.nameless Γ = .lam r x u) :
    ∃ b t', t = lam b x t' ∧ b.recursive = r ∧ t'.nameless (b :: Γ) = u := by
  cases t with
  | missing => exact ht.elim
  | foreign => exact ht.elim
  | app f a => cases h
  | ref y l => cases l <;> cases h
  | lam b y t' =>
    cases h
    exact ⟨b, t', rfl, rfl, rfl⟩

theorem eq_of_nameless_eq_app (ht : t.Scoped Γ) {u v : Nameless String}
    (h : t.nameless Γ = .app u v) :
    ∃ f a, t = app f a ∧ f.nameless Γ = u ∧ a.nameless Γ = v := by
  cases t with
  | missing => exact ht.elim
  | foreign => exact ht.elim
  | lam b y t' => cases h
  | ref y l => cases l <;> cases h
  | app f a =>
    cases h
    exact ⟨f, a, rfl, rfl, rfl⟩

end Reading

/-! ### More functions around an expression -/

/-- Functions `Δ` between an expression and those it refers to raise the numbers of
its references to the latter. -/
theorem nameless_insert {t : Term} {Θ Γ : List Binder} (h : t.Scoped (Θ ++ Γ)) {Δ : List Binder}
    (hΔ : ∀ b ∈ Γ, b ∉ Δ) :
    t.nameless (Θ ++ (Δ ++ Γ))
      = (t.nameless (Θ ++ Γ)).rename (under^[Θ.length] (· + Δ.length)) := by
  induction t generalizing Θ with
  | missing => rfl
  | foreign => rfl
  | app f a ihf iha => rw [nameless, ihf h.1, iha h.2]; rfl
  | lam b x t ih =>
    have ih := ih (Θ := b :: Θ) h
    rw [nameless, nameless, Nameless.rename, ← List.cons_append, ih, List.length_cons,
      Function.iterate_succ_apply']
    rfl
  | ref x l =>
    cases l with
    | free => rfl
    | reference k own => rfl
    | endless => rfl
    | binder b =>
      rw [nameless, nameless, Nameless.rename]
      -- references to `Θ` do not see `Δ`, references to `Γ` count past it
      by_cases hb : b ∈ Θ
      · rw [List.idxOf_append_of_mem hb, List.idxOf_append_of_mem hb,
          Nameless.under_iterate_of_lt _ (List.idxOf_lt_length_of_mem hb)]
      · have hbΓ : b ∈ Γ := (List.mem_append.mp h).resolve_left hb
        rw [List.idxOf_append_of_notMem hb, List.idxOf_append_of_notMem hb,
          List.idxOf_append_of_notMem (hΔ b hbΓ), Nameless.under_iterate_add,
          Nat.add_comm Δ.length]

theorem nameless_cons {t : Term} {Γ : List Binder} (h : t.Scoped Γ) {b : Binder} (hb : b ∉ Γ) :
    t.nameless (b :: Γ) = (t.nameless Γ).rename Nat.succ := by
  have hΔ : ∀ c ∈ Γ, c ∉ [b] := fun c hc hcb => hb (List.mem_singleton.mp hcb ▸ hc)
  exact nameless_insert (Θ := []) h hΔ

/-! ### Copying -/

/-- A copied reference belongs to a function around the copy, and has the number
that its original had. -/
theorem copied_reference {copies : Renaming} {Γ : List Binder}
    (hnew : (copies.map (·.2)).Nodup) (hΓ : ∀ c ∈ Γ, c ∉ copies.map (·.2)) {b : Binder}
    (hb : b ∈ copies.map (·.1) ++ Γ) :
    (copies.lookup b).getD b ∈ copies.map (·.2) ++ Γ ∧
      (copies.map (·.2) ++ Γ).idxOf ((copies.lookup b).getD b)
        = (copies.map (·.1) ++ Γ).idxOf b := by
  induction copies with
  | nil => exact ⟨hb, rfl⟩
  | cons p rest ih =>
    obtain ⟨c, c'⟩ := p
    rw [List.map_cons, List.nodup_cons] at hnew
    simp only [List.map_cons, List.cons_append] at hb hΓ ⊢
    by_cases hbc : b = c
    · subst hbc
      rw [List.lookup_cons_self, Option.getD_some, List.idxOf_cons_self, List.idxOf_cons_self]
      exact ⟨List.mem_cons_self, rfl⟩
    · have hΓ' : ∀ d ∈ Γ, d ∉ rest.map (·.2) := fun d hd h =>
        hΓ d hd (List.mem_cons_of_mem _ h)
      obtain ⟨hmem, hidx⟩ := ih hnew.2 hΓ' ((List.mem_cons.mp hb).resolve_left hbc)
      -- what is found further out is not the innermost copy, which is new
      have hne : c' ≠ (rest.lookup b).getD b := by
        intro he
        rcases List.mem_append.mp hmem with h | h
        · exact hnew.1 (he ▸ h)
        · exact hΓ _ h (he ▸ List.mem_cons_self)
      rw [List.lookup_cons, beq_false_of_ne hbc, List.idxOf_cons_ne _ hne,
        List.idxOf_cons_ne _ (Ne.symm hbc), hidx]
      exact ⟨List.mem_cons_of_mem _ hmem, rfl⟩

theorem nameless_copyUnder {t : Term} {copies : Renaming} {Γ : List Binder} {next : Nat}
    (ht : t.Scoped (copies.map (·.1) ++ Γ)) (hnew : (copies.map (·.2)).Nodup)
    (hΓ : ∀ c ∈ Γ, c ∉ copies.map (·.2)) (hkey : ∀ c ∈ copies.map (·.2) ++ Γ, c.key < next) :
    (t.copyUnder copies next).1.Scoped (copies.map (·.2) ++ Γ) ∧
      (t.copyUnder copies next).1.nameless (copies.map (·.2) ++ Γ)
        = t.nameless (copies.map (·.1) ++ Γ) := by
  induction t generalizing copies next with
  | missing => exact ht.elim
  | foreign => exact ht.elim
  | app f a ihf iha =>
    obtain ⟨hf, hf'⟩ := ihf ht.1 hnew hΓ hkey
    have hle : next ≤ (f.copyUnder copies next).2 := by
      rw [copyUnder_snd]
      exact Nat.le_add_right _ _
    obtain ⟨ha, ha'⟩ := iha ht.2 hnew hΓ fun c hc => Nat.lt_of_lt_of_le (hkey c hc) hle
    exact ⟨⟨hf, ha⟩, congrArg₂ Nameless.app hf' ha'⟩
  | lam b x t ih =>
    -- the copy of the function has the next key, so it is none of those around
    have hfresh : ∀ c ∈ copies.map (·.2) ++ Γ, c ≠ ⟨next, b.recursive⟩ := by
      rintro c hc rfl
      exact Nat.lt_irrefl next (hkey _ hc)
    have hnew' : (((b, ⟨next, b.recursive⟩) :: copies : Renaming).map (·.2)).Nodup :=
      List.nodup_cons.mpr ⟨fun h => hfresh _ (List.mem_append_left _ h) rfl, hnew⟩
    have hΓ' : ∀ c ∈ Γ, c ∉ ((b, ⟨next, b.recursive⟩) :: copies : Renaming).map (·.2) := by
      intro c hc h
      rcases List.mem_cons.mp h with h | h
      · exact hfresh c (List.mem_append_right _ hc) h
      · exact hΓ c hc h
    have hkey' : ∀ c ∈ ((b, ⟨next, b.recursive⟩) :: copies : Renaming).map (·.2) ++ Γ,
        c.key < next + 1 := by
      intro c hc
      rcases List.mem_cons.mp hc with rfl | hc
      · exact Nat.lt_succ_self next
      · exact Nat.lt_succ_of_lt (hkey c hc)
    obtain ⟨h, h'⟩ := ih ht hnew' hΓ' hkey'
    exact ⟨h, congrArg (Nameless.lam b.recursive x) h'⟩
  | ref x l =>
    cases l with
    | free => exact ⟨trivial, rfl⟩
    | binder b =>
      obtain ⟨hmem, hidx⟩ := copied_reference hnew hΓ ht
      exact ⟨hmem, congrArg (Nameless.bound · x) hidx⟩
    | reference k own => exact ht.elim
    | endless => exact ht.elim

/-- A copy is scoped where its original is, and reads the same. -/
theorem nameless_copy {t : Term} {Γ : List Binder} {next : Nat} (ht : t.Scoped Γ)
    (hkey : ∀ c ∈ Γ, c.key < next) :
    (t.copy next).1.Scoped Γ ∧ (t.copy next).1.nameless Γ = t.nameless Γ :=
  @nameless_copyUnder t [] Γ next ht List.nodup_nil (fun _ _ => List.not_mem_nil) hkey

/-! ### Substitution -/

theorem nameless_substUnder {t arg : Term} {Δ Γ : List Binder} {b : Binder} {next : Nat}
    (ht : t.Scoped (Δ ++ b :: Γ)) (harg : arg.Scoped Γ) (htidy : t.Tidy next)
    (hout : Apart (b :: Γ) next t) (hΔ : ∀ c ∈ b :: Γ, c ∉ Δ) (hkey : ∀ c ∈ Δ, c.key < next) :
    (t.subst b arg next).1.Scoped (Δ ++ Γ) ∧
      (t.subst b arg next).1.nameless (Δ ++ Γ) = (t.nameless (Δ ++ b :: Γ)).fill
        (Filling.under^[Δ.length] (Filling.first (arg.nameless Γ))) := by
  induction t generalizing Δ next with
  | missing => exact ht.elim
  | foreign => exact ht.elim
  | app f a ihf iha =>
    obtain ⟨hf, hf'⟩ := ihf ht.1 htidy.fn hout.fn hΔ hkey
    have hle := (grown_subst b arg htidy.fn).le
    have houta : Apart (b :: Γ) (f.subst b arg next).2 a := fun c hc =>
      ⟨Nat.lt_of_lt_of_le (hout c hc).1 hle, (hout.arg c hc).2⟩
    obtain ⟨ha, ha'⟩ := iha ht.2 (htidy.arg.mono hle) houta hΔ fun c hc =>
      Nat.lt_of_lt_of_le (hkey c hc) hle
    exact ⟨⟨hf, ha⟩, congrArg₂ Nameless.app hf' ha'⟩
  | lam c x t ih =>
    -- on the way down the function joins `Δ`; it is neither `b` nor one further out
    have hΔ' : ∀ d ∈ b :: Γ, d ∉ c :: Δ := by
      intro d hd h
      rcases List.mem_cons.mp h with rfl | h
      · exact (hout d hd).2 List.mem_cons_self
      · exact hΔ d hd h
    have hkey' : ∀ d ∈ c :: Δ, d.key < next := by
      intro d hd
      rcases List.mem_cons.mp hd with rfl | hd
      · exact htidy.key_lt
      · exact hkey d hd
    have hout' : Apart (b :: Γ) next t := fun d hd =>
      (hout.body htidy) d (List.mem_cons_of_mem _ hd)
    obtain ⟨h, h'⟩ := ih (Δ := c :: Δ) ht htidy.body hout' hΔ' hkey'
    rw [List.length_cons, Function.iterate_succ_apply'] at h'
    exact ⟨h, congrArg (Nameless.lam c.recursive x) h'⟩
  | ref x l =>
    cases l with
    | free => exact ⟨trivial, rfl⟩
    | reference k own => exact ht.elim
    | endless => exact ht.elim
    | binder c =>
      rw [subst, nameless, Nameless.fill]
      by_cases hcb : c = b
      · -- a reference to `b` makes room for a copy of the argument, now below `Δ`
        subst hcb
        have hΓΔ : ∀ d ∈ Γ, d ∉ Δ := fun d hd => hΔ d (List.mem_cons_of_mem _ hd)
        have hkeys : ∀ d ∈ Δ ++ Γ, d.key < next := by
          intro d hd
          rcases List.mem_append.mp hd with hd | hd
          · exact hkey d hd
          · exact (hout d (List.mem_cons_of_mem _ hd)).1
        obtain ⟨h, h'⟩ := nameless_copy (harg.mono (List.subset_append_right Δ Γ)) hkeys
        rw [if_pos rfl, List.idxOf_append_of_notMem (hΔ c List.mem_cons_self),
          List.idxOf_cons_self, Filling.under_iterate_add, h']
        exact ⟨h, nameless_insert (Θ := []) harg hΓΔ⟩
      · have hne : (Link.binder c) ≠ .binder b := fun h => hcb (Link.binder.inj h)
        rw [if_neg hne]
        by_cases hcΔ : c ∈ Δ
        · -- a function that was passed on the way down keeps its number
          rw [List.idxOf_append_of_mem hcΔ,
            Filling.under_iterate_of_lt _ (List.idxOf_lt_length_of_mem hcΔ), nameless,
            List.idxOf_append_of_mem hcΔ]
          exact ⟨List.mem_append_left _ hcΔ, rfl⟩
        · -- a function further out than `b` is one nearer now
          have hcΓ : c ∈ Γ :=
            (List.mem_cons.mp ((List.mem_append.mp ht).resolve_left hcΔ)).resolve_left hcb
          rw [List.idxOf_append_of_notMem hcΔ, List.idxOf_cons_ne _ (Ne.symm hcb),
            Filling.under_iterate_add, nameless, List.idxOf_append_of_notMem hcΔ,
            Nat.add_comm Δ.length]
          exact ⟨List.mem_append_right _ hcΓ, rfl⟩

/-- Putting copies of an argument in the place of the references to a function reads
as applying the function. -/
theorem nameless_subst {t arg : Term} {Γ : List Binder} {b : Binder} {next : Nat}
    (ht : t.Scoped (b :: Γ)) (harg : arg.Scoped Γ) (htidy : t.Tidy next)
    (hout : Apart (b :: Γ) next t) :
    (t.subst b arg next).1.Scoped Γ ∧ (t.subst b arg next).1.nameless Γ
      = (t.nameless (b :: Γ)).instantiate (arg.nameless Γ) :=
  nameless_substUnder (Δ := []) ht harg htidy hout (fun _ _ => List.not_mem_nil)
    fun _ h => absurd h List.not_mem_nil

end Term

/-! ### Tables -/

namespace Table

/-- Every body is well scoped. -/
def WellScoped (d : Table) : Prop :=
  ∀ e ∈ d.toList, e.body.WellScoped

instance decidableWellScoped (d : Table) : Decidable d.WellScoped :=
  inferInstanceAs (Decidable (∀ e ∈ d.toList, e.body.WellScoped))

/-- What the names of a table stand for. -/
def unfolding (d : Table) : Nameless.Unfolding String :=
  fun x => (d.find? x).map fun e => e.body.nameless []

theorem unfolding_eq_some {d : Table} {x : String} {e : Definition} (h : d.find? x = some e) :
    d.unfolding x = some (e.body.nameless []) := by
  rw [unfolding, h]
  rfl

theorem WellScoped.of_find? {d : Table} (h : d.WellScoped) {x : String} {e : Definition}
    (he : d.find? x = some e) : e.body.WellScoped :=
  h e (List.mem_of_find?_eq_some he)

theorem WellScoped.closed_unfolding {d : Table} (h : d.WellScoped) {x : String}
    {t : Nameless String} (ht : d.unfolding x = some t) : t.Closed := by
  obtain ⟨e, he, rfl⟩ := Option.map_eq_some_iff.mp ht
  exact Term.closedAt_nameless (h.of_find? he).links

end Table

end LambdaScript
