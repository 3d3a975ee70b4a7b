/-
LambdaScript/Proofs/Uniqueness.lean

What an expression is reduced to depends only on what it means.

Two expressions mean the same when steps in either direction turn one into the
other: functions are applied, names are replaced by their definitions, anywhere
and in any order.  The names of arguments are of no account for this, so the steps
are taken on expressions without labels (`Nameless.bare`).  Taking the labels away
neither adds nor removes a step (`Step.bare`, `Step.of_bare`), and that is why the
results about labelled expressions carry over.

Two results are compared as they are, with their binders: `Term.Alike` says that
they are the same tree with the same links, and that their free references bear
the same names.

Main result: `alike_of_conv`, when nothing is recursive and nothing is executed,
expressions that mean the same are reduced to the same up to the names of
arguments.
-/
import LambdaScript.Proofs.Agreement

namespace LambdaScript

open Nameless (Step Conv Unfolding BetaDelta Filling)

namespace Nameless

variable {ν : Type}

/-! ### Expressions without labels -/

/-- The expression without its labels. -/
def bare : Nameless ν → Nameless Unit
  | bound i _ => bound i ()
  | free x => free x
  | app f a => app f.bare a.bare
  | lam r _ t => lam r () t.bare

/-- What names stand for, without labels. -/
def Unfolding.bare (U : Unfolding ν) : Unfolding Unit :=
  fun x => (U x).map Nameless.bare

theorem bare_rename (f : Nat → Nat) (t : Nameless ν) : (t.rename f).bare = t.bare.rename f := by
  induction t generalizing f with
  | bound i x => rfl
  | free x => rfl
  | app g a ihg iha => rw [rename, bare, ihg, iha, bare, rename]
  | lam r x t ih => rw [rename, bare, ih, bare, rename]

theorem bare_fill {σ : Filling ν} {τ : Filling Unit} (h : ∀ i x, (σ i x).bare = τ i ())
    (t : Nameless ν) : (t.fill σ).bare = t.bare.fill τ := by
  induction t generalizing σ τ with
  | bound i x => exact h i x
  | free x => rfl
  | app g a ihg iha => rw [fill, bare, ihg h, iha h, bare, fill]
  | lam r x t ih =>
    have hunder : ∀ i x, (σ.under i x).bare = τ.under i () := by
      intro i x
      cases i with
      | zero => rfl
      | succ i =>
        show ((σ i x).rename Nat.succ).bare = (τ i ()).rename Nat.succ
        rw [bare_rename, h]
    rw [fill, bare, ih hunder, bare, fill]

theorem bare_instantiate (t a : Nameless ν) :
    (t.instantiate a).bare = t.bare.instantiate a.bare := by
  apply bare_fill
  intro i x
  cases i <;> rfl

theorem ClosedAt.bare {t : Nameless ν} {k : Nat} (h : t.ClosedAt k) : t.bare.ClosedAt k := by
  induction t generalizing k with
  | bound i x => exact h
  | free x => trivial
  | app g a ihg iha => exact ⟨ihg h.1, iha h.2⟩
  | lam r x t ih => exact ih (k := k + 1) h

variable {U : Unfolding ν} {t u : Nameless ν} {l : Option String}

theorem Step.bare (h : Step (BetaDelta U) t l u) : Step (BetaDelta U.bare) t.bare l u.bare := by
  induction h with
  | root hr =>
    cases hr with
    | beta r x t a =>
      rw [bare_instantiate]
      exact .root (.beta r () t.bare a.bare)
    | @delta x t hx =>
      refine .root (.delta ?_)
      rw [Unfolding.bare, hx]
      rfl
  | fn a _ ih => exact .fn a.bare ih
  | arg f _ ih => exact .arg f.bare ih
  | body r x _ ih => exact .body r () ih

theorem Conv.bare (h : Conv (BetaDelta U) t u) : Conv (BetaDelta U.bare) t.bare u.bare := by
  induction h with
  | rel t u hs =>
    obtain ⟨l, hs⟩ := hs
    exact .of_step hs.bare
  | refl t => exact .refl t.bare
  | symm t u _ ih => exact ih.symm
  | trans t u v _ _ ih ih' => exact ih.trans ih'

/-- A step that can be taken without labels can be taken with them. -/
theorem Step.of_bare {v : Nameless Unit} (h : Step (BetaDelta U.bare) t.bare l v) :
    ∃ u, Step (BetaDelta U) t l u := by
  induction t generalizing l v with
  | bound i x =>
    cases h with
    | root hr => cases hr
  | free x =>
    cases h with
    | root hr =>
      cases hr with
      | delta hx =>
        obtain ⟨t, ht, -⟩ := Option.map_eq_some_iff.mp hx
        exact ⟨t, .root (.delta ht)⟩
  | lam r x t ih =>
    cases h with
    | root hr => cases hr
    | body _ _ hs =>
      obtain ⟨u, hu⟩ := ih hs
      exact ⟨.lam r x u, .body r x hu⟩
  | app f a ihf iha =>
    cases h with
    | fn _ hs =>
      obtain ⟨u, hu⟩ := ihf hs
      exact ⟨.app u a, .fn a hu⟩
    | arg _ hs =>
      obtain ⟨u, hu⟩ := iha hs
      exact ⟨.app f u, .arg f hu⟩
    | root hr =>
      -- only a function is a function without its labels
      cases f with
      | lam r x t =>
        cases hr
        exact ⟨t.instantiate a, .root (.beta r x t a)⟩
      | _ => cases hr

end Nameless

/-! ### The same up to the names of arguments -/

namespace Term

/-- The two expressions are the same tree and their references have the same links,
where the functions around them correspond as `P` says; free references bear the
same names. -/
def Alike (P : List (Binder × Binder)) : Term → Term → Prop
  | app f a, app g b => f.Alike P g ∧ a.Alike P b
  | lam b _ t, lam c _ u => b.recursive = c.recursive ∧ t.Alike ((b, c) :: P) u
  | ref x .free, ref y .free => x = y
  | ref _ (.binder b), ref _ (.binder c) => (b, c) ∈ P
  | _, _ => False

/-- References with the same number belong to functions that correspond. -/
theorem mem_of_idxOf_eq {P : List (Binder × Binder)} {b c : Binder}
    (hb : b ∈ P.map (·.1)) (h : (P.map (·.1)).idxOf b = (P.map (·.2)).idxOf c) :
    (b, c) ∈ P := by
  have hlt := List.idxOf_lt_length_of_mem hb
  have hc : c ∈ P.map (·.2) := by
    rw [← List.idxOf_lt_length_iff, ← h, List.length_map]
    rwa [List.length_map] at hlt
  have hfst := List.getElem?_idxOf hb
  have hsnd := List.getElem?_idxOf hc
  -- both are found at one and the same place of `P`
  rw [← h] at hsnd
  rw [List.getElem?_map] at hfst hsnd
  obtain ⟨p, hp, rfl⟩ := Option.map_eq_some_iff.mp hfst
  obtain ⟨q, hq, rfl⟩ := Option.map_eq_some_iff.mp hsnd
  obtain rfl := Option.some.inj (hp.symm.trans hq)
  exact List.mem_of_getElem? hp

/-- Scoped expressions that read the same without labels are alike. -/
theorem alike_of_bare_eq {t u : Term} {P : List (Binder × Binder)}
    (ht : t.Scoped (P.map (·.1))) (hu : u.Scoped (P.map (·.2)))
    (h : (t.nameless (P.map (·.1))).bare = (u.nameless (P.map (·.2))).bare) :
    t.Alike P u := by
  induction t generalizing u P with
  | missing => exact ht.elim
  | foreign => exact ht.elim
  | app f a ihf iha =>
    cases u with
    | missing => exact hu.elim
    | foreign => exact hu.elim
    | lam c y u => cases h
    | ref y k => cases k <;> cases h
    | app g b =>
      obtain ⟨hf, ha⟩ := Nameless.app.inj h
      exact ⟨ihf ht.1 hu.1 hf, iha ht.2 hu.2 ha⟩
  | lam b x t ih =>
    cases u with
    | missing => exact hu.elim
    | foreign => exact hu.elim
    | app g a => cases h
    | ref y k => cases k <;> cases h
    | lam c y u =>
      obtain ⟨hr, -, hbody⟩ := Nameless.lam.inj h
      exact ⟨hr, ih (P := (b, c) :: P) ht hu hbody⟩
  | ref x l =>
    cases u with
    | missing => exact hu.elim
    | foreign => exact hu.elim
    | app g a => cases l <;> cases h
    | lam c y u => cases l <;> cases h
    | ref y k =>
      cases l with
      | reference key own => exact ht.elim
      | endless => exact ht.elim
      | free =>
        cases k with
        | reference key own => exact hu.elim
        | endless => exact hu.elim
        | binder c => cases h
        | free => exact Nameless.free.inj h
      | binder b =>
        cases k with
        | reference key own => exact hu.elim
        | endless => exact hu.elim
        | free => cases h
        | binder c => exact mem_of_idxOf_eq ht (Nameless.bound.inj h).1

end Term

/-! ### Uniqueness of results -/

/-- Outside of all definitions, names mean what the table says. -/
theorem means_outside {d : Table} (hd : d.WellScoped) (t : Term) :
    (Place.outside d).Means d.unfolding t := by
  intro _ _ _ x body hx
  obtain ⟨e, he, rfl⟩ := Option.map_eq_some_iff.mp hx
  exact hd.conv_find? he

/-- **Results are unique up to the names of arguments.**  Let two expressions be
convertible by applying functions and unfolding definitions, in any order, in either
direction and anywhere in them.  When nothing is recursive and nothing is executed,
what they are reduced to is alike.  As always, the supply of each reduction lies above
the keys in use. -/
theorem alike_of_conv {d : Table} {t₁ t₂ r₁ r₂ : Term} {s₁ s₂ : Setting} {depth₁ depth₂ : Nat}
    {trail₁ trail₂ : Trail} {p₁ p₂ : Place} {e₁ e₁' e₂ e₂' : Effects}
    (hd : d.WellScoped ∧ d.Unmarked) (ht₁ : t₁.WellScoped ∧ t₁.Unmarked)
    (ht₂ : t₂.WellScoped ∧ t₂.Unmarked) (hs₁ : s₁.execute = false) (hs₂ : s₂.execute = false)
    (hkeys₁ : ∀ b ∈ t₁.binders, b.key < e₁.next) (hkeys₂ : ∀ b ∈ t₂.binders, b.key < e₂.next)
    (hconv : Conv (BetaDelta d.unfolding.bare) (t₁.nameless []).bare (t₂.nameless []).bare)
    (h₁ : reduce s₁ depth₁ ⟨.normal, .outside d, trail₁⟩ t₁ e₁ = .ok (r₁, p₁) e₁')
    (h₂ : reduce s₂ depth₂ ⟨.normal, .outside d, trail₂⟩ t₂ e₂ = .ok (r₂, p₂) e₂') :
    r₁.Alike [] r₂ := by
  -- each expression converts to its result, so the results convert to each other
  obtain ⟨hr₁, hconv₁⟩ := conv_of_reduce hs₁ ht₁.1 hkeys₁ (means_outside hd.1 t₁) h₁
  obtain ⟨hr₂, hconv₂⟩ := conv_of_reduce hs₂ ht₂.1 hkeys₂ (means_outside hd.1 t₂) h₂
  have hresults := (hconv₁.bare.symm.trans hconv).trans hconv₂.bare
  -- neither has a step, with labels and so without
  have hnormal₁ : ∀ l v, ¬ Step (BetaDelta d.unfolding.bare) (r₁.nameless []).bare l v := by
    intro l v hs
    obtain ⟨u, hu⟩ := hs.of_bare
    exact irreducible_of_reduce hd.1 hd.2 ht₁.1.links ht₁.2 h₁ Table.mem_names_of_unfolding l u hu
  have hnormal₂ : ∀ l v, ¬ Step (BetaDelta d.unfolding.bare) (r₂.nameless []).bare l v := by
    intro l v hs
    obtain ⟨u, hu⟩ := hs.of_bare
    exact irreducible_of_reduce hd.1 hd.2 ht₂.1.links ht₂.2 h₂ Table.mem_names_of_unfolding l u hu
  have hclosed : ∀ {x u}, d.unfolding.bare x = some u → u.Closed := by
    intro x u hx
    obtain ⟨v, hv, rfl⟩ := Option.map_eq_some_iff.mp hx
    exact (hd.1.closed_unfolding hv).bare
  have heq := Nameless.eq_of_conv hclosed hresults hnormal₁ hnormal₂
  exact Term.alike_of_bare_eq (P := []) hr₁.links hr₂.links heq

/-- `[y. k y] id`, where `id` is `[x. x]`, and `[f. f [z. z]] k` both mean `k` applied to the
identity function.  They are reduced to `k [x. x]` and `k [z. z]`. -/
theorem alike_of_conv_identities :
    let i : Nat → String → Term := fun n x => .lam ⟨n, false⟩ x (.ref x (.binder ⟨n, false⟩))
    let d : Table := ⟨[⟨"id", i 0 "x"⟩]⟩
    let k : Term := .ref "k" .free
    let t₁ : Term := .app (.lam ⟨1, false⟩ "y" (.app k (.ref "y" (.binder ⟨1, false⟩))))
      (.ref "id" .free)
    let t₂ : Term := .app (.lam ⟨2, false⟩ "f" (.app (.ref "f" (.binder ⟨2, false⟩)) (i 3 "z"))) k
    let s : Setting := ⟨false, .standard, 10⟩
    reduce s 20 ⟨.normal, .outside d, []⟩ t₁ ⟨4, []⟩
        = .ok (.app k (i 5 "x"), .outside d) ⟨6, []⟩ ∧
      reduce s 20 ⟨.normal, .outside d, []⟩ t₂ ⟨4, []⟩
        = .ok (.app k (i 3 "z"), .outside d) ⟨4, []⟩ ∧
      Conv (BetaDelta d.unfolding.bare) (t₁.nameless []).bare (t₂.nameless []).bare ∧
      (Term.app k (i 5 "x")).Alike [] (.app k (i 3 "z")) := by
  intro i d k t₁ t₂ s
  have h₁ : reduce s 20 ⟨.normal, .outside d, []⟩ t₁ ⟨4, []⟩
      = .ok (.app k (i 5 "x"), .outside d) ⟨6, []⟩ := rfl
  have h₂ : reduce s 20 ⟨.normal, .outside d, []⟩ t₂ ⟨4, []⟩
      = .ok (.app k (i 3 "z"), .outside d) ⟨4, []⟩ := rfl
  have hconv : Conv (BetaDelta d.unfolding.bare) (t₁.nameless []).bare (t₂.nameless []).bare := by
    have hunfold : Conv (BetaDelta d.unfolding.bare) (.free "id") ((i 0 "x").nameless []).bare :=
      .of_step (.root (.delta rfl))
    have hleft := (Conv.refl (Term.nameless [] (.lam ⟨1, false⟩ "y" (.app k
      (.ref "y" (.binder ⟨1, false⟩))))).bare).app hunfold
    exact (hleft.trans (.of_step (.root (.beta _ _ _ _)))).trans
      (Conv.of_step (.root (.beta _ _ _ _))).symm
  exact ⟨h₁, h₂, hconv, alike_of_conv (by decide) (by decide) (by decide) rfl rfl (by decide)
    (by decide) hconv h₁ h₂⟩

end LambdaScript
