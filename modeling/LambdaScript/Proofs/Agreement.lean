/-
LambdaScript/Proofs/Agreement.lean

Reducing a definition does not change what it means.

A definition can be bound as it was written or in reduced form.  Reduced at once,
it is worked on with the definitions there are by then, and inside the table that
already holds it; later, other definitions may have been added.  Whatever is
reduced with the one or the other comes out the same, as long as nothing is
recursive.

The argument has four parts, one for each section below.

* A reduction in which nothing is executed converts, for every meaning of the names
  that agrees with what is found along the way (`conv_of_reduce`).
* So the two forms of a definition are convertible, and so are the two results.
* Both results are normal forms, and normal forms that are convertible are equal
  (`Nameless.eq_of_conv`), without binders.
* Well-scoped expressions that are equal without binders have the same outline
  (`Term.outline_eq_of_nameless_eq`).

Main result: `outline_eq_of_reduced_definition`.
-/
import LambdaScript.Proofs.Normality
import LambdaScript.Proofs.Simulation
import LambdaScript.Term.Outline

namespace LambdaScript

open Nameless (Rules Step Unfolding BetaDelta Conv)

/-! ### Outlines -/

theorem Link.outline_binder_eq {F G : List Binder} {b c : Binder} (h : F.idxOf? b = G.idxOf? c) :
    (Link.binder b).outline F = (Link.binder c).outline G := by
  rw [Link.outline, Link.outline, h]

namespace Term

/-- References to functions at the same position lead to functions with the same number. -/
theorem outline_eq_of_idxOf_eq {Γ Δ F G : List Binder} {b c : Binder} (hb : b ∈ Γ) (hc : c ∈ Δ)
    (h : Γ.idxOf b = Δ.idxOf c) (hΓ : Γ.map (F.idxOf? ·) = Δ.map (G.idxOf? ·)) :
    (Link.binder b).outline F = (Link.binder c).outline G := by
  have hnumber : (Γ.map (F.idxOf? ·))[Γ.idxOf b]? = (Δ.map (G.idxOf? ·))[Δ.idxOf c]? := by
    rw [hΓ, h]
  rw [List.getElem?_map, List.getElem?_map, List.getElem?_idxOf hb, List.getElem?_idxOf hc]
    at hnumber
  exact Link.outline_binder_eq (Option.some.inj hnumber)

/-- Two expressions that read the same have the same outline within lists of functions
that number their functions, and those around them, in the same way. -/
theorem outlineIn_eq_of_nameless_eq {t u : Term} {Γ Δ : List Binder} (ht : t.Scoped Γ)
    (hu : u.Scoped Δ) (h : t.nameless Γ = u.nameless Δ) :
    t.binders.length = u.binders.length ∧ ∀ F G : List Binder,
      Γ.map (F.idxOf? ·) = Δ.map (G.idxOf? ·) →
      t.binders.map (F.idxOf? ·) = u.binders.map (G.idxOf? ·) →
      t.outlineIn F = u.outlineIn G := by
  induction t generalizing u Γ Δ with
  | missing => exact ht.elim
  | foreign => exact ht.elim
  | app f a ihf iha =>
    obtain ⟨g, b, rfl, hfg, hab⟩ := eq_of_nameless_eq_app hu h.symm
    obtain ⟨hlf, hf⟩ := ihf ht.1 hu.1 hfg.symm
    obtain ⟨hla, ha⟩ := iha ht.2 hu.2 hab.symm
    refine ⟨?_, fun F G hΓ hb => ?_⟩
    · rw [binders, binders, List.length_append, List.length_append, hlf, hla]
    · -- equal lengths tell where the functions of the left side end
      rw [binders, binders, List.map_append, List.map_append] at hb
      obtain ⟨hbf, hba⟩ := List.append_inj hb (by rw [List.length_map, List.length_map, hlf])
      rw [outlineIn, outlineIn, hf F G hΓ hbf, ha F G hΓ hba]
  | lam b x t ih =>
    obtain ⟨c, u, rfl, hr, hbody⟩ := eq_of_nameless_eq_lam hu h.symm
    obtain ⟨hl, hout⟩ := ih (Γ := b :: Γ) (Δ := c :: Δ) ht hu hbody.symm
    refine ⟨congrArg Nat.succ hl, ?_⟩
    intro F G hΓ hb
    obtain ⟨hbc, hb'⟩ := List.cons.inj hb
    rw [outlineIn, outlineIn, Link.outline_binder_eq hbc, hr, hout F G ?_ hb']
    exact congrArg₂ List.cons hbc hΓ
  | ref x l =>
    cases l with
    | reference key own => exact ht.elim
    | endless => exact ht.elim
    | free =>
      rw [eq_of_nameless_eq_free hu h.symm]
      exact ⟨rfl, fun F G _ _ => rfl⟩
    | binder b =>
      obtain ⟨c, rfl⟩ := eq_of_nameless_eq_bound hu h.symm
      refine ⟨rfl, fun F G hΓ _ => ?_⟩
      rw [outlineIn, outlineIn, outline_eq_of_idxOf_eq ht hu (Nameless.bound.inj h).1 hΓ]

/-- The functions of a list without repetitions are numbered in order. -/
theorem map_idxOf?_self {l : List Binder} (h : l.Nodup) :
    l.map (l.idxOf? ·) = (List.range l.length).map some := by
  apply List.ext_getElem (by rw [List.length_map, List.length_map, List.length_range])
  intro i hi _
  rw [List.length_map] at hi
  rw [List.getElem_map, List.getElem_map, List.getElem_range, List.idxOf?_eq_some_iff]
  refine ⟨hi, rfl, ?_⟩
  intro j hj heq
  exact absurd (h.getElem_inj_iff.mp heq) (Nat.ne_of_lt hj)

/-- Well-scoped expressions that read the same have the same outline. -/
theorem outline_eq_of_nameless_eq {t u : Term} (ht : t.WellScoped) (hu : u.WellScoped)
    (h : t.nameless [] = u.nameless []) : t.outline = u.outline := by
  obtain ⟨hlength, hout⟩ := outlineIn_eq_of_nameless_eq ht.links hu.links h
  apply hout t.binders u.binders rfl
  rw [map_idxOf?_self ht.nodup, map_idxOf?_self hu.nodup, hlength]

end Term

/-! ### Reductions convert -/

/-- What is found at the place, while it holds something convertible to `t`, means what
`U` says. -/
def Place.Means (U : Unfolding String) (p : Place) (t : Term) : Prop :=
  ∀ u : Term, u.Scoped [] → Conv (BetaDelta U) (t.nameless []) (u.nameless []) →
    ∀ x body, p.lookUp u x = some body →
      body.Scoped [] ∧ Conv (BetaDelta U) (.free x) (body.nameless [])

/-- A reduction in which nothing is executed converts, whatever it finds in the place of
names, as long as that means the same. -/
theorem conv_of_reduce {U : Unfolding String} {s : Setting} {depth : Nat} {p q : Place}
    {trail : Trail} {t r : Term} {e e' : Effects} (hs : s.execute = false) (ht : t.WellScoped)
    (hkeys : ∀ b ∈ t.binders, b.key < e.next) (hp : p.Means U t)
    (h : reduce s depth ⟨.normal, p, trail⟩ t e = .ok (r, q) e') :
    r.WellScoped ∧ Conv (BetaDelta U) (t.nameless []) (r.nameless []) := by
  -- the rules are all conversions, so that what is found may differ from what `U` says
  let R : Rules String := fun u _ v => Conv (BetaDelta U) u v
  have hR : ∀ {u v}, Conv R u v → Conv (BetaDelta U) u v := fun hc => hc.le id
  have hfaithful : Faithful R s [] p t := by
    intro u hu hc
    have hmeans : ∀ x d, (p.definitions u).find? x = some d → d.body.Scoped [] ∧
        Conv (BetaDelta U) (.free x) (d.body.nameless []) := by
      intro x d hd
      apply hp u hu (hR hc) x
      rw [Place.lookUp_eq, hd]
      rfl
    refine ⟨fun x d hd => (hmeans x d hd).1,
      fun x d hd _ => ⟨(hmeans x d hd).2, d.body.avoids_empty⟩, fun hexec => ?_⟩
    rw [hs] at hexec
    cases hexec
  have hrun := runs_of_reduce h
  have htidy : t.Tidy e.next := ⟨ht.nodup, hkeys⟩
  have hfollows := hrun.follows (m := .normal)
    (fun r x u v _ => Conv.of_step (.root (BetaDelta.beta r x u v)))
    ⟨ht.links, htidy, fun _ hb => absurd hb List.not_mem_nil, hfaithful⟩ (.inl rfl)
  exact ⟨⟨hfollows.links, (hrun.grown htidy).nodup⟩, hR hfollows.conv⟩

/-! ### What names mean -/

namespace Table

variable {d : Table} {a x : String} {B : Term}

theorem WellScoped.bind (h : d.WellScoped) (hB : B.WellScoped) : (d.bind a B).WellScoped := by
  intro e he
  rcases mem_bindIn he with rfl | he
  · exact hB
  · exact h e he

theorem Unmarked.bind (h : d.Unmarked) (hB : B.Unmarked) : (d.bind a B).Unmarked := by
  intro e he
  rcases mem_bindIn he with rfl | he
  · exact hB
  · exact h e he

/-- Well-scoped bodies without recursive functions are plain without them. -/
theorem WellScoped.plain_false (h : d.WellScoped) (hd : d.Unmarked) :
    (Place.outside d).Plain false :=
  plain_outside fun e he => (h e he).links.plain_false (hd e he)

/-- A name means what the table says. -/
theorem WellScoped.conv_find? (h : d.WellScoped) {e : Definition} (he : d.find? x = some e) :
    e.body.Scoped [] ∧ Conv (BetaDelta d.unfolding) (.free x) (e.body.nameless []) := by
  have hdelta := BetaDelta.delta (unfolding_eq_some he)
  exact ⟨(h.of_find? he).links, .of_step (.root hdelta)⟩

theorem conv_bind_self (d : Table) (a : String) (B : Term) :
    Conv (BetaDelta (d.bind a B).unfolding) (.free a) (B.nameless []) := by
  have hdelta := BetaDelta.delta (unfolding_eq_some (d.find?_bind_self a B))
  exact .of_step (.root hdelta)

end Table

section Definition

variable {D D' : Table} {a : String} {B : Term}

/-- A definition may be bound to anything convertible. -/
theorem means_outside_bind (hD' : D'.WellScoped) (hB : B.WellScoped) {C : Term} (hC : C.Scoped [])
    (hconv : Conv (BetaDelta (D'.bind a B).unfolding) (B.nameless []) (C.nameless [])) (t : Term) :
    (Place.outside (D'.bind a C)).Means (D'.bind a B).unfolding t := by
  intro _ _ _ x body hx
  obtain ⟨e, he, rfl⟩ : ∃ e, (D'.bind a C).find? x = some e ∧ e.body = body :=
    Option.map_eq_some_iff.mp hx
  by_cases hxa : x = a
  · subst hxa
    rw [Table.find?_bind_self] at he
    cases he
    exact ⟨hC, (D'.conv_bind_self x B).trans hconv⟩
  · rw [Table.find?_bind_of_ne hxa, ← Table.find?_bind_of_ne hxa D' B] at he
    exact (hD'.bind hB).conv_find? he

/-- While a definition is reduced in its place, or outside with its first form still
bound, all names mean what they will mean afterwards. -/
theorem means_definition (hD' : D'.WellScoped) (hB : B.WellScoped)
    (hagree : ∀ x ∈ D.names, x ≠ a → D'.find? x = D.find? x) {p : Place}
    (hp : p = .whole (D.bind a B) a ∨ p = .outside (D.bind a B)) :
    p.Means (D'.bind a B).unfolding B := by
  intro u hu hconv x body hx
  by_cases hxa : x = a
  · subst hxa
    have hself := D'.conv_bind_self x B
    rw [Place.lookUp_eq] at hx
    rcases hp with rfl | rfl
    · rw [Place.definitions_whole, Table.find?_bind_self] at hx
      cases hx
      exact ⟨hu, hself.trans hconv⟩
    · rw [Place.definitions_outside, Table.find?_bind_self] at hx
      cases hx
      exact ⟨hB.links, hself⟩
  · have hx' : ((D.bind a B).find? x).map (·.body) = some body := by
      rcases hp with rfl | rfl
      · rw [Place.lookUp_eq, Place.definitions_whole, Table.find?_bind_of_ne hxa] at hx
        exact hx
      · exact hx
    obtain ⟨e, he, rfl⟩ := Option.map_eq_some_iff.mp hx'
    rw [Table.find?_bind_of_ne hxa] at he
    have he' : (D'.bind a B).find? x = some e := by
      rw [Table.find?_bind_of_ne hxa, hagree x (Table.mem_names he) hxa, he]
    exact (hD'.bind hB).conv_find? he'

/-- The whole body of a definition is as plain as what is outside. -/
theorem plain_whole {marked : Bool} {d : Table} (h : (Place.outside d).Plain marked)
    (a : String) : (Place.whole d a).Plain marked := by
  intro t ht x body hx
  by_cases hxa : x = a
  · rw [Place.lookUp_eq, hxa, Place.definitions_whole, Table.find?_bind_self] at hx
    cases hx
    exact ht
  · rw [Place.lookUp_eq, Place.definitions_whole, Table.find?_bind_of_ne hxa] at hx
    exact h t ht x body hx

end Definition

/-! ### Agreement -/

/-- What is left of an unmarked expression has no step, whatever the names mean. -/
theorem irreducible_of_reduce {s : Setting} {depth : Nat} {d : Table} {trail : Trail} {t r : Term}
    {p : Place} {e e' : Effects} (hd : d.WellScoped) (hdu : d.Unmarked) (ht : t.Scoped [])
    (htu : t.Unmarked) (h : reduce s depth ⟨.normal, .outside d, trail⟩ t e = .ok (r, p) e')
    {U : Unfolding String} (hU : ∀ {x u}, U x = some u → x ∈ d.names) (l : Option String)
    (v : Nameless String) : ¬ Step (BetaDelta U) (r.nameless []) l v := by
  have hrun := runs_of_reduce h
  have hdp := Table.plain_outside fun x hx => (hd x hx).links.plain_true
  have hsettled : r.Settled d.names :=
    hrun.settled d.offers_outside hdp ht.plain_true nofun trivial
  exact hsettled.irreducible (hrun.plain (hd.plain_false hdu) (ht.plain_false htu)).1 hU [] l v

/-- **A definition means the same before and after its reduction.**  Let the body `B`
of `a` be reduced to `B'`, in its place or outside of the definitions `D` that it is
bound in, and let `D'` be definitions that agree with `D` but for `a`.  When nothing is
recursive and nothing is executed, what an expression is reduced to with `a` bound to
`B` and with `a` bound to `B'` has the same outline.  As always, the supply of each
reduction lies above the keys in use. -/
theorem outline_eq_of_reduced_definition {D D' : Table} {a : String} {B B' t r₁ r₂ : Term}
    {s s₁ s₂ : Setting} {depth depth₁ depth₂ : Nat} {p q p₁ p₂ : Place}
    {trail trail₁ trail₂ : Trail} {e e' e₁ e₁' e₂ e₂' : Effects}
    (hD : D.WellScoped ∧ D.Unmarked) (hB : B.WellScoped ∧ B.Unmarked)
    (ht : t.WellScoped ∧ t.Unmarked) (hD' : D'.WellScoped ∧ D'.Unmarked)
    (hagree : ∀ x ∈ D.names, x ≠ a → D'.find? x = D.find? x)
    (hs : s.execute = false) (hs₁ : s₁.execute = false) (hs₂ : s₂.execute = false)
    (hkeys : ∀ b ∈ B.binders, b.key < e.next) (hkeys₁ : ∀ b ∈ t.binders, b.key < e₁.next)
    (hkeys₂ : ∀ b ∈ t.binders, b.key < e₂.next)
    (hp : p = .whole (D.bind a B) a ∨ p = .outside (D.bind a B))
    (h : reduce s depth ⟨.normal, p, trail⟩ B e = .ok (B', q) e')
    (h₁ : reduce s₁ depth₁ ⟨.normal, .outside (D'.bind a B), trail₁⟩ t e₁ = .ok (r₁, p₁) e₁')
    (h₂ : reduce s₂ depth₂ ⟨.normal, .outside (D'.bind a B'), trail₂⟩ t e₂ = .ok (r₂, p₂) e₂') :
    r₁.outline = r₂.outline := by
  have hnames : (D'.bind a B).names = (D'.bind a B').names := by
    rw [Table.names_bind, Table.names_bind]
  -- the two forms of the definition are convertible, and so are the two results
  obtain ⟨hB', hconv⟩ := conv_of_reduce hs hB.1 hkeys (means_definition hD'.1 hB.1 hagree hp) h
  obtain ⟨hr₁, hconv₁⟩ := conv_of_reduce hs₁ ht.1 hkeys₁
    (means_outside_bind hD'.1 hB.1 hB.1.links (.refl _) t) h₁
  obtain ⟨hr₂, hconv₂⟩ := conv_of_reduce hs₂ ht.1 hkeys₂
    (means_outside_bind hD'.1 hB.1 hB'.links hconv t) h₂
  -- both results are normal forms for the same meaning of the names
  have hplain : p.Plain false := by
    have houtside := (hD.1.bind (a := a) hB.1).plain_false (hD.2.bind hB.2)
    rcases hp with rfl | rfl
    · exact plain_whole houtside a
    · exact houtside
  have hB'u := ((runs_of_reduce h).plain hplain (hB.1.links.plain_false hB.2)).1.unmarked
  have hnormal₁ := irreducible_of_reduce (hD'.1.bind hB.1) (hD'.2.bind hB.2) ht.1.links ht.2 h₁
    Table.mem_names_of_unfolding
  have hnormal₂ := irreducible_of_reduce (hD'.1.bind hB') (hD'.2.bind hB'u) ht.1.links ht.2 h₂
    fun hx => hnames ▸ Table.mem_names_of_unfolding hx
  have heq := Nameless.eq_of_conv (hD'.1.bind hB.1).closed_unfolding (hconv₁.symm.trans hconv₂)
    hnormal₁ hnormal₂
  exact Term.outline_eq_of_nameless_eq hr₁ hr₂ heq

/-- `f` is `[y. id (late y)]` and is reduced to `[y. late y]` before `late` is defined.
Applied to `[w. w]`, both forms give `[w. w]`, with different binders. -/
theorem outline_eq_of_reduced_definition_late :
    let i : Nat → String → Term := fun k x => .lam ⟨k, false⟩ x (.ref x (.binder ⟨k, false⟩))
    let D : Table := ⟨[⟨"id", i 0 "x"⟩]⟩
    let D' : Table := ⟨[⟨"id", i 0 "x"⟩, ⟨"late", i 1 "z"⟩]⟩
    let y : Term := .app (.ref "late" .free) (.ref "y" (.binder ⟨2, false⟩))
    let B : Term := .lam ⟨2, false⟩ "y" (.app (.ref "id" .free) y)
    let B' : Term := .lam ⟨2, false⟩ "y" y
    let t : Term := .app (.ref "f" .free) (i 3 "w")
    let s : Setting := ⟨false, .standard, 10⟩
    let p : Place := .whole (D.bind "f" B) "f"
    reduce s 20 ⟨.normal, p, []⟩ B ⟨4, []⟩ = .ok (B', p) ⟨5, []⟩ ∧
      reduce s 20 ⟨.normal, .outside (D'.bind "f" B), []⟩ t ⟨4, []⟩
        = .ok (i 7 "w", .outside (D'.bind "f" B)) ⟨8, []⟩ ∧
      reduce s 20 ⟨.normal, .outside (D'.bind "f" B'), []⟩ t ⟨4, []⟩
        = .ok (i 6 "w", .outside (D'.bind "f" B')) ⟨7, []⟩ ∧
      (i 7 "w").outline = (i 6 "w").outline := by
  intro i D D' y B B' t s p
  have h : reduce s 20 ⟨.normal, p, []⟩ B ⟨4, []⟩ = .ok (B', p) ⟨5, []⟩ := rfl
  have h₁ : reduce s 20 ⟨.normal, .outside (D'.bind "f" B), []⟩ t ⟨4, []⟩
      = .ok (i 7 "w", .outside (D'.bind "f" B)) ⟨8, []⟩ := rfl
  have h₂ : reduce s 20 ⟨.normal, .outside (D'.bind "f" B'), []⟩ t ⟨4, []⟩
      = .ok (i 6 "w", .outside (D'.bind "f" B')) ⟨7, []⟩ := rfl
  refine ⟨h, h₁, h₂, ?_⟩
  exact outline_eq_of_reduced_definition (D := D) (by decide) (by decide) (by decide) (by decide)
    (by decide) rfl rfl rfl (by decide) (by decide) (by decide) (.inl rfl) h h₁ h₂

end LambdaScript
