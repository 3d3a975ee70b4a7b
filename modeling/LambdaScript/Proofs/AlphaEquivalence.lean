/-
LambdaScript/Proofs/AlphaEquivalence.lean

Comparison decides alpha-equivalence.

Two expressions are alpha-equivalent (`Term.AlphaEquiv`) when both are closed and
they read the same without binders, whatever the names of their arguments and the
marks of their functions.  Comparison knows nothing of numbers: it walks both
expressions side by side and remembers which functions have met, also when it has
left them, and it takes a pair in either order.

That the pairs of functions that have been left do no harm is an invariant of the
walk, `Meetings.Matching`.  All pairs ever met come from one list, the functions at
the same places of the two expressions (`Term.meetings`).  No function occurs twice
in an expression, so the list pairs a function with at most one other; and no pair
turned round pairs anything that another one does not.  The second is where it
matters that the expressions share no function or are one and the same.

Main result: `identical_decides`.
-/
import LambdaScript.Proofs.Uniqueness

namespace LambdaScript

namespace Nameless

variable {ν : Type}

/-- The expression without its labels and marks. -/
def form : Nameless ν → Nameless Unit
  | bound i _ => bound i ()
  | free x => free x
  | app f a => app f.form a.form
  | lam _ _ t => lam false () t.form

end Nameless

namespace Term

/-! ### Alpha-equivalence -/

/-- Every leaf is a reference that belongs to a function around it. -/
def Bound (Γ : List Binder) : Term → Prop
  | app f a => f.Bound Γ ∧ a.Bound Γ
  | lam b _ t => t.Bound (b :: Γ)
  | ref _ (.binder b) => b ∈ Γ
  | _ => False

/-- Both expressions are closed, and they read the same but for names and marks. -/
def AlphaEquiv (s t : Term) : Prop :=
  s.Bound [] ∧ t.Bound [] ∧ (s.nameless []).form = (t.nameless []).form

instance decidableBound (Γ : List Binder) : (t : Term) → Decidable (t.Bound Γ)
  | missing => isFalse id
  | foreign => isFalse id
  | app f a =>
    have := decidableBound Γ f
    have := decidableBound Γ a
    inferInstanceAs (Decidable (f.Bound Γ ∧ a.Bound Γ))
  | lam b _ t => decidableBound (b :: Γ) t
  | ref _ .free => isFalse id
  | ref _ (.binder b) => inferInstanceAs (Decidable (b ∈ Γ))
  | ref _ (.reference _ _) => isFalse id
  | ref _ .endless => isFalse id

instance decidableAlphaEquiv (s t : Term) : Decidable (s.AlphaEquiv t) :=
  inferInstanceAs (Decidable (_ ∧ _ ∧ _))

theorem AlphaEquiv.symm {s t : Term} (h : s.AlphaEquiv t) : t.AlphaEquiv s :=
  ⟨h.2.1, h.1, h.2.2.symm⟩

theorem AlphaEquiv.trans {s t u : Term} (h : s.AlphaEquiv t) (h' : t.AlphaEquiv u) :
    s.AlphaEquiv u :=
  ⟨h.1, h'.2.1, h.2.2.trans h'.2.2⟩

/-- Alpha-equivalence below functions that correspond as `P` says. -/
structure AlphaUnder (P : Meetings) (s t : Term) : Prop where
  left : s.Bound (P.map (·.1))
  right : t.Bound (P.map (·.2))
  form : (s.nameless (P.map (·.1))).form = (t.nameless (P.map (·.2))).form

theorem alphaUnder_nil {s t : Term} : AlphaUnder [] s t ↔ s.AlphaEquiv t :=
  ⟨fun h => ⟨h.left, h.right, h.form⟩, fun h => ⟨h.1, h.2.1, h.2.2⟩⟩

namespace AlphaUnder

variable {P : Meetings} {s t f a g b : Term} {x y : String} {k l : Binder}

theorem fn (h : AlphaUnder P (app f a) (app g b)) : AlphaUnder P f g :=
  ⟨h.left.1, h.right.1, (Nameless.app.inj h.form).1⟩

theorem arg (h : AlphaUnder P (app f a) (app g b)) : AlphaUnder P a b :=
  ⟨h.left.2, h.right.2, (Nameless.app.inj h.form).2⟩

theorem body (h : AlphaUnder P (lam k x s) (lam l y t)) : AlphaUnder ((k, l) :: P) s t :=
  ⟨h.left, h.right, (Nameless.lam.inj h.form).2.2⟩

theorem app (hf : AlphaUnder P f g) (ha : AlphaUnder P a b) :
    AlphaUnder P (.app f a) (.app g b) :=
  ⟨⟨hf.left, ha.left⟩, ⟨hf.right, ha.right⟩, congrArg₂ Nameless.app hf.form ha.form⟩

theorem lam (h : AlphaUnder ((k, l) :: P) s t) : AlphaUnder P (.lam k x s) (.lam l y t) :=
  ⟨h.left, h.right, congrArg (Nameless.lam false ()) h.form⟩

end AlphaUnder

/-! ### Expressions that can be compared -/

/-- Every leaf is a reference that is free, belongs to a function around it, or leads to a
function that is none of `F`. -/
def Ranging (F Γ : List Binder) : Term → Prop
  | app f a => f.Ranging F Γ ∧ a.Ranging F Γ
  | lam b _ t => t.Ranging F (b :: Γ)
  | ref _ .free => True
  | ref _ (.binder b) => b ∈ Γ ∨ b ∉ F
  | _ => False

/-- The expressions share no function or are the same, no function occurs twice in either,
and no reference leads into the other expression or to a function that is not around it. -/
structure Comparable (s t : Term) : Prop where
  left : s.Ranging (s.binders ++ t.binders) []
  right : t.Ranging (s.binders ++ t.binders) []
  nodup_left : s.binders.Nodup
  nodup_right : t.binders.Nodup
  apart : s.binders.Disjoint t.binders ∨ s = t

instance decidableRanging (F Γ : List Binder) : (t : Term) → Decidable (t.Ranging F Γ)
  | missing => isFalse id
  | foreign => isFalse id
  | app f a =>
    have := decidableRanging F Γ f
    have := decidableRanging F Γ a
    inferInstanceAs (Decidable (f.Ranging F Γ ∧ a.Ranging F Γ))
  | lam b _ t => decidableRanging F (b :: Γ) t
  | ref _ .free => isTrue trivial
  | ref _ (.binder b) => inferInstanceAs (Decidable (b ∈ Γ ∨ b ∉ F))
  | ref _ (.reference _ _) => isFalse id
  | ref _ .endless => isFalse id

instance decidableComparable (s t : Term) : Decidable (s.Comparable t) :=
  decidable_of_iff (s.Ranging (s.binders ++ t.binders) [] ∧ t.Ranging (s.binders ++ t.binders) [] ∧
      s.binders.Nodup ∧ t.binders.Nodup ∧ ((∀ b ∈ s.binders, b ∉ t.binders) ∨ s = t))
    ⟨fun ⟨h₁, h₂, h₃, h₄, h₅⟩ => ⟨h₁, h₂, h₃, h₄, h₅⟩,
      fun ⟨h₁, h₂, h₃, h₄, h₅⟩ => ⟨h₁, h₂, h₃, h₄, h₅⟩⟩

theorem Ranging.plain {t : Term} {F Γ : List Binder} (h : t.Ranging F Γ) : t.Plain true := by
  induction t generalizing Γ with
  | missing => exact h
  | foreign => exact h
  | app f a ihf iha => exact ⟨ihf h.1, iha h.2⟩
  | lam b x t ih => exact ⟨fun _ => rfl, ih (Γ := b :: Γ) h⟩
  | ref x l =>
    cases l with
    | free => trivial
    | binder b => exact fun _ => rfl
    | reference k own => exact h
    | endless => exact h

theorem Ranging.congr {t : Term} {F G Γ : List Binder} (h : t.Ranging F Γ)
    (hG : ∀ b ∈ G, b ∈ F) : t.Ranging G Γ := by
  induction t generalizing Γ with
  | missing => exact h
  | foreign => exact h
  | app f a ihf iha => exact ⟨ihf h.1, iha h.2⟩
  | lam b x t ih => exact ih (Γ := b :: Γ) h
  | ref x l =>
    cases l with
    | free => trivial
    | binder b => exact h.imp_right fun hF hb => hF (hG b hb)
    | reference k own => exact h
    | endless => exact h

theorem Bound.ranging {t : Term} {Γ : List Binder} (h : t.Bound Γ) (F : List Binder) :
    t.Ranging F Γ := by
  induction t generalizing Γ with
  | missing => exact h
  | foreign => exact h
  | app f a ihf iha => exact ⟨ihf h.1, iha h.2⟩
  | lam b x t ih => exact ih (Γ := b :: Γ) h
  | ref x l =>
    cases l with
    | free => exact h.elim
    | binder b => exact .inl h
    | reference k own => exact h
    | endless => exact h

theorem Comparable.symm {s t : Term} (h : Comparable s t) : Comparable t s := by
  have hswap : ∀ b ∈ t.binders ++ s.binders, b ∈ s.binders ++ t.binders := fun b hb =>
    List.mem_append.mpr (List.mem_append.mp hb).symm
  exact ⟨h.right.congr hswap, h.left.congr hswap, h.nodup_right, h.nodup_left,
    h.apart.imp List.disjoint_symm Eq.symm⟩

/-! ### Functions that meet -/

/-- The functions at the same places of two expressions, as far as these have the same
shape. -/
def meetings : Term → Term → Meetings
  | lam a _ s, lam b _ t => (a, b) :: s.meetings t
  | app f a, app g b => f.meetings g ++ a.meetings b
  | _, _ => []

theorem meetings_fst (s t : Term) : ((s.meetings t).map (·.1)).Sublist s.binders := by
  fun_induction meetings s t with
  | case1 a _ s b _ t ih => exact ih.cons_cons a
  | case2 f a g b ihf iha =>
    rw [List.map_append]
    exact ihf.append iha
  | case3 => exact List.nil_sublist _

theorem meetings_snd (s t : Term) : ((s.meetings t).map (·.2)).Sublist t.binders := by
  fun_induction meetings s t with
  | case1 a _ s b _ t ih => exact ih.cons_cons b
  | case2 f a g b ihf iha =>
    rw [List.map_append]
    exact ihf.append iha
  | case3 => exact List.nil_sublist _

/-- In an expression and itself, every function meets itself. -/
theorem eq_of_mem_meetings_self {t : Term} {p : Binder × Binder} (hp : p ∈ t.meetings t) :
    p.1 = p.2 := by
  induction t with
  | missing => cases hp
  | foreign => cases hp
  | ref x l => cases hp
  | lam b x t ih =>
    rcases List.mem_cons.mp hp with rfl | hp
    · rfl
    · exact ih hp
  | app f a ihf iha =>
    rcases List.mem_append.mp hp with hp | hp
    · exact ihf hp
    · exact iha hp

end Term

namespace Meetings

/-- Functions of `F` are paired, each with at most one on the other side, and a pair turned
round is a pair. -/
structure Matching (F : List Binder) (M : Meetings) : Prop where
  within : ∀ {k l}, (k, l) ∈ M → k ∈ F ∧ l ∈ F
  left : ∀ {k l l'}, (k, l) ∈ M → (k, l') ∈ M → l = l'
  right : ∀ {k k' l}, (k, l) ∈ M → (k', l) ∈ M → k = k'
  turned : ∀ {k l m}, (k, l) ∈ M → (m, k) ∈ M → m = k

variable {F : List Binder} {M P met : Meetings} {k l : Binder}

/-- Functions that correspond have the same number. -/
theorem Matching.idxOf_eq (hM : M.Matching F) (hP : P ⊆ M) (h : (k, l) ∈ P) :
    (P.map (·.1)).idxOf k = (P.map (·.2)).idxOf l := by
  induction P with
  | nil => cases h
  | cons p P ih =>
    obtain ⟨k', l'⟩ := p
    have hfirst : (k', l') ∈ M := hP List.mem_cons_self
    rw [List.map_cons, List.map_cons]
    by_cases hk : k' = k
    · -- the first pair has `k`, so it has `l` as well
      subst hk
      rw [hM.left hfirst (hP h), List.idxOf_cons_self, List.idxOf_cons_self]
    · have hl : l' ≠ l := by
        rintro rfl
        exact hk (hM.right hfirst (hP h))
      have hrest : (k, l) ∈ P := by
        rcases List.mem_cons.mp h with heq | hrest
        · exact absurd (congrArg Prod.fst heq).symm hk
        · exact hrest
      rw [List.idxOf_cons_ne _ hk, List.idxOf_cons_ne _ hl,
        ih (fun _ hp => hP (List.mem_cons_of_mem _ hp)) hrest]

theorem agree_binder : met.agree (.binder k) (.binder l) = true ↔ (k, l) ∈ met ∨ (l, k) ∈ met := by
  simp [agree]

theorem eq_binder_of_agree {a b : Link} (h : met.agree a b = true) :
    ∃ k l, a = .binder k ∧ b = .binder l := by
  cases a with
  | binder k =>
    cases b with
    | binder l => exact ⟨k, l, rfl, rfl⟩
    | _ => cases h
  | _ => cases h

/-- References that agree belong to functions around them that correspond, when they do not
lead to other functions of the two expressions. -/
theorem Matching.mem_of_agree (hM : M.Matching F) (hP : P ⊆ M) (hmet : met ⊆ M)
    (hk : k ∈ P.map (·.1) ∨ k ∉ F) (h : met.agree (.binder k) (.binder l) = true) :
    (k, l) ∈ P := by
  have hmem := agree_binder.mp h
  -- whoever has met somebody is a function of the expressions, so `k` is around
  have hkF : k ∈ F := by
    rcases hmem with hkl | hlk
    · exact (hM.within (hmet hkl)).1
    · exact (hM.within (hmet hlk)).2
  obtain ⟨⟨k', l'⟩, hp, rfl⟩ := List.mem_map.mp (hk.resolve_right fun hnot => hnot hkF)
  have hpair : (k', l) ∈ M := by
    rcases hmem with hkl | hlk
    · exact hmet hkl
    · have heq : l = k' := hM.turned (hP hp) (hmet hlk)
      have hself := hmet hlk
      rw [heq] at hself ⊢
      exact hself
  rwa [hM.left hpair (hP hp)]

end Meetings

namespace Term

theorem Comparable.matching {s t : Term} (h : Comparable s t) :
    (s.meetings t).Matching (s.binders ++ t.binders) := by
  have hfst : ∀ {k l}, (k, l) ∈ s.meetings t → k ∈ s.binders := fun hp =>
    (meetings_fst s t).subset (List.mem_map_of_mem (f := (·.1)) hp)
  have hsnd : ∀ {k l}, (k, l) ∈ s.meetings t → l ∈ t.binders := fun hp =>
    (meetings_snd s t).subset (List.mem_map_of_mem (f := (·.2)) hp)
  refine ⟨?_, ?_, ?_, ?_⟩
  · intro k l hp
    exact ⟨List.mem_append_left _ (hfst hp), List.mem_append_right _ (hsnd hp)⟩
  · intro k l l' hp hp'
    have heq := List.inj_on_of_nodup_map ((meetings_fst s t).nodup h.nodup_left) hp hp' rfl
    exact congrArg Prod.snd heq
  · intro k k' l hp hp'
    have heq := List.inj_on_of_nodup_map ((meetings_snd s t).nodup h.nodup_right) hp hp' rfl
    exact congrArg Prod.fst heq
  · intro k l m hp hturned
    rcases h.apart with hdisjoint | rfl
    · exact absurd (hsnd hturned) (hdisjoint (hfst hp))
    · exact eq_of_mem_meetings_self hturned

/-! ### The walk -/

variable {F : List Binder} {M P met met' : Meetings} {s t : Term} {same : Bool}

/-- The walk through two applications: the right sides are looked at when the left sides are
the same. -/
theorem compare_app_eq_ok {f a g b : Term}
    (h : (app f a).compare met (app g b) = .ok (same, met')) :
    (same = false ∧ f.compare met g = .ok (false, met')) ∨
      ∃ met₁, f.compare met g = .ok (true, met₁) ∧ a.compare met₁ b = .ok (same, met') := by
  rw [compare] at h
  rcases hf : f.compare met g with fault | ⟨same₁, met₁⟩
  · rw [hf] at h
    cases h
  · rw [hf] at h
    cases same₁ with
    | false =>
      cases h
      exact .inl ⟨rfl, rfl⟩
    | true => exact .inr ⟨met₁, rfl, h⟩

/-- The walk forgets no meeting, and adds only functions at the same places. -/
theorem subset_of_compare (h : s.compare met t = .ok (same, met')) :
    met ⊆ met' ∧ met' ⊆ s.meetings t ++ met := by
  induction s generalizing t met met' same with
  | missing => cases t <;> cases h <;> exact ⟨List.Subset.refl _, List.Subset.refl _⟩
  | foreign => cases t <;> cases h <;> exact ⟨List.Subset.refl _, List.Subset.refl _⟩
  | ref x k => cases t <;> cases h <;> exact ⟨List.Subset.refl _, List.Subset.refl _⟩
  | lam k x s ih =>
    cases t with
    | lam l y t =>
      have hbody : s.compare ((k, l) :: met) t = .ok (same, met') := h
      obtain ⟨hkept, hnew⟩ := ih hbody
      refine ⟨fun p hp => hkept (List.mem_cons_of_mem _ hp), fun p hp => ?_⟩
      rcases List.mem_append.mp (hnew hp) with hp | hp
      · exact List.mem_cons_of_mem _ (List.mem_append_left _ hp)
      · rcases List.mem_cons.mp hp with rfl | hp
        · exact List.mem_cons_self
        · exact List.mem_cons_of_mem _ (List.mem_append_right _ hp)
    | _ => cases h; exact ⟨List.Subset.refl _, List.Subset.refl _⟩
  | app f a ihf iha =>
    cases t with
    | app g b =>
      rcases compare_app_eq_ok h with ⟨-, hf⟩ | ⟨met₁, hf, ha⟩
      · obtain ⟨hkept, hnew⟩ := ihf hf
        refine ⟨hkept, fun p hp => ?_⟩
        rcases List.mem_append.mp (hnew hp) with hp | hp
        · exact List.mem_append_left _ (List.mem_append_left _ hp)
        · exact List.mem_append_right _ hp
      · obtain ⟨hkept, hnew⟩ := ihf hf
        obtain ⟨hkept', hnew'⟩ := iha ha
        refine ⟨fun p hp => hkept' (hkept hp), fun p hp => ?_⟩
        rw [meetings, List.append_assoc]
        rcases List.mem_append.mp (hnew' hp) with hp | hp
        · exact List.mem_append_right _ (List.mem_append_left _ hp)
        · rcases List.mem_append.mp (hnew hp) with hp | hp
          · exact List.mem_append_left _ hp
          · exact List.mem_append_right _ (List.mem_append_right _ hp)
    | _ => cases h; exact ⟨List.Subset.refl _, List.Subset.refl _⟩

/-- What the walk finds to be the same is alpha-equivalent.  All meetings are from the
matching `M`, and those of the functions around, `P`, are among them. -/
theorem alphaUnder_of_compare (hM : M.Matching F) (hP : P ⊆ met) (hmet : met ⊆ M)
    (hmeet : s.meetings t ⊆ M) (hs : s.Ranging F (P.map (·.1))) (ht : t.Ranging F (P.map (·.2)))
    (h : s.compare met t = .ok (true, met')) : AlphaUnder P s t := by
  induction s generalizing t P met met' with
  | missing => exact hs.elim
  | foreign => exact hs.elim
  | lam k x s ih =>
    cases t with
    | lam l y t =>
      have hpair : (k, l) ∈ M := hmeet List.mem_cons_self
      have hP' : (k, l) :: P ⊆ (k, l) :: met := List.cons_subset_cons _ hP
      have hmet' : (k, l) :: met ⊆ M := List.cons_subset.mpr ⟨hpair, hmet⟩
      have hmeet' : s.meetings t ⊆ M := fun p hp => hmeet (List.mem_cons_of_mem _ hp)
      exact (ih hP' hmet' hmeet' hs ht h).lam
    | _ => cases h
  | app f a ihf iha =>
    cases t with
    | app g b =>
      rcases compare_app_eq_ok h with ⟨hsame, -⟩ | ⟨met₁, hf, ha⟩
      · cases hsame
      · obtain ⟨hkept, hnew⟩ := subset_of_compare hf
        have hmeetf : f.meetings g ⊆ M := fun p hp => hmeet (List.mem_append_left _ hp)
        have hmeeta : a.meetings b ⊆ M := fun p hp => hmeet (List.mem_append_right _ hp)
        -- the meetings of the left sides are still there, but they are pairs of `M`
        have hmet₁ : met₁ ⊆ M := fun p hp =>
          (List.mem_append.mp (hnew hp)).elim (fun h => hmeetf h) fun h => hmet h
        exact (ihf hP hmet hmeetf hs.1 ht.1 hf).app
          (iha (List.Subset.trans hP hkept) hmet₁ hmeeta hs.2 ht.2 ha)
    | _ => cases h
  | ref x a =>
    cases t with
    | ref y b =>
      have hagree : met.agree a b = true := congrArg Prod.fst (Except.ok.inj h)
      obtain ⟨k, l, rfl, rfl⟩ := Meetings.eq_binder_of_agree hagree
      have hPM : P ⊆ M := List.Subset.trans hP hmet
      have hkl := hM.mem_of_agree hPM hmet hs hagree
      exact ⟨List.mem_map_of_mem (f := (·.1)) hkl, List.mem_map_of_mem (f := (·.2)) hkl,
        congrArg (Nameless.bound · ()) (hM.idxOf_eq hPM hkl)⟩
    | _ => cases h

/-- The walk finds alpha-equivalent expressions to be the same, whatever functions have met
besides those around. -/
theorem compare_of_alphaUnder (h : AlphaUnder P s t) (hP : P ⊆ met) :
    ∃ met', s.compare met t = .ok (true, met') := by
  induction s generalizing t P met with
  | missing => exact h.left.elim
  | foreign => exact h.left.elim
  | lam k x s ih =>
    cases t with
    | missing => exact h.right.elim
    | foreign => exact h.right.elim
    | app g b => cases h.form
    | ref y l => cases l <;> cases h.form
    | lam l y t => exact ih h.body (List.cons_subset_cons (k, l) hP)
  | app f a ihf iha =>
    cases t with
    | missing => exact h.right.elim
    | foreign => exact h.right.elim
    | lam l y t => cases h.form
    | ref y l => cases l <;> cases h.form
    | app g b =>
      obtain ⟨met₁, hf⟩ := ihf h.fn hP
      obtain ⟨met₂, ha⟩ := iha h.arg (List.Subset.trans hP (subset_of_compare hf).1)
      refine ⟨met₂, ?_⟩
      rw [compare, hf]
      exact ha
  | ref x a =>
    cases a with
    | free => exact h.left.elim
    | reference key own => exact h.left.elim
    | endless => exact h.left.elim
    | binder k =>
      cases t with
      | missing => exact h.right.elim
      | foreign => exact h.right.elim
      | app g b => cases h.form
      | lam l y t => cases h.form
      | ref y b =>
        cases b with
        | free => exact h.right.elim
        | reference key own => exact h.right.elim
        | endless => exact h.right.elim
        | binder l =>
          have hkl := mem_of_idxOf_eq h.left (Nameless.bound.inj h.form).1
          refine ⟨met, ?_⟩
          rw [compare, Meetings.agree_binder.mpr (.inl (hP hkl))]

/-! ### Whole expressions -/

theorem identical_of_alphaEquiv (h : s.AlphaEquiv t) : s.identical t = .ok true := by
  obtain ⟨met', hcompare⟩ := compare_of_alphaUnder (alphaUnder_nil.mpr h) (List.Subset.refl [])
  rw [identical, hcompare]
  rfl

/-- Expressions that can be compared are found to be the same exactly if they are
alpha-equivalent. -/
theorem Comparable.identical_eq (h : Comparable s t) :
    s.identical t = .ok (decide (s.AlphaEquiv t)) := by
  obtain ⟨⟨same, met'⟩, hcompare⟩ := h.left.plain.compare_eq [] t
  cases same with
  | true =>
    have halpha : s.AlphaEquiv t := alphaUnder_nil.mp <|
      alphaUnder_of_compare h.matching (List.Subset.refl []) (List.nil_subset _)
        (List.Subset.refl _) h.left h.right hcompare
    rw [identical, hcompare, decide_eq_true halpha]
    rfl
  | false =>
    have hnot : ¬ s.AlphaEquiv t := by
      intro halpha
      have htrue := identical_of_alphaEquiv halpha
      rw [identical, hcompare] at htrue
      cases htrue
    rw [identical, hcompare, decide_eq_false hnot]
    rfl

end Term

/-- The definitions that are found are those with an alpha-equivalent body. -/
theorem Table.identicalIn_eq {t : Term} {l : List Definition}
    (h : ∀ e ∈ l, t.Comparable e.body) :
    identicalIn t l = .ok (l.filter fun e => t.AlphaEquiv e.body) := by
  induction l with
  | nil => rfl
  | cons e rest ih =>
    rw [identicalIn, (h e List.mem_cons_self).identical_eq,
      ih fun e' he' => h e' (List.mem_cons_of_mem _ he'), List.filter_cons]
    rfl

/-- **Comparison decides alpha-equivalence of closed expressions.**  Let two expressions
share no function or be the same, let no function occur twice in either, and let every
reference be free, belong to a function around it, or lead out of both.  Comparing them never
fails, and they are found to be the same exactly if both are closed and they read the same but
for names and marks.  Hence comparison is symmetric and transitive, an expression is the same
as itself exactly if it is closed, and the definitions that are found for an expression are
those with an alpha-equivalent body, in the order of the table. -/
theorem identical_decides :
    (∀ {s t : Term}, s.Comparable t → s.identical t = .ok (decide (s.AlphaEquiv t))) ∧
    (∀ {s t : Term}, s.Comparable t → s.identical t = t.identical s) ∧
    (∀ {s t u : Term}, s.Comparable t → t.Comparable u → s.identical t = .ok true →
      t.identical u = .ok true → s.identical u = .ok true) ∧
    (∀ {t : Term}, t.Comparable t → (t.identical t = .ok true ↔ t.Bound [])) ∧
    ∀ {t : Term} {d : Table}, (∀ e ∈ d.toList, t.Comparable e.body) →
      d.identicalTo t = .ok (d.toList.filter fun e => t.AlphaEquiv e.body) := by
  have halpha : ∀ {s t : Term}, s.Comparable t → s.identical t = .ok true → s.AlphaEquiv t := by
    intro s t h heq
    rw [h.identical_eq] at heq
    exact of_decide_eq_true (Except.ok.inj heq)
  refine ⟨fun h => h.identical_eq, ?_, ?_, ?_, fun h => Table.identicalIn_eq h⟩
  · intro s t h
    rw [h.identical_eq, h.symm.identical_eq]
    exact congrArg Except.ok (decide_eq_decide.mpr ⟨fun h => h.symm, fun h => h.symm⟩)
  · intro s t u hst htu h h'
    exact Term.identical_of_alphaEquiv ((halpha hst h).trans (halpha htu h'))
  · intro t h
    exact ⟨fun heq => (halpha h heq).1, fun hb => Term.identical_of_alphaEquiv ⟨hb, hb, rfl⟩⟩

/-- `[i. i] [y w. y w]` is compared with three definitions.  In the first, the functions of the
second factor meet in the right order and are referred to in the wrong one, in the second they
bear other names and a mark, and the third leads out. -/
theorem identical_decides_definitions :
    let x (n : Nat) (marked : Bool) : Term := .ref "x" (.binder ⟨n, marked⟩)
    let t (n : Nat) (y : String) (marked : Bool) (body : Term) : Term :=
      .app (.lam ⟨n, false⟩ "i" (x n false)) (.lam ⟨n + 1, marked⟩ y (.lam ⟨n + 2, false⟩ "w" body))
    let s : Term := t 0 "y" false (.app (x 1 false) (x 2 false))
    let d : Table := ⟨[⟨"a", t 3 "y" false (.app (x 5 false) (x 4 false))⟩,
      ⟨"b", t 6 "v" true (.app (x 7 true) (x 8 false))⟩, ⟨"c", .app (x 20 false) (.ref "q" .free)⟩]⟩
    (∀ e ∈ d.toList, s.Comparable e.body) ∧
      d.identicalTo s = .ok [⟨"b", t 6 "v" true (.app (x 7 true) (x 8 false))⟩] := by
  intro x t s d
  have hd : ∀ e ∈ d.toList, s.Comparable e.body := by decide
  exact ⟨hd, identical_decides.2.2.2.2 hd⟩

end LambdaScript
