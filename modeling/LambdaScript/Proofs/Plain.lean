/-
LambdaScript/Proofs/Plain.lean

Plain expressions.

An expression is plain when it is made of applications, functions and references
that are free or belong to a function; `Plain false` asks in addition that no
function is recursive.  Well-scoped expressions are plain, and to be plain needs
nothing to be said about which functions lie around or occur twice.  So it
survives every reduction (`Runs.plain`).

Questions about plain expressions have answers: their recursive mark
(`Plain.isRecursive_eq`), whether two are the same (`Plain.compare_eq`), and what
line announces one (`Plain.announce_eq`).
-/
import LambdaScript.Proofs.Runs
import LambdaScript.Proofs.Scope

namespace LambdaScript

namespace Term

/-- Made of applications, functions and references that are free or belong to a
function.  With `marked` set, functions may be recursive. -/
def Plain (marked : Bool) : Term → Prop
  | missing => False
  | foreign => False
  | app f a => f.Plain marked ∧ a.Plain marked
  | lam b _ t => (b.recursive = true → marked = true) ∧ t.Plain marked
  | ref _ .free => True
  | ref _ (.binder b) => b.recursive = true → marked = true
  | ref _ _ => False

/-- Scoped expressions are plain. -/
theorem Scoped.plain {marked : Bool} {t : Term} {Γ : List Binder} (h : t.Scoped Γ)
    (hΓ : ∀ b ∈ Γ, b.recursive = true → marked = true)
    (ht : ∀ b ∈ t.binders, b.recursive = true → marked = true) : t.Plain marked := by
  induction t generalizing Γ with
  | missing => exact h
  | foreign => exact h
  | app f a ihf iha =>
    exact ⟨ihf h.1 hΓ fun b hb => ht b (List.mem_append_left _ hb),
      iha h.2 hΓ fun b hb => ht b (List.mem_append_right _ hb)⟩
  | lam b x t ih =>
    have hb := ht b List.mem_cons_self
    refine ⟨hb, ih (Γ := b :: Γ) h ?_ fun c hc => ht c (List.mem_cons_of_mem _ hc)⟩
    intro c hc
    rcases List.mem_cons.mp hc with rfl | hc
    · exact hb
    · exact hΓ c hc
  | ref x l =>
    cases l with
    | free => trivial
    | binder b => exact hΓ b h
    | reference k own => exact h
    | endless => exact h

namespace Plain

variable {marked : Bool} {s t : Term}

/-! ### Copies and substitution -/

theorem copyUnder {copies : Renaming} (h : t.Plain marked)
    (hcopies : ∀ p ∈ copies, p.2.recursive = p.1.recursive) (next : Nat) :
    (t.copyUnder copies next).1.Plain marked := by
  induction t generalizing copies next with
  | missing => exact h
  | foreign => exact h
  | app f a ihf iha => exact ⟨ihf h.1 hcopies _, iha h.2 hcopies _⟩
  | lam b x t ih =>
    refine ⟨h.1, ih h.2 ?_ _⟩
    intro p hp
    rcases List.mem_cons.mp hp with rfl | hp
    · rfl
    · exact hcopies p hp
  | ref x l =>
    cases l with
    | free => trivial
    | binder b =>
      -- the link leads to the copy of `b`, which has the mark of `b`, or to `b` itself
      show ((copies.lookup b).getD b).recursive = true → marked = true
      rcases hb : copies.lookup b with - | b'
      · exact h
      · obtain ⟨l₁, l₂, rfl, -⟩ := List.lookup_eq_some_iff.mp hb
        have hmark : b'.recursive = b.recursive :=
          hcopies (b, b') (List.mem_append_right _ List.mem_cons_self)
        rw [Option.getD_some, hmark]
        exact h
    | reference k own => exact h
    | endless => exact h

theorem copy (h : t.Plain marked) (next : Nat) : (t.copy next).1.Plain marked :=
  h.copyUnder (fun _ hp => absurd hp List.not_mem_nil) next

theorem subst {arg : Term} (h : t.Plain marked) (harg : arg.Plain marked) (b : Binder)
    (next : Nat) : (t.subst b arg next).1.Plain marked := by
  induction t generalizing next with
  | missing => exact h
  | foreign => exact h
  | app f a ihf iha => exact ⟨ihf h.1 _, iha h.2 _⟩
  | lam c x t ih => exact ⟨h.1, ih h.2 _⟩
  | ref x l =>
    rw [Term.subst]
    split
    · exact harg.copy next
    · exact h

theorem identity (next : Nat) : (Term.identity next).1.Plain marked :=
  ⟨nofun, nofun⟩

/-- The application of a plain expression is looked at. -/
theorem stays_app {a : Term} (h : t.Plain marked) : (app t a).stays = false := by
  cases t with
  | missing => exact h.elim
  | _ => rfl

/-! ### Questions -/

theorem isRecursive_app {f a : Term} (hf : f.Plain marked) (ha : a.Plain marked) :
    (app f a).isRecursive = (do if ← f.isRecursive then a.isRecursive else return false) := by
  cases a with
  | missing => exact ha.elim
  | _ =>
    cases f with
    | missing => exact hf.elim
    | _ => rfl

/-- A plain expression has a recursive mark. -/
theorem isRecursive_eq (h : t.Plain marked) :
    ∃ r, t.isRecursive = .ok r ∧ (r = true → marked = true) := by
  induction t with
  | missing => exact h.elim
  | foreign => exact h.elim
  | lam b x t ih => exact ⟨_, rfl, h.1⟩
  | ref x l =>
    cases l with
    | free => exact ⟨_, rfl, nofun⟩
    | binder b => exact ⟨_, rfl, h⟩
    | reference k own => exact h.elim
    | endless => exact h.elim
  | app f a ihf iha =>
    obtain ⟨rf, hrf, -⟩ := ihf h.1
    rw [isRecursive_app h.1 h.2, hrf]
    cases rf with
    | false => exact ⟨false, rfl, nofun⟩
    | true => exact iha h.2

/-- An expression without recursive functions is not recursive. -/
theorem isRecursive_eq_false (h : t.Plain false) : t.isRecursive = .ok false := by
  obtain ⟨r, hr, hmarked⟩ := h.isRecursive_eq
  cases r with
  | false => exact hr
  | true => cases hmarked rfl

/-- A plain expression can be compared with anything. -/
theorem compare_eq (h : s.Plain marked) (met : Meetings) (t : Term) :
    ∃ result, s.compare met t = .ok result := by
  induction s generalizing met t with
  | missing => exact h.elim
  | foreign => exact h.elim
  | lam b x s ih =>
    cases t with
    | lam c y t => exact ih h.2 _ t
    | _ => exact ⟨_, rfl⟩
  | ref x l => cases t <;> exact ⟨_, rfl⟩
  | app f a ihf iha =>
    cases t with
    | app g b =>
      obtain ⟨⟨same, met'⟩, hf⟩ := ihf h.1 met g
      rw [Term.compare, hf]
      cases same with
      | false => exact ⟨_, rfl⟩
      | true => exact iha h.2 met' b
    | _ => exact ⟨_, rfl⟩

theorem identicalIn_eq (h : t.Plain marked) (l : List Definition) :
    ∃ found, Table.identicalIn t l = .ok found := by
  induction l with
  | nil => exact ⟨[], rfl⟩
  | cons e rest ih =>
    obtain ⟨result, hcompare⟩ := h.compare_eq [] e.body
    obtain ⟨found, hfound⟩ := ih
    rw [Table.identicalIn, Term.identical, hcompare, hfound]
    exact ⟨_, rfl⟩

theorem hasKnot_eq_false (h : t.Plain marked) : t.hasKnot = false := by
  induction t with
  | missing => exact h.elim
  | foreign => exact h.elim
  | lam b x t ih => exact ih h.2
  | app f a ihf iha => rw [hasKnot, ihf h.1, iha h.2, Bool.or_false]
  | ref x l =>
    cases l with
    | free => rfl
    | binder b => rfl
    | reference k own => exact h.elim
    | endless => exact h.elim

/-- A plain expression can be announced. -/
theorem announce_eq (h : t.Plain marked) (d : Table) (display : Display) :
    ∃ line, d.announce display t = .ok line := by
  obtain ⟨found, hfound⟩ := h.identicalIn_eq d.toList
  rw [Table.announce, Table.identicalTo, hfound, print?, printIn?, h.hasKnot_eq_false]
  exact ⟨_, rfl⟩

end Plain

end Term

/-! ### Reduction -/

/-- What is found at the place is plain, as long as the place holds something plain. -/
def Place.Plain (marked : Bool) (p : Place) : Prop :=
  ∀ t : Term, t.Plain marked → ∀ x body, p.lookUp t x = some body → body.Plain marked

namespace Place.Plain

variable {marked : Bool} {p : Place} {t : Term}

theorem leave (h : p.Plain marked) (ht : t.Plain marked) : (p.leave t).Plain marked := by
  intro _ _ x body hx
  rw [Place.lookUp_eq, Place.definitions_leave, ← Place.lookUp_eq] at hx
  exact h t ht x body hx

theorem down (h : p.Plain marked) {f : Frame}
    (hf : ∀ u : Term, u.Plain marked → (f.plug u).Plain marked) : (p.down f).Plain marked := by
  intro u hu x body hx
  rw [Place.lookUp_eq, Place.definitions_down, ← Place.lookUp_eq] at hx
  exact h _ (hf u hu) x body hx

theorem fn {a : Term} (h : p.Plain marked) (ha : a.Plain marked) :
    (p.down (.function a)).Plain marked :=
  h.down fun _ hu => ⟨hu, ha⟩

theorem arg {f : Term} (h : p.Plain marked) (hf : f.Plain marked) :
    (p.down (.argument f)).Plain marked :=
  h.down fun _ hu => ⟨hf, hu⟩

theorem body {b : Binder} {x : String} (h : p.Plain marked) (ht : (Term.lam b x t).Plain marked) :
    (p.down (.body b x)).Plain marked :=
  h.down fun _ hu => ⟨ht.1, hu⟩

theorem afterBeta {c : Circumstance} {b : Binder} {x : String} {a : Term}
    (h : c.place.Plain marked) (ht : (Term.app (.lam b x t) a).Plain marked) :
    (c.afterBeta b x t a).place.Plain marked := by
  show Place.Plain marked (if t.isArgumentOf b then _ else _)
  split
  · exact h.leave ht
  · exact (h.fn ht.2).body ht.1

end Place.Plain

/-- A run makes plain expressions of plain expressions. -/
theorem Runs.plain {s : Setting} {task : Task} {c : Circumstance} {t : Term} {e e' : Effects}
    {r : Placed} (h : Runs s task c t e r e') {marked : Bool} (hc : c.place.Plain marked)
    (ht : t.Plain marked) : r.1.Plain marked ∧ r.2.Plain marked := by
  induction h with
  | stay _ => exact ⟨ht, hc⟩
  | unbound _ => exact ⟨ht, hc⟩
  | @unfold c x body e r e' hbody _ ih =>
    exact ih (hc.leave ht) ((hc _ ht x body hbody).copy e.next)
  | lam _ ih => exact ⟨⟨ht.1, (ih (hc.body ht) ht.2).1⟩, hc⟩
  | app _ _ _ _ ihf iha ih =>
    have hf := (ihf (hc.fn ht.2) ht.1).1
    have ha := (iha (hc.arg hf) ht.2).1
    exact ih hc ⟨hf, ha⟩
  | held _ => exact ⟨ht, hc⟩
  | contract _ _ _ ih => exact ih hc ht
  | recur _ _ _ _ ih₁ ih₂ ih₃ =>
    have h₁ := ih₁ hc ht
    have h₂ := ih₂ h₁.2 h₁.1
    exact ih₃ h₂.2 h₂.1
  | beta _ ih => exact ih (hc.afterBeta ht) (ht.1.2.subst ht.2 _ _)
  | act _ _ _ => exact ⟨.identity _, hc.leave ht⟩
  | ignored _ => exact ⟨ht, hc⟩
  | rest _ => exact ⟨ht, hc⟩
  | inner _ _ _ ih₁ ih₂ => exact ih₂ hc ⟨(ih₁ (hc.fn ht.2) ht.1).1, ht.2⟩
  | outer _ _ _ ih₁ ih₂ =>
    have h₁ := ih₁ hc ht
    exact ih₂ h₁.2 h₁.1

/-! ### Tables -/

namespace Term

/-- No function is recursive. -/
def Unmarked (t : Term) : Prop :=
  ∀ b ∈ t.binders, b.recursive = false

instance decidableUnmarked (t : Term) : Decidable t.Unmarked :=
  inferInstanceAs (Decidable (∀ b ∈ t.binders, b.recursive = false))

/-- A scoped expression is plain. -/
theorem Scoped.plain_true {t : Term} {Γ : List Binder} (h : t.Scoped Γ) : t.Plain true :=
  h.plain (fun _ _ _ => rfl) fun _ _ _ => rfl

/-- A scoped expression without recursive functions is plain without them. -/
theorem Scoped.plain_false {t : Term} (h : t.Scoped []) (ht : t.Unmarked) : t.Plain false :=
  h.plain (fun _ hb => absurd hb List.not_mem_nil) fun b hb hr => (ht b hb).symm.trans hr

/-- What is plain without recursive functions has none. -/
theorem Plain.unmarked {t : Term} (h : t.Plain false) : t.Unmarked := by
  induction t with
  | missing => exact h.elim
  | foreign => exact h.elim
  | ref x l => exact fun b hb => absurd hb List.not_mem_nil
  | lam b x t ih =>
    intro c hc
    rcases List.mem_cons.mp hc with rfl | hc
    · exact eq_false_of_ne_true fun hr => nomatch h.1 hr
    · exact ih h.2 c hc
  | app f a ihf iha =>
    intro c hc
    rcases List.mem_append.mp hc with hc | hc
    · exact ihf h.1 c hc
    · exact iha h.2 c hc

end Term

namespace Table

/-- No function of a body is recursive. -/
def Unmarked (d : Table) : Prop :=
  ∀ e ∈ d.toList, e.body.Unmarked

instance decidableUnmarked (d : Table) : Decidable d.Unmarked :=
  inferInstanceAs (Decidable (∀ e ∈ d.toList, e.body.Unmarked))

/-- What is found outside of all definitions is as plain as the bodies. -/
theorem plain_outside {marked : Bool} {d : Table} (h : ∀ e ∈ d.toList, e.body.Plain marked) :
    (Place.outside d).Plain marked := by
  intro _ _ x body hx
  obtain ⟨e, he, rfl⟩ := Option.map_eq_some_iff.mp hx
  exact h e (List.mem_of_find?_eq_some he)

end Table

end LambdaScript
