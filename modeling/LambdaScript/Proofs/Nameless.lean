/-
LambdaScript/Proofs/Nameless.lean

Expressions without binders.

A reference to the argument of a function is a number: how many functions lie
between the reference and its own.  This is what is left of an expression when
the identities of its functions are forgotten, so two expressions that differ
only in the keys of their binders are one and the same here.  The names written
at functions and references stay, as labels of a type `ν`; nothing below looks at
them.

References are filled in all at once: a `Filling` says what stands for each
number, and may use the label found at the reference (`fill`).  Applying a
function to an argument is the filling `Filling.first`, which puts the argument
for number 0 and lowers the others (`instantiate`).

Main results: the laws of composition `rename_rename`, `fill_rename`,
`rename_fill`, `fill_fill`, from which `rename_instantiate` and
`fill_instantiate` say that applying a function commutes with everything done to
its surroundings; and `rename_of_closed`, `fill_of_closed`: an expression without
references that lead out of it is touched by nothing.
-/
import Mathlib.Logic.Function.Iterate

namespace LambdaScript

/-- Expressions whose references count functions. -/
inductive Nameless (ν : Type)
  /-- The argument of the function that lies `i` functions further out. -/
  | bound (i : Nat) (x : ν)
  /-- A reference that nothing binds. -/
  | free (x : String)
  /-- The function `fn` applied to `arg`. -/
  | app (fn arg : Nameless ν)
  /-- A function, with its recursive mark. -/
  | lam (recursive : Bool) (x : ν) (body : Nameless ν)
  deriving DecidableEq

namespace Nameless

variable {ν : Type}

/-! ### Renaming -/

/-- A change of numbers, seen from inside a function. -/
def under (f : Nat → Nat) : Nat → Nat
  | 0 => 0
  | i + 1 => f i + 1

/-- Changes the numbers of the references that lead out of the expression. -/
def rename (f : Nat → Nat) : Nameless ν → Nameless ν
  | bound i x => bound (f i) x
  | free x => free x
  | app fn arg => app (fn.rename f) (arg.rename f)
  | lam r x body => lam r x (body.rename (under f))

theorem under_comp (f g : Nat → Nat) : under g ∘ under f = under (g ∘ f) := by
  funext i
  cases i <;> rfl

theorem under_id : under id = id := by
  funext i
  cases i <;> rfl

theorem rename_id (t : Nameless ν) : t.rename id = t := by
  induction t with
  | bound i x => rfl
  | free x => rfl
  | app fn arg ihf iha => rw [rename, ihf, iha]
  | lam r x body ih => rw [rename, under_id, ih]

theorem rename_rename (f g : Nat → Nat) (t : Nameless ν) :
    (t.rename f).rename g = t.rename (g ∘ f) := by
  induction t generalizing f g with
  | bound i x => rfl
  | free x => rfl
  | app fn arg ihf iha => simp only [rename, ihf, iha]
  | lam r x body ih => simp only [rename, ih, under_comp]

/-! ### Filling in -/

/-- What stands for the references to each function outside, given their labels. -/
abbrev Filling (ν : Type) := Nat → ν → Nameless ν

namespace Filling

/-- A filling, seen from inside a function. -/
def under (σ : Filling ν) : Filling ν
  | 0, x => bound 0 x
  | i + 1, x => (σ i x).rename Nat.succ

/-- The argument `a` for the references to the nearest function, which goes away. -/
def first (a : Nameless ν) : Filling ν
  | 0, _ => a
  | i + 1, x => bound i x

end Filling

/-- Puts what a filling gives in the place of each reference that leads out. -/
def fill (σ : Filling ν) : Nameless ν → Nameless ν
  | bound i x => σ i x
  | free x => free x
  | app fn arg => app (fn.fill σ) (arg.fill σ)
  | lam r x body => lam r x (body.fill σ.under)

/-- The body of a function that is applied to `a`. -/
def instantiate (body a : Nameless ν) : Nameless ν :=
  body.fill (Filling.first a)

theorem Filling.under_rename (σ : Filling ν) (f : Nat → Nat) :
    (fun i => σ.under (Nameless.under f i)) = Filling.under fun i => σ (f i) := by
  funext i x
  cases i <;> rfl

theorem fill_rename (σ : Filling ν) (f : Nat → Nat) (t : Nameless ν) :
    (t.rename f).fill σ = t.fill fun i => σ (f i) := by
  induction t generalizing σ f with
  | bound i x => rfl
  | free x => rfl
  | app fn arg ihf iha => simp only [rename, fill, ihf, iha]
  | lam r x body ih => simp only [rename, fill, ih, Filling.under_rename]

theorem Filling.rename_under (σ : Filling ν) (f : Nat → Nat) :
    (fun i x => (σ.under i x).rename (Nameless.under f))
      = Filling.under fun i x => (σ i x).rename f := by
  funext i x
  cases i with
  | zero => rfl
  | succ i =>
    -- what is raised past the function is out of reach of its own number 0
    show ((σ i x).rename Nat.succ).rename (Nameless.under f) = ((σ i x).rename f).rename Nat.succ
    rw [rename_rename, rename_rename]
    rfl

theorem rename_fill (σ : Filling ν) (f : Nat → Nat) (t : Nameless ν) :
    (t.fill σ).rename f = t.fill fun i x => (σ i x).rename f := by
  induction t generalizing σ f with
  | bound i x => rfl
  | free x => rfl
  | app fn arg ihf iha => simp only [rename, fill, ihf, iha]
  | lam r x body ih => simp only [rename, fill, ih, Filling.rename_under]

theorem Filling.fill_under (σ τ : Filling ν) :
    (fun i x => (σ.under i x).fill τ.under) = Filling.under fun i x => (σ i x).fill τ := by
  funext i x
  cases i with
  | zero => rfl
  | succ i =>
    show ((σ i x).rename Nat.succ).fill τ.under = ((σ i x).fill τ).rename Nat.succ
    rw [fill_rename, rename_fill]
    rfl

theorem fill_fill (σ τ : Filling ν) (t : Nameless ν) :
    (t.fill σ).fill τ = t.fill fun i x => (σ i x).fill τ := by
  induction t generalizing σ τ with
  | bound i x => rfl
  | free x => rfl
  | app fn arg ihf iha => simp only [fill, ihf, iha]
  | lam r x body ih => simp only [fill, ih, Filling.fill_under]

theorem Filling.under_bound : Filling.under (bound : Filling ν) = bound := by
  funext i x
  cases i <;> rfl

/-- Every reference for itself changes nothing. -/
theorem fill_bound (t : Nameless ν) : t.fill bound = t := by
  induction t with
  | bound i x => rfl
  | free x => rfl
  | app fn arg ihf iha => rw [fill, ihf, iha]
  | lam r x body ih => rw [fill, Filling.under_bound, ih]

/-! ### Applying a function -/

/-- The argument of a function whose body does not refer to it leaves no trace. -/
theorem instantiate_rename_succ (t a : Nameless ν) :
    (t.rename Nat.succ).instantiate a = t := by
  rw [instantiate, fill_rename]
  exact fill_bound t

theorem rename_instantiate (f : Nat → Nat) (body a : Nameless ν) :
    (body.instantiate a).rename f = (body.rename (under f)).instantiate (a.rename f) := by
  rw [instantiate, instantiate, rename_fill, fill_rename]
  congr 1
  funext i x
  cases i <;> rfl

theorem fill_instantiate (σ : Filling ν) (body a : Nameless ν) :
    (body.instantiate a).fill σ = (body.fill σ.under).instantiate (a.fill σ) := by
  rw [instantiate, instantiate, fill_fill, fill_fill]
  congr 1
  funext i x
  cases i with
  | zero => rfl
  | succ i =>
    -- what was filled in for an outer function had been raised past the one that is applied
    exact (instantiate_rename_succ (σ i x) (a.fill σ)).symm

/-! ### Inside several functions -/

theorem under_iterate_of_lt (f : Nat → Nat) {k i : Nat} (h : i < k) : under^[k] f i = i := by
  -- going one function further in takes one from both `k` and `i`
  induction k generalizing i with
  | zero => exact absurd h (Nat.not_lt_zero i)
  | succ k ih =>
    rw [Function.iterate_succ_apply']
    cases i with
    | zero => rfl
    | succ i => exact congrArg Nat.succ (ih (Nat.lt_of_succ_lt_succ h))

theorem under_iterate_add (f : Nat → Nat) (k i : Nat) : under^[k] f (k + i) = k + f i := by
  induction k with
  | zero => rw [Nat.zero_add, Nat.zero_add]; rfl
  | succ k ih =>
    rw [Function.iterate_succ_apply', Nat.succ_add, Nat.succ_add]
    exact congrArg Nat.succ ih

theorem Filling.under_iterate_of_lt (σ : Filling ν) {k i : Nat} (h : i < k) (x : ν) :
    Filling.under^[k] σ i x = bound i x := by
  induction k generalizing i with
  | zero => exact absurd h (Nat.not_lt_zero i)
  | succ k ih =>
    rw [Function.iterate_succ_apply']
    cases i with
    | zero => rfl
    | succ i =>
      show (Filling.under^[k] σ i x).rename Nat.succ = bound (i + 1) x
      rw [ih (Nat.lt_of_succ_lt_succ h)]
      rfl

theorem Filling.under_iterate_add (σ : Filling ν) (k i : Nat) (x : ν) :
    Filling.under^[k] σ (k + i) x = (σ i x).rename (· + k) := by
  induction k with
  | zero =>
    rw [Nat.zero_add]
    exact (rename_id (σ i x)).symm
  | succ k ih =>
    rw [Function.iterate_succ_apply', Nat.succ_add]
    show (Filling.under^[k] σ (k + i) x).rename Nat.succ = _
    rw [ih, rename_rename]
    rfl

/-! ### Closed expressions -/

/-- Every reference belongs to one of the functions of the expression or to one of
the `k` nearest functions around it. -/
def ClosedAt (k : Nat) : Nameless ν → Prop
  | bound i _ => i < k
  | free _ => True
  | app fn arg => fn.ClosedAt k ∧ arg.ClosedAt k
  | lam _ _ body => body.ClosedAt (k + 1)

/-- Every reference belongs to a function of the expression. -/
def Closed (t : Nameless ν) : Prop :=
  t.ClosedAt 0

theorem ClosedAt.rename_eq {t : Nameless ν} {k : Nat} (ht : t.ClosedAt k) {f : Nat → Nat}
    (hf : ∀ i < k, f i = i) : t.rename f = t := by
  induction t generalizing k f with
  | bound i x => rw [rename, hf i ht]
  | free x => rfl
  | app fn arg ihf iha => rw [rename, ihf ht.1 hf, iha ht.2 hf]
  | lam r x body ih =>
    rw [rename, ih ht]
    -- below the function there is one number more that stays
    rintro (- | i) hi
    · rfl
    · exact congrArg Nat.succ (hf i (Nat.lt_of_succ_lt_succ hi))

theorem ClosedAt.fill_eq {t : Nameless ν} {k : Nat} (ht : t.ClosedAt k) {σ : Filling ν}
    (hσ : ∀ i < k, σ i = bound i) : t.fill σ = t := by
  induction t generalizing k σ with
  | bound i x => rw [fill, hσ i ht]
  | free x => rfl
  | app fn arg ihf iha => rw [fill, ihf ht.1 hσ, iha ht.2 hσ]
  | lam r x body ih =>
    rw [fill, ih ht]
    rintro (- | i) hi
    · rfl
    · funext x
      show (σ i x).rename Nat.succ = bound (i + 1) x
      rw [hσ i (Nat.lt_of_succ_lt_succ hi)]
      rfl

theorem rename_of_closed {t : Nameless ν} (ht : t.Closed) (f : Nat → Nat) : t.rename f = t :=
  ht.rename_eq fun _ hi => absurd hi (Nat.not_lt_zero _)

theorem fill_of_closed {t : Nameless ν} (ht : t.Closed) (σ : Filling ν) : t.fill σ = t :=
  ht.fill_eq fun _ hi => absurd hi (Nat.not_lt_zero _)

end Nameless

end LambdaScript
