/-
LambdaScript/Proofs/Predecessor.lean

The test for zero and the predecessor of Church numerals.

The predecessor of `n` is found by counting up: `n` times a pair `(k, j)` is replaced by
`(k + 1, k)`, from `(0, 0)` on, and the second part of the last pair is the predecessor.
Reduction works from the inside, so the pairs are counted up before it is known where the
counting starts: with `x` for the first pair, the numbers are `x true` and, after `k` steps,
`[y x'. y(...(y (x true y x')))]` with `k` applications of `y` (`counted`).  Only when `x`
becomes known they are numerals.

`Yields` is `Evaluates` with a depth that is not told.

Main results: `yields_predecessor` and `yields_zeroTest`.
-/
import LambdaScript.Proofs.Numerals

namespace LambdaScript

namespace Nameless

/-! ### Evaluation at some depth -/

/-- Reducing from the inside ends with the last expression. -/
def Yields (t v : Nameless String) : Prop :=
  ∃ d, Evaluates d t v

variable {f g a b s s' t t' u v w : Nameless String} {x y : String} {n : Nat}

namespace Yields

theorem bound (i : Nat) (x : String) : Yields (bound i x) (bound i x) :=
  ⟨1, .bound i x⟩

theorem lam (h : Yields t v) (x : String) : Yields (lam false x t) (lam false x v) :=
  h.imp' (· + 1) fun _ h => .lam x h

theorem app (hf : Yields f g) (ha : Yields a b) (hg : ¬ g.IsFunction) :
    Yields (app f a) (app g b) := by
  obtain ⟨d, hf⟩ := hf
  obtain ⟨e, ha⟩ := ha
  exact ⟨max d e + 1, .app (hf.mono (Nat.le_max_left d e)) (ha.mono (Nat.le_max_right d e)) hg⟩

theorem beta (hf : Yields f (Nameless.lam false x t)) (ha : Yields a b)
    (h : Yields (t.instantiate b) v) : Yields (Nameless.app f a) v := by
  obtain ⟨d, hf⟩ := hf
  obtain ⟨e, ha⟩ := ha
  obtain ⟨k, h⟩ := h
  exact ⟨d + e + k + 1, .beta (hf.mono (by omega)) (ha.mono (by omega)) (h.mono (by omega))⟩

theorem rename (h : Yields t v) (f : Nat → Nat) : Yields (t.rename f) (v.rename f) :=
  h.imp fun _ h => h.rename f

theorem iterate (h : Yields t v) (i : Nat) (x : String) (n : Nat) :
    Yields ((Nameless.app (Nameless.bound i x))^[n] t)
      ((Nameless.app (Nameless.bound i x))^[n] v) := by
  obtain ⟨d, h⟩ := h
  exact ⟨_, evaluates_iterate (h.mono (Nat.le_succ d)) (Nat.succ_pos d) i x n⟩

/-- Inside two more functions, `[y x. t]` applied to their arguments becomes `t` again. -/
theorem twofold_app (hf : Yields f (((twofold t).rename Nat.succ).rename Nat.succ))
    (h : Yields t t) (ht : Lettered t) :
    Yields (Nameless.app (Nameless.app f (Nameless.bound 1 "y")) (Nameless.bound 0 "x")) t := by
  obtain ⟨d, hd⟩ := h
  obtain ⟨body, v, hbody, hinner, hback⟩ := exists_twofold_app hd ht
  rw [hbody] at hf
  refine .beta (.beta hf (.bound 1 "y") ⟨_, hinner⟩) (.bound 0 "x") ?_
  rw [hback]
  exact ⟨d, hd⟩

end Yields

theorem yields_numeral (n : Nat) : Yields (numeral n) (numeral n) :=
  ⟨_, evaluates_repeated (Nat.le_refl _)⟩

/-- A numeral applied to an argument, which is repeated below `x`. -/
theorem yields_numeral_app (ha : Yields a b)
    (h : Yields ((app (b.rename Nat.succ))^[n] (bound 0 "x")) v) :
    Yields (app (numeral n) a) (lam false "x" v) := by
  obtain ⟨d, ha⟩ := ha
  obtain ⟨e, h⟩ := h
  exact ⟨d + e + (n + 3) + 2,
    evaluates_repeated_app (ha.mono (by omega)) (h.mono (by omega)) (by omega)⟩

/-! ### Truth values -/

/-- The truth value that chooses the first of two things. -/
def truth : Nameless String :=
  twofold (bound 1 "y")

theorem yields_truth : Yields truth truth :=
  ((Yields.bound 1 "y").lam "x").lam "y"

theorem yields_identity_app (hf : Yields f identity) (ha : Yields a b) (hb : Yields b b) :
    Yields (app f a) b :=
  .beta hf ha hb

/-- Zero is also the truth value that chooses the second of two things. -/
theorem yields_zero_app (hf : Yields f (numeral 0)) (ha : Yields a b) :
    Yields (app f a) identity :=
  .beta hf ha ((Yields.bound 0 "x").lam "x")

theorem yields_truth_app (hf : Yields f truth) (ha : Yields a b) (hb : Yields b b) :
    Yields (app f a) (lam false "x" (b.rename Nat.succ)) :=
  .beta hf ha ((hb.rename Nat.succ).lam "x")

/-! ### The test for zero -/

/-- The function that exchanges the truth values. -/
def negation : Nameless String :=
  lam false "x" (app (app (bound 0 "x") (numeral 0)) truth)

/-- The test whether `n` is zero, applied to zero: `n false not false 0`. -/
def zeroTest (n : Nameless String) : Nameless String :=
  app (app (app (app n (numeral 0)) negation) (numeral 0)) (numeral 0)

theorem yields_negation : Yields negation negation :=
  (((Yields.bound 0 "x").app (yields_numeral 0) id).app yields_truth id).lam "x"

theorem yields_negation_zero (hf : Yields f negation) : Yields (app f (numeral 0)) truth :=
  .beta hf (yields_numeral 0) (yields_identity_app
    (yields_zero_app (yields_numeral 0) (yields_numeral 0)) yields_truth yields_truth)

/-- Zero applied to anything, as often as one likes. -/
theorem yields_zeros (n : Nat) :
    Yields ((app (numeral 0))^[n + 1] (bound 0 "x")) identity := by
  induction n with
  | zero => exact yields_zero_app (yields_numeral 0) (.bound 0 "x")
  | succ n ih =>
    rw [Function.iterate_succ_apply']
    exact yields_zero_app (yields_numeral 0) ih

/-- The test chooses zero for zero, and for other numbers what comes next. -/
theorem yields_zeroTest (n : Nat) :
    Yields (zeroTest (numeral n)) (lam false "x" (if n = 0 then numeral 0 else bound 0 "x")) := by
  cases n with
  | zero =>
    have hidentity := yields_zero_app (yields_numeral 0) (yields_numeral 0)
    have hnegation := yields_identity_app hidentity yields_negation yields_negation
    exact yields_truth_app (yields_negation_zero hnegation) (yields_numeral 0) (yields_numeral 0)
  | succ n =>
    have hfn : Yields (app (numeral (n + 1)) (numeral 0)) (lam false "x" identity) :=
      yields_numeral_app (yields_numeral 0) (yields_zeros n)
    have hidentity : Yields (app (app (numeral (n + 1)) (numeral 0)) negation) identity :=
      .beta hfn yields_negation ((Yields.bound 0 "x").lam "x")
    exact yields_zero_app
      (yields_identity_app hidentity (yields_numeral 0) (yields_numeral 0)) (yields_numeral 0)

/-! ### Pairs -/

/-- The function `[z. z s t]`. -/
def pair (s t : Nameless String) : Nameless String :=
  lam false "z" (app (app (bound 0 "z") (s.rename Nat.succ)) (t.rename Nat.succ))

theorem fill_pair (σ : Filling String) (s t : Nameless String) :
    (pair s t).fill σ = pair (s.fill σ) (t.fill σ) := by
  have hunder (u : Nameless String) :
      (u.rename Nat.succ).fill σ.under = (u.fill σ).rename Nat.succ := by
    rw [fill_rename, rename_fill]
    rfl
  rw [pair, fill, fill, fill, hunder, hunder]
  rfl

theorem yields_pair (hs : Yields s s') (ht : Yields t t') : Yields (pair s t) (pair s' t') :=
  (((Yields.bound 0 "z").app (hs.rename Nat.succ) id).app (ht.rename Nat.succ) id).lam "z"

theorem yields_first (hf : Yields f (pair s t)) (hs : Yields s s) (ht : Yields t t) :
    Yields (app f truth) s := by
  refine .beta hf yields_truth ?_
  show Yields (app (app truth ((s.rename Nat.succ).instantiate truth))
    ((t.rename Nat.succ).instantiate truth)) s
  rw [instantiate_rename_succ, instantiate_rename_succ]
  refine .beta (yields_truth_app yields_truth hs hs) ht ?_
  rw [instantiate_rename_succ]
  exact hs

theorem yields_second (hf : Yields f (pair s t)) (hs : Yields s s) (ht : Yields t t) :
    Yields (app f (numeral 0)) t := by
  refine .beta hf (yields_numeral 0) ?_
  show Yields (app (app (numeral 0) ((s.rename Nat.succ).instantiate (numeral 0)))
    ((t.rename Nat.succ).instantiate (numeral 0))) t
  rw [instantiate_rename_succ, instantiate_rename_succ]
  exact yields_identity_app (yields_zero_app (yields_numeral 0) hs) ht ht

/-! ### The predecessor -/

/-- The function that replaces the pair of `k` and something else by the pair of `k + 1` and
`k`. -/
def countUp : Nameless String :=
  lam false "p" (lam false "z" (app (app (bound 0 "z")
    (twofold (app (bound 1 "y") (app (app (app (bound 3 "p") truth) (bound 1 "y")) (bound 0 "x")))))
    (app (bound 1 "p") truth)))

/-- The predecessor of `n`. -/
def predecessor (n : Nameless String) : Nameless String :=
  app (app (app n countUp) (pair (numeral 0) (numeral 0))) (numeral 0)

/-- The first part of a pair `w` that is not known, as the body of a number. -/
def firstOf (w : Nameless String) : Nameless String :=
  app (app (app w truth) (bound 1 "y")) (bound 0 "x")

/-- The first part of a pair that is not known, counted up `n` times. -/
def counted : Nat → Nameless String
  | 0 => app (bound 0 "x") truth
  | n + 1 => twofold ((app (bound 1 "y"))^[n + 1] (firstOf (bound 2 "x")))

/-- A pair that is not known, counted up `n` times. -/
def countedPair : Nat → Nameless String
  | 0 => bound 0 "x"
  | n + 1 => pair (counted (n + 1)) (counted n)

theorem yields_firstOf (i : Nat) (x : String) :
    Yields (firstOf (bound i x)) (firstOf (bound i x)) :=
  (((Yields.bound i x).app yields_truth id).app (.bound 1 "y") id).app (.bound 0 "x") id

theorem yields_countUp : Yields countUp countUp := by
  have hnext := (((Yields.bound 1 "y").app (yields_firstOf 3 "p") id).lam "x").lam "y"
  exact ((((Yields.bound 0 "z").app hnext id).app
    ((Yields.bound 1 "p").app yields_truth id) id).lam "z").lam "p"

theorem yields_counted (n : Nat) : Yields (counted n) (counted n) := by
  cases n with
  | zero => exact (Yields.bound 0 "x").app yields_truth id
  | succ n => exact (((yields_firstOf 2 "x").iterate 1 "y" (n + 1)).lam "x").lam "y"

theorem rename_counted_succ (n : Nat) : (counted (n + 1)).rename Nat.succ
    = twofold ((app (bound 1 "y"))^[n + 1] (firstOf (bound 3 "x"))) := by
  rw [rename_eq_fill, counted, twofold, fill, fill, fill_iterate]
  rfl

/-- The number of a pair that is not known, with its arguments `y` and `x`. -/
theorem yields_counted_app
    (h : Yields f ((((counted n).rename Nat.succ).rename Nat.succ).rename Nat.succ)) :
    Yields (app (app f (bound 1 "y")) (bound 0 "x"))
      ((app (bound 1 "y"))^[n] (firstOf (bound 3 "x"))) := by
  cases n with
  | zero => exact (h.app (.bound 1 "y") id).app (.bound 0 "x") id
  | succ n =>
    rw [rename_counted_succ] at h
    have hlettered : Lettered (firstOf (bound 3 "x")) := rfl
    exact h.twofold_app ((yields_firstOf 3 "x").iterate 1 "y" (n + 1)) (hlettered.iterate (n + 1))

theorem yields_countUp_app (ha : Yields a w) (hfirst : Yields (app w truth) (counted n)) :
    Yields (app countUp a) (pair (counted (n + 1)) (counted n)) := by
  refine .beta yields_countUp ha ?_
  have hbody := yields_counted_app
    (((hfirst.rename Nat.succ).rename Nat.succ).rename Nat.succ)
  have hnext := (((Yields.bound 1 "y").app hbody id).lam "x").lam "y"
  have hpair := (((Yields.bound 0 "z").app hnext id).app (hfirst.rename Nat.succ) id).lam "z"
  rw [pair, rename_counted_succ, Function.iterate_succ_apply']
  exact hpair

theorem yields_countedPair_first (n : Nat) :
    Yields (app (countedPair n) truth) (counted n) := by
  cases n with
  | zero => exact (Yields.bound 0 "x").app yields_truth id
  | succ n =>
    exact yields_first (yields_pair (yields_counted (n + 1)) (yields_counted n))
      (yields_counted (n + 1)) (yields_counted n)

/-- Counting up a pair that is not known. -/
theorem yields_countedPair (n : Nat) :
    Yields ((app countUp)^[n] (bound 0 "x")) (countedPair n) := by
  induction n with
  | zero => exact .bound 0 "x"
  | succ n ih =>
    rw [Function.iterate_succ_apply']
    exact yields_countUp_app ih (yields_countedPair_first n)

theorem yields_start :
    Yields (pair (numeral 0) (numeral 0)) (pair (numeral 0) (numeral 0)) :=
  yields_pair (yields_numeral 0) (yields_numeral 0)

/-- Where counting starts with zero, the number is known. -/
theorem yields_counted_start (n : Nat) :
    Yields ((counted n).instantiate (pair (numeral 0) (numeral 0))) (numeral n) := by
  have hzero := yields_first yields_start (yields_numeral 0) (yields_numeral 0)
  cases n with
  | zero => exact hzero
  | succ n =>
    have hbody := ((Yields.twofold_app hzero (.bound 0 "x") lettered_argument).iterate 1 "y"
      (n + 1)).lam "x"
    have hfilled : (counted (n + 1)).instantiate (pair (numeral 0) (numeral 0))
        = twofold ((app (bound 1 "y"))^[n + 1] (firstOf (pair (numeral 0) (numeral 0)))) := by
      rw [instantiate, counted, twofold, fill, fill, fill_iterate]
      rfl
    rw [hfilled]
    exact hbody.lam "y"

/-- **The predecessor of a numeral**, which is zero for zero. -/
theorem yields_predecessor (n : Nat) :
    Yields (predecessor (numeral n)) (numeral (n - 1)) := by
  have hcount : Yields (app (numeral n) countUp) (lam false "x" (countedPair n)) :=
    yields_numeral_app yields_countUp (yields_countedPair n)
  have hpair : Yields (app (app (numeral n) countUp) (pair (numeral 0) (numeral 0)))
      (pair (numeral n) (numeral (n - 1))) := by
    refine .beta hcount yields_start ?_
    cases n with
    | zero => exact yields_start
    | succ n =>
      rw [countedPair, instantiate, fill_pair]
      exact yields_pair (yields_counted_start (n + 1)) (yields_counted_start n)
  exact yields_second hpair (yields_numeral n) (yields_numeral (n - 1))

end Nameless

end LambdaScript
