/-
LambdaScript/Proofs/Numerals.lean

Arithmetic with Church numerals.

Reduction works from the inside and goes below functions, so on the way from a sum or
a product to its value there are expressions with references that lead out of them and
that are no numerals.  Applying the numeral of `m` to the successor function gives
`[x. succ(...(succ x))]`, whose body is reduced with `x` unknown; it becomes
`[x. [y x. y(...(y (x y x)))]]`, and only the second argument makes a numeral of it.

What each of these expressions evaluates to, and how deep reduction goes, is said
without binders (`evaluates_successors`, `evaluates_sum`, `evaluates_product`).  Names
matter here: a reference that is put in the place of another brings its own name along,
so `[y x. t]` applied to `y` and `x` is `t` only if the references of `t` have the names
of their functions (`Lettered`).

Main result: `arithmetic_reduces`, for every session and whatever is defined in it.
-/
import LambdaScript.Proofs.Agreement
import LambdaScript.Proofs.Evaluation
import LambdaScript.Proofs.Levels
import LambdaScript.Workload.Arithmetic

namespace LambdaScript

namespace Nameless

/-! ### Repeated application -/

section Repeated

variable {ν : Type} {d : Nat}

theorem fill_iterate (σ : Filling ν) (f a : Nameless ν) (n : Nat) :
    ((app f)^[n] a).fill σ = (app (f.fill σ))^[n] (a.fill σ) := by
  have hstep : Function.Semiconj (fill σ) (app f) (app (f.fill σ)) := fun _ => rfl
  exact hstep.iterate_right n a

theorem rename_eq_fill (f : Nat → Nat) (t : Nameless ν) :
    t.rename f = t.fill fun i => bound (f i) := by
  rw [← fill_rename, fill_bound]

theorem Evaluates.rename {t v : Nameless ν} (h : Evaluates d t v) (f : Nat → Nat) :
    Evaluates d (t.rename f) (v.rename f) := by
  rw [rename_eq_fill, rename_eq_fill]
  exact h.fill fun i x => ⟨f i, x, rfl⟩

/-- A reference is reduced to itself, however deep one may go. -/
theorem evaluates_bound (hd : 0 < d) (i : Nat) (x : ν) :
    Evaluates d (bound i x) (bound i x) := by
  obtain ⟨n, rfl⟩ := Nat.exists_eq_add_one.mpr hd
  exact .bound i x

/-- A reference in front of an argument leaves it to the argument to be reduced. -/
theorem evaluates_iterate {a b : Nameless ν} (h : Evaluates d a b) (hd : 0 < d) (i : Nat) (x : ν)
    (n : Nat) : Evaluates (d + n) ((app (bound i x))^[n] a) ((app (bound i x))^[n] b) := by
  induction n with
  | zero => exact h
  | succ n ih =>
    rw [Function.iterate_succ_apply', Function.iterate_succ_apply']
    exact .app (evaluates_bound (Nat.lt_of_lt_of_le hd (Nat.le_add_right d n)) i x) ih id

end Repeated

/-! ### Numerals -/

/-- The function `[f x. f(f(...(f x)))]` with `n` applications of `f`, whose name is `y`. -/
def repeated (y : String) (n : Nat) : Nameless String :=
  lam false y (lam false "x" ((app (bound 1 y))^[n] (bound 0 "x")))

/-- The numeral of `n`. -/
def numeral (n : Nat) : Nameless String :=
  repeated "y" n

/-- The function `[y x. t]`. -/
def twofold (t : Nameless String) : Nameless String :=
  lam false "y" (lam false "x" t)

/-- The successor function. -/
def successor : Nameless String :=
  lam false "w" (twofold (app (bound 1 "y") (app (app (bound 2 "w") (bound 1 "y")) (bound 0 "x"))))

variable {d e n : Nat} {a b t v : Nameless String} {y : String}

/-- References in front of the innermost argument: there is nothing to reduce. -/
theorem evaluates_body (i : Nat) (y : String) (n : Nat) :
    Evaluates (n + 1) ((app (bound i y))^[n] (bound 0 "x"))
      ((app (bound i y))^[n] (bound 0 "x")) := by
  rw [Nat.add_comm]
  exact evaluates_iterate (.bound 0 "x") (Nat.succ_pos 0) i y n

theorem evaluates_repeated (hd : n + 3 ≤ d) : Evaluates d (repeated y n) (repeated y n) := by
  have hrepeated : Evaluates (n + 3) (repeated y n) (repeated y n) :=
    .lam y (.lam "x" (evaluates_body 1 y n))
  exact hrepeated.mono hd

theorem evaluates_successor (hd : 7 ≤ d) : Evaluates d successor successor := by
  have hinner : Evaluates 2 (app (bound 2 "w") (bound 1 "y")) (app (bound 2 "w") (bound 1 "y")) :=
    .app (.bound 2 "w") (.bound 1 "y") id
  have hsuccessor : Evaluates 7 successor successor :=
    .lam "w" (.lam "y" (.lam "x" (.app (.bound 1 "y") (.app hinner (.bound 0 "x") id) id)))
  exact hsuccessor.mono hd

/-- A numeral applied to an argument: the argument is repeated, and what comes of that is
reduced below `x`. -/
theorem evaluates_repeated_app (ha : Evaluates d a b)
    (h : Evaluates d ((app (b.rename Nat.succ))^[n] (bound 0 "x")) v) (hd : n + 3 ≤ d) :
    Evaluates (d + 2) (app (repeated y n) a) (lam false "x" v) := by
  have hbody : (lam false "x" ((app (bound 1 y))^[n] (bound 0 "x"))).instantiate b
      = lam false "x" ((app (b.rename Nat.succ))^[n] (bound 0 "x")) := by
    rw [instantiate, fill, fill_iterate]
    rfl
  refine .beta (evaluates_repeated (by omega)) (ha.mono (Nat.le_succ d)) ?_
  rw [hbody]
  exact .lam "x" h

/-! ### Successors -/

/-- References to the two nearest functions get the names `x` and `y`. -/
def Filling.letters : Filling String
  | 0, _ => bound 0 "x"
  | 1, _ => bound 1 "y"
  | i + 2, x => bound (i + 2) x

/-- As the body of `[y x. t]`, the expression refers to the two arguments by their names. -/
def Lettered (t : Nameless String) : Prop :=
  t.fill Filling.letters = t

theorem Lettered.iterate (h : Lettered t) (n : Nat) : Lettered ((app (bound 1 "y"))^[n] t) := by
  rw [Lettered, fill_iterate, h]
  rfl

/-- Inside two more functions, `[y x. t]` takes their arguments one after the other and becomes
`t` again. -/
theorem exists_twofold_app (h : Evaluates d t t) (ht : Lettered t) :
    ∃ body v, ((twofold t).rename Nat.succ).rename Nat.succ = lam false "y" body ∧
      Evaluates (d + 1) (body.instantiate (bound 1 "y")) (lam false "x" v) ∧
      v.instantiate (bound 0 "x") = t := by
  have hbody := (h.rename (under (under Nat.succ))).rename (under (under Nat.succ))
  have hrelabels : (Filling.first (bound 1 "y")).Relabels := by
    rintro (- | i) x
    · exact ⟨1, "y", rfl⟩
    · exact ⟨i, x, rfl⟩
  refine ⟨_, _, rfl, .lam "x" (hbody.fill hrelabels.under), ?_⟩
  -- every reference of `t` is where it was; those to the two functions have new names
  rw [instantiate, fill_fill, fill_rename, fill_rename]
  refine Eq.trans (congrArg (t.fill ·) ?_) ht
  funext i x
  rcases i with - | - | i <;> rfl

theorem evaluates_twofold_app (h : Evaluates d t t) (ht : Lettered t) :
    Evaluates (d + 4) (app (app (((twofold t).rename Nat.succ).rename Nat.succ) (bound 1 "y"))
      (bound 0 "x")) t := by
  have hfn : Evaluates (d + 2) (((twofold t).rename Nat.succ).rename Nat.succ)
      (((twofold t).rename Nat.succ).rename Nat.succ) :=
    ((Evaluates.lam "y" (Evaluates.lam "x" h)).rename Nat.succ).rename Nat.succ
  obtain ⟨body, v, hbody, hinner, hback⟩ := exists_twofold_app h ht
  rw [hbody] at hfn ⊢
  refine .beta (.beta hfn (.bound 1 "y") (hinner.mono (Nat.le_succ _))) (.bound 0 "x") ?_
  rw [hback]
  exact h.mono (by omega)

/-- The successor of something that evaluates to `[y x. t]`. -/
theorem evaluates_successor_app (ha : Evaluates d a (twofold t)) (h : Evaluates e t t)
    (ht : Lettered t) (hd : e + 7 ≤ d) :
    Evaluates (d + 1) (app successor a) (twofold (app (bound 1 "y") t)) := by
  refine .beta (evaluates_successor (by omega)) ha ?_
  have hbody : Evaluates (e + 4 + 1 + 1 + 1) _ (twofold (app (bound 1 "y") t)) :=
    .lam "y" (.lam "x" (.app (.bound 1 "y") (evaluates_twofold_app h ht) id))
  exact hbody.mono hd

theorem lettered_argument : Lettered (bound 0 "x") := rfl

/-- Successors of a numeral. -/
theorem evaluates_successors (n j : Nat) :
    Evaluates (n + j + 8) ((app successor)^[j] (numeral n)) (numeral (n + j)) := by
  induction j with
  | zero => exact evaluates_repeated (by omega)
  | succ j ih =>
    have hstep := evaluates_successor_app ih (evaluates_body 1 "y" (n + j))
      (lettered_argument.iterate (n + j)) (by omega)
    rw [← Function.iterate_succ_apply' (app (bound 1 "y"))] at hstep
    rw [Function.iterate_succ_apply']
    exact hstep

/-! ### Sums -/

/-- What `n` successors make of an unknown numeral `w`: the function `[y x. y(...(y (w y x)))]`
with `n` applications of `y` in front, or `w` itself if there are none.  The name of `w` is `x`
as well. -/
def addedTo : Nat → Nameless String
  | 0 => bound 0 "x"
  | n + 1 => twofold ((app (bound 1 "y"))^[n + 1]
      (app (app (bound 2 "x") (bound 1 "y")) (bound 0 "x")))

theorem evaluates_unknown : Evaluates 3 (app (app (bound 2 "x") (bound 1 "y")) (bound 0 "x"))
    (app (app (bound 2 "x") (bound 1 "y")) (bound 0 "x")) :=
  .app (.app (.bound 2 "x") (.bound 1 "y") id) (.bound 0 "x") id

theorem evaluates_addedTo (m : Nat) :
    Evaluates (m + 10) ((app successor)^[m] (bound 0 "x")) (addedTo m) := by
  induction m with
  | zero => exact .bound 0 "x"
  | succ m ih =>
    rw [Function.iterate_succ_apply']
    cases m with
    | zero =>
      -- the first successor has only the reference to work on
      refine .beta (evaluates_successor (by omega)) ih ?_
      have hbody := evaluates_iterate evaluates_unknown (Nat.succ_pos 2) 1 "y" 1
      have hvalue : Evaluates (3 + 1 + 1 + 1) (addedTo 1) (addedTo 1) := .lam "y" (.lam "x" hbody)
      exact hvalue.mono (by omega)
    | succ m =>
      have hbody := evaluates_iterate evaluates_unknown (Nat.succ_pos 2) 1 "y" (m + 1)
      have hlettered : Lettered (app (app (bound 2 "x") (bound 1 "y")) (bound 0 "x")) := rfl
      have hstep := evaluates_successor_app ih hbody (hlettered.iterate (m + 1)) (by omega)
      rw [← Function.iterate_succ_apply' (app (bound 1 "y"))] at hstep
      exact hstep

/-- What the unknown numeral makes of it when it becomes known. -/
theorem evaluates_instantiate_addedTo (m n : Nat) :
    Evaluates (m + n + 7) ((addedTo m).instantiate (numeral n)) (numeral (m + n)) := by
  cases m with
  | zero =>
    rw [Nat.zero_add]
    exact evaluates_repeated (by omega)
  | succ m =>
    have hknown := evaluates_twofold_app (evaluates_body 1 "y" n) (lettered_argument.iterate n)
    have hbody := evaluates_iterate hknown (Nat.succ_pos _) 1 "y" (m + 1)
    rw [← Function.iterate_add_apply] at hbody
    have hvalue := Evaluates.lam "y" (.lam "x" hbody)
    have hfilled : (addedTo (m + 1)).instantiate (numeral n)
        = twofold ((app (bound 1 "y"))^[m + 1]
          (app (app (((numeral n).rename Nat.succ).rename Nat.succ) (bound 1 "y"))
            (bound 0 "x"))) := by
      rw [instantiate, addedTo, twofold, fill, fill, fill_iterate]
      rfl
    rw [hfilled]
    exact hvalue.mono (by omega)

theorem evaluates_sum (m n : Nat) :
    Evaluates (m + n + 13) (app (app (numeral m) successor) (numeral n)) (numeral (m + n)) := by
  have hrepeated : Evaluates (m + 10) ((app (successor.rename Nat.succ))^[m] (bound 0 "x"))
      (addedTo m) := evaluates_addedTo m
  have hfn : Evaluates (m + 12) (app (numeral m) successor) (lam false "x" (addedTo m)) :=
    evaluates_repeated_app (evaluates_successor (by omega)) hrepeated (by omega)
  exact .beta (hfn.mono (by omega)) (evaluates_repeated (by omega))
    ((evaluates_instantiate_addedTo m n).mono (by omega))

/-! ### Products -/

/-- The function `[x. z(...(z x))]` with `k` applications of `z`, applied `m` times in a row. -/
theorem evaluates_powers (k m : Nat) :
    Evaluates (m * k + m + k + 3)
      ((app (lam false "x" ((app (bound 2 "z"))^[k] (bound 0 "x"))))^[m] (bound 0 "x"))
      ((app (bound 1 "z"))^[m * k] (bound 0 "x")) := by
  induction m with
  | zero =>
    rw [Nat.zero_mul]
    exact .bound 0 "x"
  | succ m ih =>
    rw [Function.iterate_succ_apply']
    have hpower := Evaluates.lam "x" (evaluates_body 2 "z" k)
    have hvalue := evaluates_body 1 "z" ((m + 1) * k)
    have hmul : (m + 1) * k = k + m * k := by rw [Nat.succ_mul, Nat.add_comm]
    have hfilled : ((app (bound 2 "z"))^[k] (bound 0 "x")).instantiate
        ((app (bound 1 "z"))^[m * k] (bound 0 "x"))
          = (app (bound 1 "z"))^[(m + 1) * k] (bound 0 "x") := by
      rw [instantiate, fill_iterate, hmul, Function.iterate_add_apply]
      rfl
    refine Evaluates.mono (d := m * k + m + k + k + 3 + 1) (.beta (hpower.mono (by omega))
      (ih.mono (by omega)) ?_) (by omega)
    rw [hfilled]
    exact hvalue.mono (by omega)

theorem evaluates_product (m k : Nat) :
    Evaluates (m * k + m + k + 8) (lam false "z" (app (numeral m) (app (numeral k) (bound 0 "z"))))
      (repeated "z" (m * k)) := by
  have harg : Evaluates (k + 5) (app (numeral k) (bound 0 "z"))
      (lam false "x" ((app (bound 1 "z"))^[k] (bound 0 "x"))) :=
    evaluates_repeated_app (.bound 0 "z") ((evaluates_body 1 "z" k).mono (by omega))
      (Nat.le_refl _)
  have hraised : (lam false "x" ((app (bound 1 "z"))^[k] (bound 0 "x"))).rename Nat.succ
      = lam false "x" ((app (bound 2 "z"))^[k] (bound 0 "x")) := by
    rw [rename_eq_fill, fill, fill_iterate]
    rfl
  have hpowers := evaluates_powers k m
  rw [← hraised] at hpowers
  exact .lam "z" (evaluates_repeated_app (harg.mono (by omega)) (hpowers.mono (by omega))
    (by omega))

end Nameless

namespace Term

/-! ### Expressions with new functions -/

/-- An expression below the functions `Γ` that has been made with the next `n` keys and has
no recursive functions. -/
structure Made (Γ : List Binder) (next n : Nat) (t : Term) : Prop where
  links : t.Scoped Γ
  plain : t.Plain false
  keys : t.binders.map (·.key) = List.range' next n

namespace Made

variable {Γ : List Binder} {next n m : Nat} {f a t : Term}

theorem app (hf : f.Made Γ next n) (ha : a.Made Γ (next + n) m) :
    (Term.app f a).Made Γ next (n + m) := by
  refine ⟨⟨hf.links, ha.links⟩, ⟨hf.plain, ha.plain⟩, ?_⟩
  rw [binders, List.map_append, hf.keys, ha.keys, List.range'_append_1]

theorem lam (x : String) (h : t.Made (⟨next, false⟩ :: Γ) (next + 1) n) :
    (Term.lam ⟨next, false⟩ x t).Made Γ next (n + 1) := by
  refine ⟨h.links, ⟨nofun, h.plain⟩, ?_⟩
  rw [binders, List.map_cons, h.keys, List.range'_succ]

theorem ref (x : String) {k : Nat} (h : ⟨k, false⟩ ∈ Γ) :
    (Term.ref x (.binder ⟨k, false⟩)).Made Γ next 0 :=
  ⟨h, nofun, rfl⟩

theorem iterate (hf : f.Made Γ next 0) (ha : a.Made Γ next 0) (k : Nat) :
    (Term.iterate f k a).Made Γ next 0 := by
  induction k with
  | zero => exact ha
  | succ k ih => exact .app hf ih

theorem fit (h : t.Made [] next n) : t.Fit [] (next + n) := by
  have hnothing : missing.Tidy next := ⟨List.nodup_nil, fun _ hb => absurd hb List.not_mem_nil⟩
  exact ⟨h.links, h.plain, (Grown.of_range h.keys).tidy hnothing,
    fun _ hb => absurd hb List.not_mem_nil⟩

end Made

/-- Something new in front of what has come out of an expression. -/
theorem Becomes.made_app {next n next' : Nat} {f t r : Term} {v : Nameless String}
    (hf : f.Made [] next n) (ht : t.Tidy next) (h : Becomes [] (next + n) t next' r v) :
    Becomes [] next t next' (.app f r) (.app (f.nameless []) v) := by
  -- nothing has been in front before
  have hnothing : (Term.app missing t).Tidy next := ⟨ht.nodup, ht.below⟩
  have hgrown := Grown.app hnothing (.of_range hf.keys) h.grown
  exact ⟨⟨hf.links, h.links⟩, ⟨hf.plain, h.plain⟩,
    ⟨hgrown.le, hgrown.nodup, hgrown.old_or_new⟩, congrArg (Nameless.app _) h.reads⟩

theorem nameless_iterate (Γ : List Binder) (f a : Term) (n : Nat) :
    (iterate f n a).nameless Γ = (Nameless.app (f.nameless Γ))^[n] (a.nameless Γ) := by
  induction n with
  | zero => rfl
  | succ n ih => rw [iterate, nameless, ih, Function.iterate_succ_apply']

/-- The function `[f x. f(f(...(f x)))]` with `n` applications of `f`, whose name is `y`. -/
def repeated (y : String) (n next : Nat) : Term :=
  lam ⟨next, false⟩ y (lam ⟨next + 1, false⟩ "x"
    (iterate (ref y (.binder ⟨next, false⟩)) n (ref "x" (.binder ⟨next + 1, false⟩))))

variable (Γ : List Binder)

theorem made_repeated (y : String) (n next : Nat) : (repeated y n next).Made Γ next 2 :=
  .lam y (.lam "x" (.iterate (.ref y (List.mem_cons_of_mem _ List.mem_cons_self))
    (.ref "x" List.mem_cons_self) n))

theorem nameless_repeated (y : String) (n next : Nat) :
    (repeated y n next).nameless Γ = .repeated y n := by
  have hne : (⟨next + 1, false⟩ : Binder) ≠ ⟨next, false⟩ := by simp
  rw [repeated, nameless, nameless, nameless_iterate, nameless, nameless, List.idxOf_cons_self,
    List.idxOf_cons_ne _ hne, List.idxOf_cons_self]
  rfl

theorem made_successor (next : Nat) : (successor next).1.Made Γ next 3 := by
  have hw : (⟨next, false⟩ : Binder) ∈ ⟨next + 1 + 1, false⟩ :: ⟨next + 1, false⟩
      :: ⟨next, false⟩ :: Γ := by simp
  have hy : (⟨next + 1, false⟩ : Binder) ∈ ⟨next + 1 + 1, false⟩ :: ⟨next + 1, false⟩
      :: ⟨next, false⟩ :: Γ := by simp
  exact .lam "w" (.lam "y" (.lam "x" (.app (.ref "y" hy)
    (.app (.app (.ref "w" hw) (.ref "y" hy)) (.ref "x" List.mem_cons_self)))))

theorem nameless_successor (next : Nat) : (successor next).1.nameless Γ = .successor := by
  simp [successor, nameless, Nameless.successor, Nameless.twofold]

end Term

/-! ### In a session -/

/-- The session with another supply of keys. -/
def Session.supplied (σ : Session) (next : Nat) : Session :=
  { σ with reading := { σ.reading with next := next } }

open Nameless (Evaluates)

/-- A session reduces what evaluates, and only its supply of keys changes. -/
theorem Act.simplify_of_evaluates {d : Nat} {t : Term} {v : Nameless String}
    (h : Evaluates d (t.nameless []) v) {σ : Session} (hd : d ≤ σ.limits.depth)
    (ht : t.Fit [] σ.reading.next) :
    ∃ r next, Act.simplify false .normal t σ = .ok r (σ.supplied next) ∧
      Term.Becomes [] σ.reading.next t next r v := by
  obtain ⟨r, p, next, hr, hbecomes⟩ := (h.mono hd).reduce_eq_ok
    (s := ⟨false, σ.display, σ.limits.rounds⟩) rfl (c := ⟨.normal, .outside σ.table, σ.trail⟩) rfl
    (e := ⟨σ.reading.next, []⟩) ht rfl
  refine ⟨r, next, ?_, hbecomes⟩
  show Act.reduce false .normal (.outside σ.table) t σ = _
  rw [Act.reduce, Act.reduceAs, reduceAs_visit, hr]
  show EStateM.Result.ok r (Act.settle σ ⟨next, []⟩) = _
  simp [Act.settle, Session.supplied]

namespace Workload

/-- What is built in the session is reduced to an expression with the outline and the text of
`u`; nothing of the session changes but its supply of keys. -/
def Computes (σ : Session) (build : Act Term) (u : Term) : Prop :=
  ∃ r next, (build >>= Act.simplify false .normal) σ = .ok r (σ.supplied next) ∧
    r.outline = u.outline ∧ r.print? σ.display = .ok (u.print σ.display)

theorem computes_of_reads {next n : Nat} {y : String} {r : Term} {build : Act Term} {σ : Session}
    (hrun : (build >>= Act.simplify false .normal) σ = .ok r (σ.supplied next))
    (hlinks : r.Scoped []) (hnodup : r.binders.Nodup) (hreads : r.nameless [] = .repeated y n) :
    Computes σ build (Term.repeated y n 0) := by
  have hscoped : r.WellScoped := ⟨hlinks, hnodup⟩
  have hrepeated := Term.made_repeated [] y n 0
  have hscoped' : (Term.repeated y n 0).WellScoped := ⟨hrepeated.links, hrepeated.fit.tidy.nodup⟩
  have hsame := hreads.trans (Term.nameless_repeated [] y n 0).symm
  refine ⟨r, next, hrun, ?_, ?_⟩
  · exact Term.outline_eq_of_nameless_eq hscoped hscoped' hsame
  · rw [Term.print?, Term.printIn?, hlinks.plain_true.hasKnot_eq_false, if_neg (by decide)]
    exact congrArg Except.ok (Term.print_eq_of_nameless_eq hscoped hscoped' hsame σ.display)

theorem computes_of_evaluates {d next n : Nat} {y : String} {t : Term} {build : Act Term}
    {σ : Session} (hbuild : build σ = .ok t (σ.supplied next)) (ht : t.Fit [] next)
    (h : Evaluates d (t.nameless []) (.repeated y n)) (hd : d ≤ σ.limits.depth) :
    Computes σ build (Term.repeated y n 0) := by
  obtain ⟨r, next', hr, hbecomes⟩ := Act.simplify_of_evaluates h (σ := σ.supplied next) hd ht
  exact computes_of_reads ((Outcome.bind_of_ok hbuild).trans hr) hbecomes.links
    hbecomes.grown.nodup hbecomes.reads

theorem Computes.reduced_eq_ok {build : Act Term} {u : Term} {σ : Session}
    (h : Computes σ build u) :
    ∃ next, (build >>= reduced) σ = .ok (.text (u.print σ.display)) (σ.supplied next) := by
  obtain ⟨r, next, hr, -, htext⟩ := h
  refine ⟨next, ?_⟩
  have hassoc : (build >>= reduced) = (build >>= Act.simplify false .normal) >>= textDatum := by
    simp only [bind_assoc]
    rfl
  rw [hassoc, Outcome.bind_of_ok hr]
  show (Act.ofFault (r.print? σ.display) >>= fun text => pure (Datum.text text)) _ = _
  rw [htext]
  rfl

/-- Successors around an expression are made with new functions. -/
theorem successors_eq_ok (j : Nat) {t : Term} {σ : Session} (ht : t.Fit [] σ.reading.next) :
    ∃ r next, successors j t σ = .ok r (σ.supplied next) ∧
      Term.Becomes [] σ.reading.next t next r ((Nameless.app .successor)^[j] (t.nameless [])) := by
  induction j generalizing σ with
  | zero => exact ⟨t, σ.reading.next, rfl, .refl ht⟩
  | succ j ih =>
    have hf := Term.made_successor [] σ.reading.next
    obtain ⟨r, next, hr, hbecomes⟩ :=
      ih (σ := σ.supplied (σ.reading.next + 3)) (ht.mono (Nat.le_add_right _ 3))
    refine ⟨.app (Term.successor σ.reading.next).1 r, next, ?_, ?_⟩
    · rw [successors]
      have hmake : Act.make Term.successor σ = .ok (Term.successor σ.reading.next).1
        (σ.supplied (σ.reading.next + 3)) := rfl
      exact (Outcome.bind_of_ok hmake).trans (Outcome.bind_of_ok hr)
    · have happ := Term.Becomes.made_app hf ht.tidy hbecomes
      rw [Term.nameless_successor] at happ
      rw [Function.iterate_succ_apply']
      exact happ

/-- The sum `m succ n` of two numerals. -/
def sum (m n : Nat) : Act Term := do
  return .app (.app (← numeral m) (← Act.make Term.successor)) (← numeral n)

variable {σ : Session}

theorem computes_successors (j n : Nat) (hd : n + j + 8 ≤ σ.limits.depth) :
    Computes σ (do successors j (← numeral n)) (Term.church (n + j) 0).1 := by
  have ht := (Term.made_repeated [] "y" n σ.reading.next).fit
  obtain ⟨r, next, hr, hbecomes⟩ := successors_eq_ok j (σ := σ.supplied (σ.reading.next + 2)) ht
  have hbuild : (do successors j (← numeral n)) σ = .ok r (σ.supplied next) := hr
  refine computes_of_evaluates hbuild (hbecomes.fit ht) ?_ hd
  rw [hbecomes.reads, Term.nameless_repeated]
  exact Nameless.evaluates_successors n j

theorem computes_sum (m n : Nat) (hd : m + n + 13 ≤ σ.limits.depth) :
    Computes σ (sum m n) (Term.church (m + n) 0).1 := by
  have hbuild : sum m n σ = .ok
      (.app (.app (.repeated "y" m σ.reading.next) (Term.successor (σ.reading.next + 2)).1)
        (.repeated "y" n (σ.reading.next + 5))) (σ.supplied (σ.reading.next + 7)) := rfl
  have hmade := ((Term.made_repeated [] "y" m σ.reading.next).app (Term.made_successor [] _)).app
    (Term.made_repeated [] "y" n _)
  refine computes_of_evaluates hbuild hmade.fit ?_ hd
  rw [Term.nameless, Term.nameless, Term.nameless_repeated, Term.nameless_successor,
    Term.nameless_repeated]
  exact Nameless.evaluates_sum m n

theorem computes_composition (m k : Nat) (hd : m * k + m + k + 8 ≤ σ.limits.depth) :
    Computes σ (composition m k) (Term.repeated "z" (m * k) 0) := by
  have hbuild : composition m k σ = .ok
      (.lam ⟨σ.reading.next, false⟩ "z" (.app (.repeated "y" m (σ.reading.next + 1))
        (.app (.repeated "y" k (σ.reading.next + 3))
          (.ref "z" (.binder ⟨σ.reading.next, false⟩))))) (σ.supplied (σ.reading.next + 5)) := rfl
  have hmade : (Term.lam ⟨σ.reading.next, false⟩ "z" _).Made [] σ.reading.next 5 :=
    .lam "z" ((Term.made_repeated _ "y" m _).app ((Term.made_repeated _ "y" k _).app
      (.ref "z" List.mem_cons_self)))
  refine computes_of_evaluates hbuild hmade.fit ?_ hd
  rw [Term.nameless, Term.nameless, Term.nameless, Term.nameless_repeated, Term.nameless_repeated,
    Term.nameless, List.idxOf_cons_self]
  exact Nameless.evaluates_product m k

/-- The report is made of three computations. -/
theorem arithmeticReport_eq (magnitude : Nat) :
    arithmeticReport magnitude = (do
      let counted ← (do successors magnitude (← numeral magnitude)) >>= reduced
      let added ← sum magnitude magnitude >>= reduced
      let product ← composition magnitude (magnitude / 2 + 1) >>= reduced
      return .list [counted, added, product]) := by
  simp only [arithmeticReport, sum, bind_assoc, pure_bind]

/-- **Reduction computes with numerals.**  In every session, whatever is defined in it, if
reduction may go as deep as is told here:

* `j` successors of the numeral of `n` are reduced to the numeral of `n + j`;
* the numeral of `m` applied to the successor function and the numeral of `n` is reduced to the
  numeral of `m + n`;
* the function `[z. m (k z)]` of two numerals is reduced to `[z x. z(z(...(z x)))]` with `m * k`
  applications of `z`;
* so the report on a magnitude consists of the text of the numeral of its double, twice, and
  the text of a product. -/
theorem arithmetic_reduces (σ : Session) :
    (∀ j n, n + j + 8 ≤ σ.limits.depth →
      Computes σ (do successors j (← numeral n)) (Term.church (n + j) 0).1) ∧
    (∀ m n, m + n + 13 ≤ σ.limits.depth → Computes σ (sum m n) (Term.church (m + n) 0).1) ∧
    (∀ m k, m * k + m + k + 8 ≤ σ.limits.depth →
      Computes σ (composition m k) (Term.repeated "z" (m * k) 0)) ∧
    ∀ magnitude,
      magnitude * (magnitude / 2 + 1) + 2 * magnitude + magnitude / 2 + 13 ≤ σ.limits.depth →
      let double := Datum.text ((Term.church (2 * magnitude) 0).1.print σ.display)
      let product := Term.repeated "z" (magnitude * (magnitude / 2 + 1)) 0
      ∃ next, arithmeticReport magnitude σ
        = .ok (.list [double, double, .text (product.print σ.display)]) (σ.supplied next) := by
  refine ⟨computes_successors, computes_sum, computes_composition, ?_⟩
  intro magnitude hd double product
  have htwice : magnitude + magnitude = 2 * magnitude := (Nat.two_mul magnitude).symm
  have hd₁ : magnitude + magnitude + 8 ≤ σ.limits.depth := by omega
  have hd₂ : magnitude + magnitude + 13 ≤ σ.limits.depth := by omega
  have hd₃ : magnitude * (magnitude / 2 + 1) + magnitude + (magnitude / 2 + 1) + 8
      ≤ σ.limits.depth := by omega
  -- each computation starts with the supply that the one before has left
  obtain ⟨n₁, hcounted⟩ := (computes_successors magnitude magnitude hd₁).reduced_eq_ok
  obtain ⟨n₂, hadded⟩ :=
    (computes_sum (σ := σ.supplied n₁) magnitude magnitude hd₂).reduced_eq_ok
  obtain ⟨n₃, hproduct⟩ :=
    (computes_composition (σ := σ.supplied n₂) magnitude (magnitude / 2 + 1) hd₃).reduced_eq_ok
  rw [htwice] at hcounted hadded
  refine ⟨n₃, ?_⟩
  rw [arithmeticReport_eq]
  exact (Outcome.bind_of_ok hcounted).trans ((Outcome.bind_of_ok hadded).trans
    (Outcome.bind_of_ok hproduct))

/-- A session in which a definition of `y` refers to itself, so that a free `y` could not be
reduced. -/
theorem arithmetic_reduces_defined :
    let σ : Session := { Session.fresh with table := ⟨[⟨"y", .ref "y" .free⟩]⟩ }
    Computes σ (do successors 2 (← numeral 3)) (Term.church 5 0).1 ∧
      Computes σ (sum 2 3) (Term.church 5 0).1 ∧
      Computes σ (composition 2 3) (Term.repeated "z" 6 0) ∧
      ∃ next, arithmeticReport 2 σ = .ok (.list [.text "[y x. y(y(y(y x)))]",
        .text "[y x. y(y(y(y x)))]", .text "[z x. z(z(z(z x)))]"]) (σ.supplied next) := by
  intro σ
  obtain ⟨hsuccessors, hsum, hcomposition, hreport⟩ := arithmetic_reduces σ
  have hdouble : (Term.church (2 * 2) 0).1.print σ.display = "[y x. y(y(y(y x)))]" := by
    decide +kernel
  have hproduct : (Term.repeated "z" (2 * (2 / 2 + 1)) 0).print σ.display
      = "[z x. z(z(z(z x)))]" := by decide +kernel
  refine ⟨hsuccessors 2 3 (by decide), hsum 2 3 (by decide), hcomposition 2 3 (by decide), ?_⟩
  obtain ⟨next, hnext⟩ := hreport 2 (by decide)
  rw [hdouble, hproduct] at hnext
  exact ⟨next, hnext⟩

end Workload

end LambdaScript
