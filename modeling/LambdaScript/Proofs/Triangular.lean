/-
LambdaScript/Proofs/Triangular.lean

Recursion through a fixed point: the sums from one to a number.

A program may define `sum1toN` by a fixed point, `Y [r n. ...]`.  Such an expression has no
normal form.  What is bound to the name is `W W`, where `W` is recursive and
calls `W W` again, and this is held back until it gets an argument that contains no recursion.
Then it is unrolled once, and the call inside is held back while the body is reduced with
`n` in the place of its argument: the predecessor of `n` is found, and the whole becomes
`[y x. y(...(y (W W (n - 1) y x)))]` with `n` applications of `y` (`pending`).  Now this is
reduced, with nothing to be held back, and in it the call for `n - 1` in the same way.

How the program is written does not matter.  `DefinesSums n text` says what is asked of it: that
it can be run, and that `sum1toN` and the numbers up to `n` are then what they should be.  The
program of `Workload.source` is one for which this holds (`definesSums_source`).

Main results: `definesSums_source` and `triangular_reduces`.
-/
import Mathlib.Order.Filter.Finite
import LambdaScript.Proofs.Predecessor
import LambdaScript.Proofs.Programs
import LambdaScript.Workload.Source

namespace LambdaScript

namespace Nameless

/-! ### Reduction outside recursive functions -/

section Outside

variable {G : Glossary} {m : Mode} {f t v : Nameless String} {n : Nat}

theorem Yields.reduces (h : Yields t v) (G : Glossary) (m : Mode) :
    Reduces G m unmarked t v := by
  obtain ⟨d, h⟩ := h
  exact h.reduces G m

theorem Reduces.twofold (h : Reduces G m unmarked t v) :
    Reduces G m unmarked (twofold t) (twofold v) := by
  have hbody : Reduces G m (inside false (inside false unmarked)) t v := by
    rw [inside_unmarked, inside_unmarked]
    exact h
  exact .lam "y" (.lam "x" hbody)

theorem Reduces.iterate (h : Reduces G m unmarked t v) (i : Nat) (x : String) (n : Nat) :
    Reduces G m unmarked ((Nameless.app (Nameless.bound i x))^[n] t)
      ((Nameless.app (Nameless.bound i x))^[n] v) := by
  induction n with
  | zero => exact h
  | succ n ih =>
    rw [Function.iterate_succ_apply', Function.iterate_succ_apply']
    exact .app (.bound i x) ih rfl id

theorem rename_numeral (f : Nat → Nat) (n : Nat) : (numeral n).rename f = numeral n := by
  rw [rename_eq_fill, numeral, repeated, fill, fill, fill_iterate]
  rfl

/-- What is reduced to a numeral, inside two more functions and applied to their arguments. -/
theorem Reduces.numeral_app (h : Reduces G m unmarked f (numeral n)) :
    Reduces G m unmarked
      (Nameless.app (Nameless.app f (Nameless.bound 1 "y")) (Nameless.bound 0 "x"))
      ((Nameless.app (Nameless.bound 1 "y"))^[n] (Nameless.bound 0 "x")) := by
  have hbody := evaluates_body 1 "y" n
  obtain ⟨body, v, hfn, hinner, hback⟩ :=
    exists_twofold_app hbody (lettered_argument.iterate n)
  have hnumeral : ((numeral n).rename Nat.succ).rename Nat.succ = Nameless.lam false "y" body := hfn
  rw [rename_numeral, rename_numeral] at hnumeral
  rw [hnumeral] at h
  refine .beta (.beta h (.bound 1 "y") (hinner.reduces G m)) (.bound 0 "x") ?_
  rw [hback]
  exact hbody.reduces G m

theorem grounded_numeral (n : Nat) : (numeral n).Grounded := by
  have hbody : ((Nameless.app (Nameless.bound 1 "y"))^[n] (Nameless.bound 0 "x")).ClosedAt 2 ∧
      ((Nameless.app (Nameless.bound 1 "y"))^[n] (Nameless.bound 0 "x")).Unmarked := by
    induction n with
    | zero => exact ⟨Nat.succ_pos 1, trivial⟩
    | succ n ih =>
      rw [Function.iterate_succ_apply']
      exact ⟨⟨Nat.lt_succ_self 1, ih.1⟩, trivial, ih.2⟩
  exact ⟨hbody.1, rfl, rfl, hbody.2⟩

end Outside

/-! ### The recursive function -/

/-- The sum from one to `n`, where `self` stands for the function itself. -/
def sumBody (self n : Nameless String) : Nameless String :=
  app (zeroTest n) (app (app n successor) (app self (predecessor n)))

/-- The recursive function of the fixed point. -/
def sumStep : Nameless String :=
  lam true "q" (lam false "n" (sumBody (app (bound 1 "q") (bound 1 "q")) (bound 0 "n")))

/-- The fixed point. -/
def sums : Nameless String :=
  app sumStep sumStep

/-- What the sum from one to `n` becomes before the call inside is unrolled. -/
def pending : Nat → Nameless String
  | 0 => numeral 0
  | n + 1 => twofold ((app (bound 1 "y"))^[n + 1]
      (app (app (app sums (numeral n)) (bound 1 "y")) (bound 0 "x")))

variable {G : Glossary} {f a : Nameless String}

theorem reduces_sums : Reduces G .normal unmarked sums sums :=
  reduces_of_evaluate (n := 30) rfl

theorem reduces_sums_held : Reduces G .doneRecursive unmarked sums sums :=
  reduces_of_evaluate (n := 30) rfl

/-- One unrolling. -/
theorem reduces_sumStep_app : Reduces G .doneRecursive unmarked
    ((lam false "n" (sumBody (app (bound 1 "q") (bound 1 "q")) (bound 0 "n"))).instantiate sumStep)
    (lam false "n" (sumBody sums (bound 0 "n"))) :=
  reduces_of_evaluate (n := 30) rfl

/-- While recursion is held back, a call with a number as its argument stays, and so does
everything around it. -/
theorem reduces_call (n : Nat) : Reduces G .doneRecursive unmarked (app sums (numeral n))
    (app sums (numeral n)) :=
  .held reduces_sums_held ((yields_numeral n).reduces G _) rfl (.inl rfl)

/-- The argument is the predecessor, and it is found while the call itself is held back. -/
theorem reduces_call_predecessor (n : Nat) : Reduces G .doneRecursive unmarked
    (app sums (predecessor (numeral n))) (app sums (numeral (n - 1))) :=
  .held reduces_sums_held ((yields_predecessor n).reduces G _) rfl (.inl rfl)

theorem reduces_pending (n : Nat) :
    Reduces G .doneRecursive unmarked (pending n) (pending n) := by
  cases n with
  | zero => exact (yields_numeral 0).reduces G _
  | succ n =>
    have hcall := Reduces.app (.app (reduces_call (G := G) n) (.bound 1 "y") rfl id)
      (.bound 0 "x") rfl id
    exact (hcall.iterate 1 "y" (n + 1)).twofold

/-- The numeral of `n`, applied to the successor function and the call for `n - 1`. -/
theorem reduces_sum_call (n : Nat) : Reduces G .doneRecursive unmarked
    (app (app (numeral (n + 1)) successor) (app sums (predecessor (numeral (n + 1)))))
    (pending (n + 1)) := by
  have hfn : Yields (app (numeral (n + 1)) successor) (lam false "x" (addedTo (n + 1))) :=
    yields_numeral_app ⟨7, evaluates_successor (Nat.le_refl 7)⟩ ⟨_, evaluates_addedTo (n + 1)⟩
  have hfilled : (addedTo (n + 1)).instantiate (app sums (numeral n)) = pending (n + 1) := by
    rw [instantiate, addedTo, twofold, fill, fill, fill_iterate]
    show twofold ((app (bound 1 "y"))^[n + 1] (app (app (app sums
      (((numeral n).rename Nat.succ).rename Nat.succ)) (bound 1 "y")) (bound 0 "x"))) = _
    rw [rename_numeral, rename_numeral]
    rfl
  refine .beta (hfn.reduces G _) (reduces_call_predecessor (n + 1)) ?_
  rw [Nat.add_sub_cancel, hfilled]
  exact reduces_pending (n + 1)

/-- The body of the function, with the numeral of `n` for its argument. -/
theorem reduces_sumBody (n : Nat) :
    Reduces G .doneRecursive unmarked (sumBody sums (numeral n)) (pending n) := by
  have htest := (yields_zeroTest n).reduces G .doneRecursive
  cases n with
  | zero =>
    -- the call for the predecessor of zero is reduced as well, and thrown away
    have hfn : Yields (app (numeral 0) successor) identity :=
      yields_zero_app (yields_numeral 0) ⟨7, evaluates_successor (Nat.le_refl 7)⟩
    exact .beta htest (.beta (hfn.reduces G _) (reduces_call_predecessor 0) (reduces_call 0))
      (reduces_pending 0)
  | succ n => exact .beta htest (reduces_sum_call n) (reduces_pending (n + 1))

theorem triangle_succ (n : Nat) :
    (n + 1) * (n + 1 + 1) / 2 = n + 1 + n * (n + 1) / 2 := by
  have hmul : (n + 1) * (n + 1 + 1) = n * (n + 1) + (n + 1) * 2 := by
    rw [Nat.mul_add_one (n + 1) (n + 1), Nat.mul_two, Nat.add_mul, Nat.one_mul, Nat.add_assoc]
  rw [hmul, Nat.add_mul_div_right _ _ (Nat.succ_pos 1), Nat.add_comm]

/-- **The recursive function finds its sum.**  Applied to the numeral of `n`, it is unrolled
`n + 1` times. -/
theorem reduces_sum (n : Nat) (hf : Reduces G .normal unmarked f sums)
    (ha : Reduces G .normal unmarked a (numeral n)) :
    Reduces G .normal unmarked (app f a) (numeral (n * (n + 1) / 2)) := by
  induction n generalizing f a with
  | zero =>
    exact .unroll hf rfl ha (grounded_numeral 0) reduces_sumStep_app (reduces_sumBody 0)
      ((yields_numeral 0).reduces G _)
  | succ n ih =>
    refine .unroll hf rfl ha (grounded_numeral (n + 1)) reduces_sumStep_app
      (reduces_sumBody (n + 1)) ?_
    -- what is pending are `n + 1` applications of `y` around the sum up to `n`
    have hcall := (ih reduces_sums ((yields_numeral n).reduces G _)).numeral_app
    have hsum := (hcall.iterate 1 "y" (n + 1)).twofold
    rw [← Function.iterate_add_apply, ← triangle_succ] at hsum
    exact hsum

end Nameless

/-! ### Definitions of numerals -/

open Grammar in
/-- A definition that follows the grammar is read. -/
theorem Parse.entry_gives {r : Reading} {text t₁ t₂ t₃ t₄ rest : List Char} {x : String}
    {w : Phrase} (hr : r.At text) (hdef : Named "def" text t₁) (hblanks : Blanks t₁ t₂)
    (hx : Named x t₂ t₃) (hreserved : isReserved x = false) (hblanks' : Blanks t₃ t₄)
    (hw : Derives (.expression w) t₄ rest) :
    Gives entry r (fun e => ∃ body, e = .define x body true ∧ body.phrase? = some w) rest := by
  obtain ⟨hkeyword, haction⟩ := Bool.or_eq_false_iff.mp hreserved
  have hkeywordGives : Gives keyword r (· = .define) t₁ := by
    refine (identifier_gives hr hdef).bind fun y r₁ hy hr₁ => ?_
    subst hy
    exact .pure hr₁ rfl
  have hnameGives {r₁ : Reading} (hr₁ : r₁.At t₂) : Gives definitionName r₁ (· = x) t₃ := by
    refine (identifier_gives hr₁ hx).bind fun y r₂ hy hr₂ => ?_
    subst hy
    rw [if_neg (by rw [hkeyword]; decide), if_neg (by rw [haction]; decide)]
    exact .pure hr₂ rfl
  refine hkeywordGives.bind fun k r₁ hk hr₁ => ?_
  subst hk
  refine (hnameGives (hr₁.blanks hblanks)).bind fun y r₂ hy hr₂ => ?_
  subst hy
  exact (expression_gives (hr₂.blanks hblanks') hw).bind fun body r₃ hbody hr₃ =>
    .pure hr₃ ⟨body, rfl, hbody⟩

namespace Workload

open Nameless (Reduces unmarked successor)

/-- The line that defines the numeral of `n + 1`. -/
def numeralLine (n : Nat) : String :=
  "def " ++ toString (n + 1) ++ " (++ " ++ toString n ++ ")"

/-- A line as a piece of a program. -/
def piece (line : String) : List Char :=
  line.toList ++ ['\n']

theorem piece_numeralLine (n : Nat) (stop : List Char) :
    piece (numeralLine n) ++ stop = "def".toList ++ ' ' :: ((toString (n + 1)).toList ++ ' ' ::
      '(' :: ("++".toList ++ ' ' :: ((toString n).toList ++ ')' :: '\n' :: stop))) := by
  simp [piece, numeralLine]

theorem head?_piece_numeralLine (n : Nat) (stop : List Char) :
    (piece (numeralLine n) ++ stop).head? = some 'd' := by
  rw [piece_numeralLine]
  rfl

/-- The line of a numeral as it is read: the successor function applied to the numeral
before. -/
theorem numeralLine_gives (n : Nat) {stop : List Char} (hstop : '/' ∉ stop) :
    Parse.Gives Parse.entry (.begin (piece (numeralLine n) ++ stop))
      (fun e => ∃ body, e = .define (toString (n + 1)) body true ∧
        body.phrase? = some (.app (.name "++") (.name (toString n)))) ('\n' :: stop) := by
  have hname := argumentName_toString (n + 1)
  have hname' := argumentName_toString n
  have hkeyword := (Bool.or_eq_false_iff.mp hname'.unreserved).1
  have hchars : "def".toList.all isNameChar = true := by decide
  have hdef : Named "def" (piece (numeralLine n) ++ stop) _ :=
    ⟨piece_numeralLine n stop, by decide, List.all_eq_true.mp hchars, ends_cons (by decide) _⟩
  have hchars' : "++".toList.all isNameChar = true := by decide
  have hplus : Named "++" ("++".toList ++ ' ' :: ((toString n).toList ++ ')' :: '\n' :: stop)) _ :=
    ⟨rfl, by decide, List.all_eq_true.mp hchars', ends_cons (by decide) _⟩
  have hbody : Grammar.Derives (.expression (.series [.name "++", .name (toString n)])) _
      ('\n' :: stop) :=
    .bracket (.item (.refl _) (.name hplus rfl) (.item (blanks_space _)
      (.name (hname'.named (ends_cons (by decide) _)) hkeyword) .empty)) (.refl _) (.inl rfl)
  have hplain : '/' ∉ piece (numeralLine n) ++ stop := by
    have hdigits (k : Nat) : '/' ∉ (toString k).toList := fun hc =>
      ((argumentName_toString k).chars '/' hc).2 rfl
    rw [piece_numeralLine]
    simp only [List.mem_append, List.mem_cons, hdigits, hstop]
    decide
  have htrimmed : trimmed (piece (numeralLine n) ++ stop) = piece (numeralLine n) ++ stop := by
    refine trimmed_eq_self fun c hc => ?_
    rw [head?_piece_numeralLine] at hc
    cases hc
    decide
  have hat : (Reading.begin (piece (numeralLine n) ++ stop)).At (piece (numeralLine n) ++ stop) :=
    ⟨htrimmed.symm ▸ Reading.shows_begin _, hplain⟩
  exact Parse.entry_gives hat hdef (blanks_space _) (hname.named (ends_cons (by decide) _))
    hname.unreserved (blanks_space _) hbody

theorem nameless_of_phrase? {t : Term} {x : String} (ht : t.Scoped [])
    (h : t.phrase? = some (.name x)) : t.nameless [] = .free x := by
  obtain ⟨l, rfl⟩ := Term.eq_ref_of_phrase? h
  cases l with
  | free => rfl
  | binder b => exact absurd ht List.not_mem_nil
  | reference k own => exact ht.elim
  | endless => exact ht.elim

variable {G : Glossary} {n : Nat}

theorem reduces_successor (hsuccessor : ("++", successor) ∈ G)
    (hn : (toString n, Nameless.numeral n) ∈ G) :
    Reduces G .normal unmarked (.app (.free "++") (.free (toString n)))
      (Nameless.numeral (n + 1)) := by
  have hfn := (Nameless.evaluates_successor (Nat.le_refl 7)).reduces G .normal
  have harg := (Nameless.yields_numeral n).reduces G .normal
  refine .beta (.unfold hsuccessor hfn) (.unfold hn harg) ?_
  have hbody := Nameless.evaluates_twofold_app (Nameless.evaluates_body 1 "y" n)
    (Nameless.lettered_argument.iterate n)
  have hvalue := Reduces.twofold (.app (.bound 1 "y") (hbody.reduces G .normal) rfl id)
  rw [← Function.iterate_succ_apply' (Nameless.app (.bound 1 "y"))] at hvalue
  exact hvalue

theorem definesBefore_numeralLine {stop : List Char} (hplain : '/' ∉ stop)
    (hstop : trimmed ('\n' :: stop) = stop) (hsuccessor : ("++", successor) ∈ G)
    (hn : (toString n, Nameless.numeral n) ∈ G) :
    DefinesBefore (Reduces G .normal unmarked) stop (piece (numeralLine n)) (toString (n + 1))
      (Nameless.numeral (n + 1)) := by
  obtain ⟨e, r, hread, ⟨body, rfl, hphrase⟩, hr⟩ := numeralLine_gives n hplain
  obtain ⟨f, a, rfl, hf, ha⟩ := Term.eq_app_of_phrase? hphrase
  have hscoped : (Term.app f a).Scoped [] :=
    ((Parse.entry_eq_ok hread).body.resolve_left nofun).lexical.scoped
  refine ⟨_, true, r, hread, hstop ▸ hr.shows, nofun, ?_⟩
  show Reduces G .normal unmarked (.app (f.nameless []) (a.nameless [])) _
  rw [nameless_of_phrase? hscoped.1 hf, nameless_of_phrase? hscoped.2 ha]
  exact reduces_successor hsuccessor hn

/-- The line of a numeral defines it, where the one before is known. -/
theorem defines_numeralLine (hsuccessor : ("++", successor) ∈ G)
    (hn : (toString n, Nameless.numeral n) ∈ G) :
    Defines (Reduces G .normal unmarked) (piece (numeralLine n)) (toString (n + 1))
      (Nameless.numeral (n + 1)) := by
  have hhead := head?_piece_numeralLine n []
  rw [List.append_nil] at hhead
  exact ⟨hhead, definesBefore_numeralLine (by decide) rfl hsuccessor hn,
    definesBefore_numeralLine (by decide) rfl hsuccessor hn⟩

/-! ### The program -/

/-- What the names stand for that are defined before the numerals. -/
def basicNames : Glossary :=
  [("0", .numeral 0),
    ("psecond", .lam false "p" (.app (.bound 0 "p") (.numeral 0))),
    ("pfirst", .lam false "p" (.app (.bound 0 "p") .truth)),
    ("pair", .lam false "a" (.lam false "b" (.pair (.bound 1 "a") (.bound 0 "b")))),
    ("mul", .lam false "x" (.lam false "y" (.lam false "z"
      (.app (.bound 2 "x") (.app (.bound 1 "y") (.bound 0 "z")))))),
    ("add", .lam false "x" (.lam false "y"
      (.app (.app (.bound 0 "y") .successor) (.bound 1 "x")))),
    ("++", .successor),
    ("false", .numeral 0),
    ("true", .truth),
    ("identity", .identity)]

/-- The fixed point that is made of a function `y`: `[$q. y(q q)]` applied to itself. -/
def fixedPoint : Nameless String :=
  .app (.lam true "q" (.app (.bound 1 "y") (.app (.bound 0 "q") (.bound 0 "q"))))
    (.lam true "q" (.app (.bound 1 "y") (.app (.bound 0 "q") (.bound 0 "q"))))

/-- What all names stand for but the numerals from one on. -/
def names : Glossary :=
  [("sum1toN", .sums),
    ("Y", .lam false "y" fixedPoint),
    ("eq0", .lam false "x" (.app (.app (.app (.bound 0 "x") (.numeral 0)) .negation) (.numeral 0))),
    ("not", .negation),
    ("--", .lam false "n" (.predecessor (.bound 0 "n"))),
    ("empty", .identity),
    ("succ", .free "++")] ++ basicNames

/-- The pieces before the numerals. -/
def basicPieces : List (List Char) :=
  basicLines.map piece

/-- The pieces after the numerals. -/
def furtherPieces : List (List Char) :=
  (furtherLines ++ recursionLines).map piece

theorem program_basicPieces : Program [] basicPieces basicNames := by
  apply program_of_glossary? (n := 30)
  simp only [basicPieces, basicLines, piece, List.map_cons, List.map_nil, List.cons_append,
    List.nil_append, String.reduceToList]
  decide +kernel

theorem program_furtherPieces : Program basicNames furtherPieces names := by
  apply program_of_glossary? (n := 30)
  simp only [furtherPieces, furtherLines, recursionLines, piece, List.map_cons, List.map_nil,
    List.cons_append, List.nil_append, String.reduceToList]
  decide +kernel

/-- What the names stand for when the numerals up to `n` have been defined. -/
def countedNames : Nat → Glossary
  | 0 => basicNames
  | n + 1 => (toString (n + 1), .numeral (n + 1)) :: countedNames n

theorem basicNames_subset (n : Nat) : basicNames ⊆ countedNames n := by
  induction n with
  | zero => exact List.Subset.refl _
  | succ n ih => exact List.Subset.trans ih (List.subset_cons_self _ _)

theorem mem_countedNames {k : Nat} (h : k ≤ n) :
    (toString k, Nameless.numeral k) ∈ countedNames n := by
  induction n with
  | zero =>
    obtain rfl := Nat.le_zero.mp h
    exact List.mem_cons_self
  | succ n ih =>
    rcases Nat.le_succ_iff.mp h with h | rfl
    · exact List.mem_cons_of_mem _ (ih h)
    · exact List.mem_cons_self

theorem exists_of_mem_countedNames {x : String} (h : x ∈ (countedNames n).map Prod.fst) :
    x ∈ basicNames.map Prod.fst ∨ ∃ k < n, x = toString (k + 1) := by
  induction n with
  | zero => exact .inl h
  | succ n ih =>
    rcases List.mem_cons.mp h with rfl | h
    · exact .inr ⟨n, Nat.lt_succ_self n, rfl⟩
    · exact (ih h).imp_right fun ⟨k, hk, hx⟩ => ⟨k, Nat.lt_succ_of_lt hk, hx⟩

/-- No numeral but zero is among the names. -/
theorem toString_succ_notMem_names (k : Nat) : toString (k + 1) ∉ names.map Prod.fst := by
  -- every other name has a character that is not a digit
  have hnames : (names.map Prod.fst).all (fun x => x = "0" ∨ x.toList.any (!·.isDigit)) = true := by
    decide +kernel
  intro hk
  rcases of_decide_eq_true (List.all_eq_true.mp hnames _ hk) with hzero | hany
  · exact Nat.succ_ne_zero k (toString_nat_inj (hzero.trans rfl))
  · obtain ⟨c, hc, hdigit⟩ := List.any_eq_true.mp hany
    rw [isDigit_of_mem_toString hc] at hdigit
    cases hdigit

theorem toString_succ_notMem_basicNames (k : Nat) : toString (k + 1) ∉ basicNames.map Prod.fst :=
  fun hk => toString_succ_notMem_names k
    (List.map_subset Prod.fst program_furtherPieces.subset hk)

theorem program_numeralLines (n : Nat) :
    Program basicNames ((numeralLines n).map piece) (countedNames n) := by
  induction n with
  | zero => exact .nil
  | succ n ih =>
    have hlines : numeralLines (n + 1) = numeralLines n ++ [numeralLine n] := by
      rw [numeralLines, List.range_succ, List.map_append]
      rfl
    have hsuccessor : ("++", successor) ∈ countedNames n :=
      basicNames_subset n (by decide)
    have hnew : toString (n + 1) ∉ (countedNames n).map Prod.fst := by
      intro hmem
      rcases exists_of_mem_countedNames hmem with hbasic | ⟨k, hk, heq⟩
      · exact toString_succ_notMem_basicNames n hbasic
      · have hsame := toString_nat_inj heq
        omega
    rw [hlines, List.map_append]
    exact ih.append (.cons hnew
      (defines_numeralLine hsuccessor (mem_countedNames (Nat.le_refl n))) .nil)

/-- The characters of a program, line by line. -/
theorem toList_intercalate_lines {lines : List String} (h : lines ≠ []) :
    ("\n".intercalate lines ++ "\n").toList = (lines.map piece).flatten := by
  induction lines with
  | nil => exact absurd rfl h
  | cons line lines ih =>
    cases lines with
    | nil => simp [piece]
    | cons line' lines =>
      rw [String.intercalate_cons_cons, String.append_assoc, String.toList_append,
        ih (List.cons_ne_nil _ _)]
      simp [piece]

/-- What comes before the first definition. -/
def header : List Char :=
  (headerLines.map piece).flatten

theorem skipped_header : Skipped header := by
  refine skipped_of_gap [.line, .blank, .block, .blank, .blank] ?_ fun text => ?_
  · exact List.isChain_cons_cons.mpr ⟨.inr rfl, spaced_blank_cons.mpr
      (List.isChain_cons_cons.mpr ⟨.inr rfl, spaced_blank_cons.mpr (.singleton _)⟩)⟩
  · have hclosed : Unstarred (" pairs and\nrecursion ".toList ++ '*' :: '/' :: '\n' :: '\n' :: text)
        ('\n' :: '\n' :: text) := .mark (by decide)
    have hblock : Closes Scanner.EndsAt _ ('\n' :: '\n' :: text) :=
      hclosed.closes And.left fun hmark hplain => hmark.endsAt hplain
    have hline : Gap (Closes Scanner.EndsAt) [.line, .blank, .block, .blank, .blank]
        ('/' :: '/' :: (" Church numerals".toList ++ '\n' :: '/' :: '*' :: _)) text :=
      .line (by decide) (by rintro c ⟨⟩; rfl)
        (.blank (by decide) (.block hblock (.blank (by decide) (.blank (by decide) (.nil text)))))
    exact hline

/-- **The program**, and what its names stand for: `sum1toN` for the fixed point, and each number
for its numeral. -/
theorem program_source (n : Nat) : ∃ texts G, header ++ texts.flatten = (source n).toList ∧
    Program [] texts G ∧ ("sum1toN", Nameless.sums) ∈ G ∧
    ∀ k ≤ n, (toString k, Nameless.numeral k) ∈ G := by
  have hnew : ∀ y ∈ (countedNames n).map Prod.fst, y ∈ names.map Prod.fst →
      y ∈ basicNames.map Prod.fst := by
    intro y hy hnames
    rcases exists_of_mem_countedNames hy with hbasic | ⟨k, -, rfl⟩
    · exact hbasic
    · exact absurd hnames (toString_succ_notMem_names k)
  obtain ⟨G, hfurther, hsub, hcounted⟩ :=
    program_furtherPieces.mono (basicNames_subset n) hnew
  refine ⟨_, G, ?_, program_basicPieces.append ((program_numeralLines n).append hfurther),
    hsub List.mem_cons_self, fun k hk => hcounted (mem_countedNames hk)⟩
  have hlines : headerLines ++ basicLines ++ numeralLines n ++ furtherLines ++ recursionLines
      ≠ [] := by
    simp [headerLines]
  rw [source, toList_intercalate_lines hlines]
  simp only [List.flatten_append, List.map_append, header, basicPieces, furtherPieces,
    List.append_assoc]

/-! ### In a session -/

variable {σ : Session}

/-- The call of `sum1toN` for `k`. -/
def sumCall (k : Nat) : Term :=
  .app (.ref "sum1toN" .free) (.ref (toString k) .free)

theorem reduces_sumCall {k : Nat} (hsums : ("sum1toN", Nameless.sums) ∈ G)
    (hk : (toString k, Nameless.numeral k) ∈ G) :
    Reduces G .normal unmarked ((sumCall k).nameless []) (.numeral (k * (k + 1) / 2)) :=
  Nameless.reduces_sum k (.unfold hsums Nameless.reduces_sums)
    (.unfold hk ((Nameless.yields_numeral k).reduces G .normal))

theorem computes_of_attained {l : Limits} {d : Display} {text : List Char} {t : Term}
    (hσ : σ.Stands l d G text) (hr : 2 ≤ l.rounds) (ht : t.Scoped [])
    (htidy : t.Tidy σ.reading.next)
    (h : Attained G .normal unmarked (t.nameless []) (.numeral n) l.depth) :
    Computes σ (pure t) (Term.church n 0).1 := by
  obtain ⟨rfl, -, htrail, htable, -⟩ := hσ
  have hplace : (Place.outside σ.table).Provides G := fun here => by
    rw [Place.definitions_outside]
    exact htable
  obtain ⟨r, next, hreduce, hlinks, hr, hreads⟩ :=
    Act.reduce_of_attained h hr htrail hplace ht htidy
  exact computes_of_reads hreduce hlinks hr.nodup hreads

/-- Acts that leave everything but the supply of keys as it is can be done one after the
other. -/
theorem mapM_eq_ok {α β : Type} {f : α → Act β} {g : α → β} {as : List α}
    (h : ∀ a ∈ as, ∀ next, ∃ next', f a (σ.supplied next) = .ok (g a) (σ.supplied next'))
    (next : Nat) : ∃ next', as.mapM f (σ.supplied next) = .ok (as.map g) (σ.supplied next') := by
  induction as generalizing next with
  | nil => exact ⟨next, rfl⟩
  | cons a as ih =>
    obtain ⟨n₁, ha⟩ := h a List.mem_cons_self next
    obtain ⟨n₂, has⟩ := ih (fun b hb => h b (List.mem_cons_of_mem a hb)) n₁
    refine ⟨n₂, ?_⟩
    rw [List.mapM_cons]
    exact (Outcome.bind_of_ok ha).trans (Outcome.bind_of_ok has)

/-- Nothing is being reduced in the session, there may be so many reductions inside one another,
and two rounds for each unrolling. -/
structure HasRoom (depth : Nat) (σ : Session) : Prop where
  depth : depth ≤ σ.limits.depth
  rounds : 2 ≤ σ.limits.rounds
  trail : σ.trail = []

/-- What the sums are made from: the fixed point, and the numerals up to `n`. -/
def sumNames (n : Nat) : Glossary :=
  ("sum1toN", .sums) :: (List.range (n + 1)).map fun k => (toString k, .numeral k)

/-- A program text that defines the sums.  Every session with room enough runs it to its end, and
then `sum1toN` stands for the fixed point and each number up to `n` for its numeral. -/
def DefinesSums (n : Nat) (text : String) : Prop :=
  ∃ depth, ∀ σ : Session, HasRoom depth σ → ∃ σ', Act.runText text.toList σ = .ok () σ' ∧
    σ'.Stands σ.limits σ.display (sumNames n) []

theorem mem_sumNames {k : Nat} (h : k ≤ n) : (toString k, Nameless.numeral k) ∈ sumNames n :=
  List.mem_cons_of_mem _ (List.mem_map.mpr ⟨k, List.mem_range.mpr (Nat.lt_succ_of_le h), rfl⟩)

/-- **The program defines the sums**, with any number of numerals. -/
theorem definesSums_source (n : Nat) : DefinesSums n (source n) := by
  obtain ⟨texts, G, htext, hprogram, hsums, hnumerals⟩ := program_source n
  have hsub : sumNames n ⊆ G := by
    intro p hp
    rcases List.mem_cons.mp hp with rfl | hp
    · exact hsums
    · obtain ⟨k, hk, rfl⟩ := List.mem_map.mp hp
      exact hnumerals k (Nat.le_of_lt_succ (List.mem_range.mp hk))
  obtain ⟨depth, hrun⟩ :=
    Filter.eventually_atTop.mp (hprogram.runText_eq_ok skipped_header)
  refine ⟨depth, fun σ hσ => ?_⟩
  obtain ⟨σ', hok, hσ'⟩ := hrun σ.limits.depth hσ.depth σ rfl hσ.rounds hσ.trail
  exact ⟨σ', htext ▸ hok, hσ'.of_subset hsub⟩

/-- Behind a program that defines the sums, all calls up to `n` are reduced to their values. -/
theorem DefinesSums.computes {text : String} (h : DefinesSums n text) :
    ∃ depth, ∀ σ : Session, HasRoom depth σ → ∃ σ', Act.runText text.toList σ = .ok () σ' ∧
      σ'.trail = [] ∧ σ'.display = σ.display ∧ ∀ k ≤ n, ∀ next,
        Computes (σ'.supplied next) (pure (sumCall k)) (Term.church (k * (k + 1) / 2) 0).1 := by
  obtain ⟨depth₁, hrun⟩ := h
  -- there are finitely many calls, so one depth is enough for all of them
  have hcalls : ∀ᶠ depth in Filter.atTop, ∀ k : Fin (n + 1), Attained (sumNames n) .normal unmarked
      ((sumCall k).nameless []) (.numeral (k * (k + 1) / 2)) depth :=
    Filter.eventually_all.mpr fun k => (reduces_sumCall List.mem_cons_self
      (mem_sumNames (Nat.le_of_lt_succ k.isLt))).attained (.inl rfl)
  obtain ⟨depth₂, hcalls⟩ := Filter.eventually_atTop.mp hcalls
  refine ⟨max depth₁ depth₂, fun σ hσ => ?_⟩
  obtain ⟨σ', hok, hσ'⟩ :=
    hrun σ ⟨Nat.le_trans (Nat.le_max_left _ _) hσ.depth, hσ.rounds, hσ.trail⟩
  refine ⟨σ', hok, hσ'.trail, hσ'.display, fun k hk next => ?_⟩
  have hnothing : (sumCall k).Tidy next :=
    ⟨List.nodup_nil, fun _ hb => absurd hb List.not_mem_nil⟩
  exact computes_of_attained (hσ'.supplied next) hσ.rounds ⟨trivial, trivial⟩ hnothing
    (hcalls σ.limits.depth (Nat.le_trans (Nat.le_max_right _ _) hσ.depth)
      ⟨k, Nat.lt_succ_of_le hk⟩)

end Workload

end LambdaScript
