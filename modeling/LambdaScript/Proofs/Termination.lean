/-
LambdaScript/Proofs/Termination.lean

Where reading comes to an end.

The readers of expressions and series take a bound on their rounds, and give up with
`Halt.endless` when it is exceeded.  There are two ways in which this can happen: the
bound was too small, or there is none that would do.  This file tells them apart.

A larger bound keeps every answer that is not `endless` (`Refines`).  Every expression
that is read makes the remaining text shorter, so a bound above its length is exceeded
only where a series goes on without reading anything.  With no blank in hand there is
just one such place: a series at a full stop, which neither starts an expression nor
closes a bracket.  `Stalls` describes the readings whose course leads to such a place,
and there no bound is enough.

Main result: `reading_ends_unless_stalled`.
-/
import LambdaScript.Proofs.Progress

namespace LambdaScript

namespace Parse

variable {r r' : Reading}

/-! ### Bounds that are exceeded -/

/-- A bound has been exceeded. -/
def Endless {α : Type} (o : EStateM.Result Halt Reading α) : Prop :=
  ∃ r, o = .error .endless r

namespace Endless

variable {α β : Type} {x : Parse α} {f : α → Parse β}

theorem left (h : Endless (x r)) : Endless ((x >>= f) r) := by
  obtain ⟨r', hx⟩ := h
  exact ⟨r', Outcome.bind_of_error hx⟩

theorem right {a : α} (hx : x r = .ok a r') (h : Endless (f a r')) : Endless ((x >>= f) r) := by
  rwa [Outcome.bind_of_ok hx]

theorem of_bind (h : Endless ((x >>= f) r)) :
    Endless (x r) ∨ ∃ a r', x r = .ok a r' ∧ Endless (f a r') := by
  obtain ⟨r', hr'⟩ := h
  rcases Outcome.bind_eq_error hr' with hx | ⟨a, r₁, hx, hf⟩
  · exact .inl ⟨r', hx⟩
  · exact .inr ⟨a, r₁, hx, r', hf⟩

theorem not_ok {a : α} : ¬ Endless (.ok a r) := nofun

end Endless

/-- The parser exceeds no bound. -/
def Ends {α : Type} (x : Parse α) : Prop :=
  ∀ r, ¬ Endless (x r)

namespace Ends

variable {α β : Type} {x y : Parse α} {f : α → Parse β}

theorem pure (a : α) : Ends (pure a : Parse α) := fun _ => nofun

theorem reject (p : Problem) : Ends (reject p : Parse α) := fun _ => nofun

theorem scan (f : Scanner → α × Scanner) : Ends (scan f) := fun _ => nofun

theorem bind (hx : Ends x) (hf : ∀ a, Ends (f a)) : Ends (x >>= f) := by
  intro r h
  rcases h.of_bind with hend | ⟨a, r', -, hend⟩
  · exact hx r hend
  · exact hf a r' hend

theorem ite {p : Prop} [Decidable p] (hx : Ends x) (hy : Ends y) : Ends (if p then x else y) := by
  split
  · exact hx
  · exact hy

theorem current : Ends current := fun _ => nofun

theorem takeAll (text : String) (l : List Char) : Ends (takeAll text l) := by
  induction l with
  | nil => exact pure ()
  | cons c rest ih =>
    exact .bind current fun k => .ite (.bind (scan _) fun _ => ih) (reject _)

theorem expect (text : String) : Ends (expect text) :=
  .bind (takeAll text text.toList) fun _ => scan _

theorem expectUnlessAtEnd (text : String) : Ends (expectUnlessAtEnd text) :=
  .bind current fun _ => .ite (.bind (expect text) fun _ => pure ()) (pure ())

theorem identifier : Ends identifier :=
  .bind current fun _ => .ite
    (.bind (scan _) fun _ => .bind (scan _) fun _ => .bind (scan _) fun _ => pure _) (reject _)

theorem name : Ends name :=
  .bind identifier fun _ => .ite (reject _) (pure _)

theorem argument : Ends argument := by
  have hrest : ∀ marked, Ends (do
      let x ← argumentName
      return (← newBinder marked, x)) := by
    intro marked
    refine .bind (.bind name fun _ => .ite (reject _) (pure _)) fun _ => ?_
    exact .bind (fun _ => nofun) fun _ => pure _
  refine .bind current fun k => .ite ?_ (hrest _)
  exact .bind (expect "$") fun _ => hrest _

end Ends

/-- There are no more arguments than characters. -/
theorem not_endless_arguments {rounds : Nat} (h : r.scanner.remaining < rounds) :
    ¬ Endless (arguments rounds r) := by
  induction rounds generalizing r with
  | zero => exact absurd h (Nat.not_lt_zero _)
  | succ rounds ih =>
    rw [arguments, current_bind]
    split
    · exact Endless.not_ok
    · intro hend
      rcases hend.of_bind with hend | ⟨a, r₁, ha, hend⟩
      · exact Ends.argument r hend
      · rcases hend.of_bind with hend | ⟨_, _, -, hend⟩
        · exact ih (Nat.lt_of_lt_of_le (ahead_argument ha).shorter (Nat.lt_succ_iff.mp h)) hend
        · exact Endless.not_ok hend

/-! ### Larger bounds -/

/-- Where the first parser exceeds no bound, the second does the same. -/
def Refines {α : Type} (x y : Parse α) : Prop :=
  ∀ r, Endless (x r) ∨ x r = y r

namespace Refines

variable {α β : Type} {x x' y y' : Parse α} {f f' : α → Parse β}

theorem refl (x : Parse α) : Refines x x := fun _ => .inr rfl

theorem endless (x : Parse α) : Refines (throw .endless) x := fun r => .inl ⟨r, rfl⟩

theorem bind (hx : Refines x x') (hf : ∀ a, Refines (f a) (f' a)) :
    Refines (x >>= f) (x' >>= f') := by
  intro r
  rcases hx r with hend | heq
  · exact .inl hend.left
  · rcases hr : x r with ⟨a, r₁⟩ | ⟨err, r₁⟩
    · rw [Outcome.bind_of_ok hr, Outcome.bind_of_ok (heq.symm.trans hr)]
      exact hf a r₁
    · rw [Outcome.bind_of_error hr, Outcome.bind_of_error (heq.symm.trans hr)]
      exact .inr rfl

theorem ite {p : Prop} [Decidable p] (hx : Refines x x') (hy : Refines y y') :
    Refines (if p then x else y) (if p then x' else y') := by
  split
  · exact hx
  · exact hy

variable {n m : Nat}

theorem arguments (h : n ≤ m) : Refines (arguments n) (arguments m) := by
  induction n generalizing m with
  | zero => exact endless _
  | succ n ih =>
    obtain ⟨m, rfl⟩ : ∃ k, m = k + 1 := Nat.exists_eq_succ_of_ne_zero (by omega)
    refine .bind (refl _) fun k => .ite (refl _) (.bind (refl _) fun a => ?_)
    exact .bind (ih (Nat.le_of_succ_le_succ h)) fun _ => refl _

section Item

variable {item item' : Parse Term} (hitem : Refines item item') (h : n ≤ m)

include hitem h

theorem seriesFrom (t : Term) : Refines (seriesFrom item n t) (seriesFrom item' m t) := by
  induction n generalizing m t with
  | zero => exact endless _
  | succ n ih =>
    obtain ⟨m, rfl⟩ : ∃ k, m = k + 1 := Nat.exists_eq_succ_of_ne_zero (by omega)
    refine .bind (refl _) fun k => .ite (refl _) (.bind hitem fun a => ?_)
    exact ih (Nat.le_of_succ_le_succ h) _

theorem seriesOf : Refines (seriesOf item n) (seriesOf item' m) :=
  .bind (refl _) fun _ => .ite (refl _) (.bind hitem fun t => seriesFrom hitem h t)

theorem bracketOf : Refines (bracketOf item n) (bracketOf item' m) :=
  .bind (refl _) fun _ => .bind (seriesOf hitem h) fun _ => refl _

theorem functionOf : Refines (functionOf item n) (functionOf item' m) :=
  .bind (refl _) fun _ => .bind (refl _) fun _ => .bind (arguments h) fun _ =>
    .bind (refl _) fun _ => .bind (seriesOf hitem h) fun _ => refl _

end Item

theorem expressionWithin (h : n ≤ m) : Refines (expressionWithin n) (expressionWithin m) := by
  induction n generalizing m with
  | zero => exact endless _
  | succ n ih =>
    obtain ⟨m, rfl⟩ : ∃ k, m = k + 1 := Nat.exists_eq_succ_of_ne_zero (by omega)
    have hle := Nat.le_of_succ_le_succ h
    refine .bind (refl _) fun k => .ite (bracketOf (ih hle) hle) ?_
    exact .ite (functionOf (ih hle) hle) (refl _)

/-- What a parser gives with one bound it gives with every bound that is not exceeded. -/
theorem of_ok {x : Nat → Parse α} (hx : ∀ {n m}, n ≤ m → Refines (x n) (x m)) {a : α}
    (h : x m r = .ok a r') (n : Nat) : Endless (x n r) ∨ x n r = .ok a r' := by
  rcases Nat.le_total n m with hle | hle
  · rw [← h]
    exact hx hle r
  · rcases hx hle r with hend | heq
    · rw [h] at hend
      exact absurd hend Endless.not_ok
    · exact .inr (heq.symm.trans h)

end Refines

/-! ### Readings that stall -/

/-- The readers that may call themselves. -/
inductive Reader
  | expression
  | series
  | bracket
  | function

namespace Reader

/-- The reader with a bound on its rounds and on the brackets inside one another. -/
def within (n : Nat) : Reader → Parse Term
  | expression => expressionWithin n
  | series => seriesOf (expressionWithin n) n
  | bracket => bracketOf (expressionWithin n) n
  | function => functionOf (expressionWithin n) n

/-- The reader with the bound that fits the text. -/
def run : Reader → Parse Term
  | expression => Parse.expression
  | series => Parse.series
  | bracket => Parse.bracket
  | function => Parse.function

theorem run_eq (k : Reader) (r : Reading) : k.run r = k.within (r.scanner.remaining + 1) r := by
  cases k <;> rfl

theorem refines_within {n m : Nat} (h : n ≤ m) (k : Reader) :
    Refines (k.within n) (k.within m) := by
  cases k with
  | expression => exact .expressionWithin h
  | series => exact .seriesOf (.expressionWithin h) h
  | bracket => exact .bracketOf (.expressionWithin h) h
  | function => exact .functionOf (.expressionWithin h) h

/-- The course of the reading leads to a series, at its beginning or after some of its
expressions, with a full stop in hand. -/
inductive Stalls : Reader → Reading → Prop
  | stop {r : Reading} : r.scanner.current = some '.' → Stalls series r
  | item {r : Reading} : CharClass.bracketEnd.has r.scanner.current = false → Stalls expression r →
      Stalls series r
  | next {r r₁ : Reading} {n t} : CharClass.bracketEnd.has r.scanner.current = false →
      expressionWithin n r = .ok t r₁ → Stalls series r₁ → Stalls series r
  | inBracket {r r₁ : Reading} {l} : expect "(" r = .ok l r₁ → Stalls series r₁ → Stalls bracket r
  | inFunction {r r₁ r₂ r₃ r₄ : Reading} {l a n more u} : expect "[" r = .ok l r₁ →
      argument r₁ = .ok a r₂ → arguments n r₂ = .ok more r₃ → expectUnlessAtEnd "." r₃ = .ok u r₄ →
      Stalls series r₄ → Stalls function r
  | bracket {r : Reading} : CharClass.bracketStart.has r.scanner.current = true →
      Stalls bracket r → Stalls expression r
  | function {r : Reading} : CharClass.functionStart.has r.scanner.current = true →
      Stalls function r → Stalls expression r

/-- No bound is enough.  Inside a series this does not depend on what has been read of it. -/
def Hangs : Reader → Reading → Prop
  | expression, r => ∀ n, Endless (expressionWithin n r)
  | series, r => (∀ d n t, Endless (seriesFrom (expressionWithin d) n t r)) ∧
      ∀ d n, Endless (seriesOf (expressionWithin d) n r)
  | bracket, r => ∀ d n, Endless (bracketOf (expressionWithin d) n r)
  | function, r => ∀ d n, Endless (functionOf (expressionWithin d) n r)

theorem Hangs.within {k : Reader} (h : k.Hangs r) (n : Nat) : Endless (k.within n r) := by
  cases k with
  | expression => exact h n
  | series => exact h.2 n n
  | bracket => exact h n n
  | function => exact h n n

/-- A series hangs where its next expression or what comes after it does. -/
theorem hangs_series (hend : CharClass.bracketEnd.has r.scanner.current = false)
    (hnext : ∀ d, Endless (expressionWithin d r) ∨ ∃ a r₁, expressionWithin d r = .ok a r₁ ∧
      ∀ n t, Endless (seriesFrom (expressionWithin d) n t r₁)) : Hangs series r := by
  have hend' : ¬ CharClass.bracketEnd.has r.scanner.current = true := by simp [hend]
  constructor
  · intro d n t
    cases n with
    | zero => exact ⟨r, rfl⟩
    | succ n =>
      rw [seriesFrom, current_bind, if_neg hend']
      rcases hnext d with hitem | ⟨a, r₁, hitem, hrest⟩
      · exact hitem.left
      · exact .right hitem (hrest n _)
  · intro d n
    rw [seriesOf, current_bind, if_neg hend']
    rcases hnext d with hitem | ⟨a, r₁, hitem, hrest⟩
    · exact hitem.left
    · exact .right hitem (hrest n a)

theorem Stalls.hangs {k : Reader} (h : k.Stalls r) : k.Hangs r := by
  induction h with
  | @stop r hstop =>
    have hend : CharClass.bracketEnd.has r.scanner.current = false := by rw [hstop]; rfl
    refine hangs_series hend fun d => ?_
    cases d with
    | zero => exact .inl ⟨r, rfl⟩
    | succ d =>
      have hmissing : expressionWithin (d + 1) r = .ok .missing r := by
        rw [expressionWithin, current_bind, hstop]
        rfl
      refine .inr ⟨.missing, r, hmissing, fun n t => ⟨r, ?_⟩⟩
      exact seriesFrom_missing hmissing (by simp [hend]) n t
  | item hend _ ih => exact hangs_series hend fun d => .inl (ih d)
  | @next r r₁ n t hend hitem _ ih =>
    refine hangs_series hend fun d => ?_
    rcases Refines.of_ok Refines.expressionWithin hitem d with hendless | hok
    · exact .inl hendless
    · exact .inr ⟨t, r₁, hok, ih.1 d⟩
  | inBracket hopen _ ih =>
    intro d n
    exact .right hopen (ih.2 d n).left
  | inFunction hopen harg hmore hstop _ ih =>
    intro d n
    apply Endless.right hopen
    apply Endless.right harg
    rcases Refines.of_ok Refines.arguments hmore n with hendless | hok
    · exact hendless.left
    · exact .right hok (.right hstop (ih.2 d n).left)
  | @bracket r hstart _ ih =>
    intro n
    cases n with
    | zero => exact ⟨r, rfl⟩
    | succ n =>
      rw [expressionWithin, current_bind, if_pos hstart]
      exact ih n n
  | @function r hstart _ ih =>
    intro n
    cases n with
    | zero => exact ⟨r, rfl⟩
    | succ n =>
      have hbracket : ¬ CharClass.bracketStart.has r.scanner.current = true := by
        have hcurrent : r.scanner.current = some '[' := by simpa [CharClass.has] using hstart
        rw [hcurrent]
        decide
      rw [expressionWithin, current_bind, if_neg hbracket, if_pos hstart]
      exact ih n n

/-! ### Bounds that are enough -/

/-- Where nothing is read although no bracket is closed, a full stop is in hand. -/
theorem current_of_missing {depth : Nat} (hr : r.scanner.Settled)
    (hend : CharClass.bracketEnd.has r.scanner.current = false)
    (h : expressionWithin depth r = .ok .missing r') : r.scanner.current = some '.' := by
  cases depth with
  | zero => cases h
  | succ depth =>
    rw [expressionWithin, current_bind] at h
    split at h
    · exact (read_of_bracketOf (reads_expressionWithin depth) h).lexical.elim
    split at h
    · exact (read_of_functionOf (reads_expressionWithin depth) h).lexical.elim
    split at h
    · obtain ⟨x, r₁, -, hgo⟩ := Outcome.bind_eq_ok h
      cases hgo
    · next hbracket hfunction hname =>
      unfold Scanner.Settled at hr
      cases hk : r.scanner.current with
      | none =>
        rw [hk] at hend
        cases hend
      | some c =>
        rw [hk] at hr hend hbracket hfunction hname
        have hc : c ∈ CharClass.blanks ++ ['(', ')', '[', ']', '.'] :=
          Decidable.of_not_not fun hc => hname (isNameChar_iff.mpr hc)
        rcases List.mem_append.mp hc with hblank | hmark
        · simp [CharClass.has, hblank] at hr
        -- the full stop is the only mark that neither opens nor closes anything
        · simp only [List.mem_cons, List.not_mem_nil, or_false] at hmark
          rcases hmark with rfl | rfl | rfl | rfl | rfl
          · exact absurd rfl hbracket
          · cases hend
          · exact absurd rfl hfunction
          · cases hend
          · rfl

/-- The bound is enough for expressions of the texts below it that do not stall. -/
def Enough (d : Nat) : Prop :=
  ∀ r : Reading, r.scanner.Settled → r.scanner.remaining < d → Endless (expressionWithin d r) →
    Stalls expression r

section Enough

variable {d n : Nat} (hd : Enough d) (hr : r.scanner.Settled)

include hd hr

/-- A bound that is exceeded in a series is exceeded by its next expression, by what comes
after it, or by expressions that are not there. -/
theorem stalls_series_step (hlt : r.scanner.remaining < d)
    (hend : CharClass.bracketEnd.has r.scanner.current = false) {f : Term → Parse Term}
    (h : Endless ((expressionWithin d >>= f) r))
    (hrest : ∀ a r₁, Ahead r r₁ → Endless (f a r₁) → Stalls series r₁) : Stalls series r := by
  rcases h.of_bind with hitem | ⟨a, r₁, hitem, hf⟩
  · exact .item hend (hd r hr hlt hitem)
  · by_cases ha : a = .missing
    · subst ha
      exact .stop (current_of_missing hr hend hitem)
    · exact .next hend hitem (hrest a r₁ (ahead_expressionWithin hitem ha) hf)

theorem stalls_of_seriesFrom (hlt : r.scanner.remaining < d) (hn : r.scanner.remaining < n)
    {t : Term} (h : Endless (seriesFrom (expressionWithin d) n t r)) : Stalls series r := by
  induction n generalizing r t with
  | zero => exact absurd hn (Nat.not_lt_zero _)
  | succ n ih =>
    rw [seriesFrom, current_bind] at h
    split at h
    · exact absurd h Endless.not_ok
    · next hend =>
      refine stalls_series_step hd hr hlt (eq_false_of_ne_true hend) h fun a r₁ hahead hrest => ?_
      have hshorter := hahead.shorter
      exact ih hahead.settled (by omega) (by omega) hrest

theorem stalls_of_seriesOf (hlt : r.scanner.remaining < d) (hn : r.scanner.remaining < n)
    (h : Endless (seriesOf (expressionWithin d) n r)) : Stalls series r := by
  rw [seriesOf, current_bind] at h
  split at h
  · exact absurd h Endless.not_ok
  · next hend =>
    refine stalls_series_step hd hr hlt (eq_false_of_ne_true hend) h fun a r₁ hahead hrest => ?_
    have hshorter := hahead.shorter
    exact stalls_of_seriesFrom hd hahead.settled (by omega) (by omega) hrest

end Enough

section Enough

variable {d n : Nat} (hd : Enough d) (hle : r.scanner.remaining ≤ d) (hn : r.scanner.remaining ≤ n)

include hd hle hn

theorem stalls_of_bracketOf (h : Endless (bracketOf (expressionWithin d) n r)) :
    Stalls bracket r := by
  rcases h.of_bind with hopen | ⟨l, r₁, hopen, h₁⟩
  · exact absurd hopen (Ends.expect "(" r)
  have hahead := ahead_expect (by decide) hopen
  have hshorter := hahead.shorter
  rcases h₁.of_bind with hseries | ⟨t, r₂, -, hclose⟩
  · exact .inBracket hopen
      (stalls_of_seriesOf hd hahead.settled (by omega) (by omega) hseries)
  · exact absurd hclose (Ends.bind (Ends.expectUnlessAtEnd ")") (fun _ => Ends.pure _) r₂)

theorem stalls_of_functionOf (h : Endless (functionOf (expressionWithin d) n r)) :
    Stalls function r := by
  rcases h.of_bind with hopen | ⟨l, r₁, hopen, h₁⟩
  · exact absurd hopen (Ends.expect "[" r)
  rcases h₁.of_bind with harg | ⟨a, r₂, harg, h₂⟩
  · exact absurd harg (Ends.argument r₁)
  have hopened := (ahead_expect (by decide) hopen).shorter
  have hargued := (ahead_argument harg).shorter
  rcases h₂.of_bind with hmore | ⟨more, r₃, hmore, h₃⟩
  · exact absurd hmore (not_endless_arguments (by omega))
  rcases h₃.of_bind with hstop | ⟨u, r₄, hstop, h₄⟩
  · exact absurd hstop (Ends.expectUnlessAtEnd "." r₃)
  have hahead := ahead_head hopen harg hmore hstop
  have hshorter := hahead.shorter
  rcases h₄.of_bind with hseries | ⟨t, r₅, -, hclose⟩
  · exact .inFunction hopen harg hmore hstop
      (stalls_of_seriesOf hd hahead.settled (by omega) (by omega) hseries)
  · exact absurd hclose (Ends.bind (Ends.expectUnlessAtEnd "]") (fun _ => Ends.pure _) r₅)

end Enough

theorem enough (d : Nat) : Enough d := by
  induction d with
  | zero => exact fun r _ hlt => absurd hlt (Nat.not_lt_zero _)
  | succ d ih =>
    intro r _ hlt h
    have hle : r.scanner.remaining ≤ d := Nat.lt_succ_iff.mp hlt
    rw [expressionWithin, current_bind] at h
    split at h
    · next hstart => exact .bracket hstart (stalls_of_bracketOf ih hle hle h)
    split at h
    · next hstart => exact .function hstart (stalls_of_functionOf ih hle hle h)
    split at h
    · exact absurd h (Ends.bind Ends.name (fun _ => Ends.pure _) r)
    · exact absurd h Endless.not_ok

/-- With one round more than there are characters, a bound is exceeded only where the reading
stalls. -/
theorem stalls_of_endless {k : Reader} {n : Nat} (hr : r.scanner.Settled)
    (hlt : r.scanner.remaining < n) (h : Endless (k.within n r)) : k.Stalls r := by
  cases k with
  | expression => exact enough n r hr hlt h
  | series => exact stalls_of_seriesOf (enough n) hr hlt hlt h
  | bracket => exact stalls_of_bracketOf (enough n) (Nat.le_of_lt hlt) (Nat.le_of_lt hlt) h
  | function => exact stalls_of_functionOf (enough n) (Nat.le_of_lt hlt) (Nat.le_of_lt hlt) h

end Reader

end Parse

open Parse in
/-- **Reading comes to an end unless it stalls.**  Let there be no blank in hand.

* A reader whose course leads to a series with a full stop in hand never comes to an end: no
  bound is enough for it.
* Every other one comes to an end with an expression or an input error; each bound above the
  number of remaining characters is enough, and all of them lead to the same.
* Every expression that is read, wherever that is, makes the remaining text shorter. -/
theorem reading_ends_unless_stalled {r : Reading} (hr : r.scanner.Settled) (k : Reader) :
    (k.Stalls r → ∀ n, ∃ r', k.within n r = .error .endless r') ∧
    (¬ k.Stalls r →
      ((∃ t r', k.run r = .ok t r') ∨ ∃ e r', k.run r = .error (.input e) r') ∧
      ∀ n, r.scanner.remaining < n → k.within n r = k.run r) ∧
    ∀ n r₁ t r₂, expressionWithin n r₁ = .ok t r₂ → t ≠ .missing →
      r₂.scanner.remaining < r₁.scanner.remaining := by
  refine ⟨fun h => h.hangs.within, fun h => ?_, fun n r₁ t r₂ hread ht => ?_⟩
  · have hends : ¬ Endless (k.run r) := by
      rw [k.run_eq]
      exact fun hend => h (Reader.stalls_of_endless hr (Nat.lt_succ_self _) hend)
    constructor
    · rcases hrun : k.run r with ⟨t, r'⟩ | ⟨err, r'⟩
      · exact .inl ⟨t, r', rfl⟩
      · cases err with
        | input e => exact .inr ⟨e, r', rfl⟩
        | endless => exact absurd ⟨r', hrun⟩ hends
    · intro n hn
      rw [k.run_eq] at hends ⊢
      rcases k.refines_within (Nat.succ_le_of_lt hn) r with hend | heq
      · exact absurd hend hends
      · exact heq.symm
  · exact (ahead_expressionWithin hread ht).shorter

open Parse in
/-- In `(a/**/.)` the series comes to a full stop; in `(a/*.)` that is part of a comment. -/
theorem reading_ends_unless_stalled_comment :
    let r : Reading := ⟨⟨some '(', "a/**/.)".toList, .start⟩, 0⟩
    let r' : Reading := ⟨⟨some '(', "a/*.)".toList, .start⟩, 0⟩
    Reader.expression.Stalls r ∧ (∀ n, ∃ r₁, expressionWithin n r = .error .endless r₁) ∧
      ¬ Reader.expression.Stalls r' ∧
      ∀ n, r'.scanner.remaining < n → expressionWithin n r' = expression r' := by
  intro r r'
  have hr : r.scanner.Settled := rfl
  have hr' : r'.scanner.Settled := rfl
  have hopen : Outcome.verdict (expect "(") r = .ok [] := by decide +kernel
  have hitem : Outcome.verdict (expressionWithin 1) (Outcome.after (expect "(") r)
      = .ok (.ref "a" .free) := by decide +kernel
  have hstalls : Reader.expression.Stalls r :=
    .bracket rfl (.inBracket (Outcome.eq_ok_of_verdict hopen)
      (.next (by decide +kernel) (Outcome.eq_ok_of_verdict hitem) (.stop (by decide +kernel))))
  have hread : Outcome.verdict expression r' = .ok (.ref "a" .free) := by decide +kernel
  have hends : ¬ Reader.expression.Stalls r' := by
    intro h
    obtain ⟨r₁, hr₁⟩ := h.hangs.within (r'.scanner.remaining + 1)
    cases (Outcome.eq_ok_of_verdict hread).symm.trans hr₁
  exact ⟨hstalls, (reading_ends_unless_stalled hr .expression).1 hstalls, hends,
    ((reading_ends_unless_stalled hr' .expression).2.1 hends).2⟩

end LambdaScript
