/-
LambdaScript/Proofs/Interruptions.lean

An error in a program text has no effect of its own.

A program is read and performed entry by entry, and both change the same session: they
take from the same supply of keys.  Nevertheless the text decides alone which entries
there are and where an error stops the reading.  `Scanner.entries` reads a text to the
end, or to the error, and performs nothing.

That the two can be taken apart rests on two facts.  What is read with the supply of a
session is a copy of what is read with any other (`Parse.entry_of_ok`).  And performing
an entry takes no notice of the text (`Act.Blind`), so that the entries can be performed
after each other while the text stays where it was.

Main result: `input_error_has_no_effect`.
-/
import LambdaScript.Proofs.Leftovers
import LambdaScript.Proofs.Supply

namespace LambdaScript

/-! ### Reading without performing -/

/-- The entries of a text, as far as they can be read, and what stops the reading before the
end of the text.  At most `n` entries are read. -/
def Scanner.entries : Nat → Scanner → List Entry × Option Halt
  | 0, _ => ([], some .endless)
  | n + 1, sc =>
    if sc.current.isSome then
      match Parse.entry ⟨sc, 0⟩ with
      | .ok en r => (en :: (Scanner.entries n r.scanner).1, (Scanner.entries n r.scanner).2)
      | .error halt _ => ([], some halt)
    else ([], none)

/-- The entries of a program text that is taken up in a session. -/
def Session.entriesOf (s : Session) (text : List Char) : List Entry × Option Halt :=
  let sc := (Outcome.after (Act.takeUp text) s).reading.scanner
  sc.entries (sc.remaining + 1)

/-- Performs an entry that has been read before, with new functions. -/
def Act.carryOut (en : Entry) : Act Unit := do
  perform (en.withBody (← make en.body.copy))

/-! ### Performing without reading -/

/-- The session with another text in hand. -/
def Session.facing (s : Session) (sc : Scanner) (state : TextState) : Session :=
  { s with reading := { s.reading with scanner := sc }, textState := state }

namespace Act

variable {α β : Type}

/-- With another text in hand the same is done, and it stays in hand. -/
def Blind (act : Act α) : Prop :=
  ∀ s sc state, act (s.facing sc state) = Outcome.map id (·.facing sc state) (act s)

namespace Blind

theorem bind {x : Act α} {f : α → Act β} (hx : Blind x) (hf : ∀ a, Blind (f a)) :
    Blind (x >>= f) := fun s sc state =>
  Outcome.bind_eq_map (hx s sc state) fun a s₁ _ => hf a s₁ sc state

theorem eq_ok {act : Act α} (h : Blind act) {s s' : Session} {a : α} (hact : act s = .ok a s')
    (sc : Scanner) (state : TextState) :
    act (s.facing sc state) = .ok a (s'.facing sc state) := by
  rw [h s sc state, hact]
  rfl

/-- What takes no notice of the text leaves it where it is. -/
theorem scanner_eq {act : Act α} (h : Blind act) {s s' : Session} {a : α}
    (hact : act s = .ok a s') : s'.reading.scanner = s.reading.scanner := by
  have hself : act s = .ok a (s'.facing s.reading.scanner s.textState) := h.eq_ok hact _ _
  rw [hact] at hself
  injection hself with _ hs'
  rw [hs']
  rfl

theorem reduce (execute : Bool) (m : Mode) (p : Place) (t : Term) :
    Blind (reduce execute m p t) := by
  intro s sc state
  have hreduce : LambdaScript.reduceAs t.visit
      ⟨execute, (s.facing sc state).display, (s.facing sc state).limits.rounds⟩
      (s.facing sc state).limits.depth ⟨m, p, (s.facing sc state).trail⟩ t
      ⟨(s.facing sc state).reading.next, []⟩
      = LambdaScript.reduceAs t.visit ⟨execute, s.display, s.limits.rounds⟩ s.limits.depth
        ⟨m, p, s.trail⟩ t ⟨s.reading.next, []⟩ := rfl
  rw [Act.reduce, reduceAs, reduceAs, hreduce]
  rcases LambdaScript.reduceAs t.visit ⟨execute, s.display, s.limits.rounds⟩ s.limits.depth
    ⟨m, p, s.trail⟩ t ⟨s.reading.next, []⟩ with ⟨⟨r, q⟩, e⟩ | ⟨f, e⟩ <;> rfl

theorem tell (label : String) (t : Term) : Blind (tell label t) := by
  intro s sc state
  refine Outcome.bind_eq_map (?_ : textOf t (s.facing sc state) = _) fun text s₁ _ => ?_
  · show ofFault (t.print? s.display) (s.facing sc state)
      = Outcome.map id _ (ofFault (t.print? s.display) s)
    cases t.print? s.display <;> rfl
  · show (if s₁.switches.debug then sayLine _ else pure ()) (s₁.facing sc state)
      = Outcome.map id _ ((if s₁.switches.debug then sayLine _ else pure ()) s₁)
    split <;> rfl

theorem perform (en : Entry) : Blind (perform en) := by
  intro s sc state
  cases en with
  | define a t reduced =>
    cases reduced with
    | false => rfl
    | true =>
      let whole : Act Term := Act.reduce false .normal (.whole (s.table.bind a t) a) t
      show (whole >>= Act.bind a) ({ s with table := s.table.bind a t }.facing sc state)
        = Outcome.map id _ ((whole >>= Act.bind a) { s with table := s.table.bind a t })
      have hwhole : Blind whole := reduce false .normal _ t
      exact hwhole.bind (fun _ _ _ _ => rfl) _ sc state
  | execute t =>
    refine Outcome.bind_eq_map (tell _ t s sc state) fun _ s₁ _ => ?_
    have hreduce : Blind (Act.reduce true .normal (.outside s₁.table) t) := reduce true .normal _ t
    exact hreduce.bind (fun r => tell _ r) s₁ sc state

theorem carryOut (en : Entry) : Blind (carryOut en) :=
  bind (fun _ _ _ => rfl) fun _ => perform _

theorem forM_carryOut (es : List Entry) : Blind (es.forM Act.carryOut) := by
  induction es with
  | nil => exact fun _ _ _ => rfl
  | cons en es ih => exact bind (carryOut en) fun _ => ih

end Blind

variable {s s' : Session} {err : InputError}

/-- An error in the text is found by reading, and reading changes nothing else. -/
theorem entry_eq_input_error (h : entry s = .error (.input err) s') :
    ∃ r, Parse.entry s.reading = .error (.input err) r ∧ s' = { s with reading := r } := by
  rcases Outcome.bind_eq_error h with hparse | ⟨en, s₁, -, hperform⟩
  · unfold parse at hparse
    rcases hp : Parse.entry s.reading with ⟨en, r⟩ | ⟨e | -, r⟩ <;> rw [hp] at hparse <;>
      cases hparse
    exact ⟨r, rfl, rfl⟩
  · -- what goes wrong later is never the fault of the text
    cases performed_of_error hperform

/-- An entry that is read and performed is one that can be read ahead and carried out. -/
theorem carryOut_of_entry (h : entry s = .ok () s') :
    ∃ en r, Parse.entry ⟨s.reading.scanner, 0⟩ = .ok en r ∧ s'.reading.scanner = r.scanner ∧
      carryOut en s = .ok () (s'.facing s.reading.scanner s.textState) := by
  obtain ⟨en', s₁, hparse, hperform⟩ := Outcome.bind_eq_ok h
  obtain ⟨r', hr', rfl⟩ := parse_eq_ok hparse
  rcases hread : Parse.entry ⟨s.reading.scanner, 0⟩ with ⟨en, r⟩ | ⟨halt, r⟩
  · cases (Parse.entry_of_ok hread s.reading.next).symm.trans hr'
    have hblind := Blind.perform (en.withBody (en.body.copy s.reading.next).1)
    exact ⟨en, r, rfl, hblind.scanner_eq hperform,
      hblind.eq_ok hperform s.reading.scanner s.textState⟩
  · cases (Parse.entry_of_error hread s.reading.next).symm.trans hr'

/-- Where an error in the text stops a program, the entries before it have been performed. -/
theorem entries_eq_input_error {n : Nat} (h : entries n s = .error (.input err) s') :
    ∃ es s₁, s.reading.scanner.entries n = (es, some (.input err)) ∧
      es.forM carryOut s = .ok () s₁ ∧
      ∃ r state, s' = { s₁ with reading := r, textState := state } := by
  induction n generalizing s with
  | zero => cases h
  | succ n ih =>
    have hcurrent : parse Parse.current s = .ok s.reading.scanner.current s := rfl
    rw [entries, Outcome.bind_of_ok hcurrent] at h
    split at h
    · next hsome =>
      rw [Scanner.entries, if_pos hsome]
      rcases Outcome.bind_eq_error h with hentry | ⟨⟨⟩, s₂, hentry, hrest⟩
      · obtain ⟨r, hr, rfl⟩ := entry_eq_input_error hentry
        refine ⟨[], s, ?_, rfl, r, s.textState, rfl⟩
        rcases hread : Parse.entry ⟨s.reading.scanner, 0⟩ with ⟨en, r₀⟩ | ⟨halt, r₀⟩
        · cases (Parse.entry_of_ok hread s.reading.next).symm.trans hr
        · cases (Parse.entry_of_error hread s.reading.next).symm.trans hr
          rfl
      · obtain ⟨en, r, hread, hscanner, hcarried⟩ := carryOut_of_entry hentry
        obtain ⟨es, s₁, hes, hperformed, r', state, rfl⟩ := ih hrest
        rw [hscanner] at hes
        refine ⟨en :: es, s₁.facing s.reading.scanner s.textState, ?_, ?_, r', state, rfl⟩
        · rw [hread]
          simp only [hes]
        · have hrest := (Blind.forM_carryOut es).eq_ok hperformed s.reading.scanner s.textState
          exact (Outcome.bind_of_ok hcarried).trans hrest
    · cases h

theorem runText_eq_input_error {text : List Char} (h : runText text s = .error (.input err) s') :
    ∃ es s₁, s.entriesOf text = (es, some (.input err)) ∧ es.forM carryOut s = .ok () s₁ ∧
      ∃ r state, s' = { s₁ with reading := r, textState := state } := by
  let sc := (Outcome.after (takeUp text) s).reading.scanner
  have htakeUp : takeUp text s = .ok () (s.facing sc .closed) := rfl
  have hbound : parse Parse.bound (s.facing sc .closed)
      = .ok (sc.remaining + 1) (s.facing sc .closed) := rfl
  rw [runText, Outcome.bind_of_ok htakeUp, Outcome.bind_of_ok hbound] at h
  obtain ⟨es, s₁, hes, hperformed, r, state, rfl⟩ := entries_eq_input_error h
  exact ⟨es, s₁.facing s.reading.scanner s.textState, hes,
    (Blind.forM_carryOut es).eq_ok hperformed s.reading.scanner s.textState, r, state, rfl⟩

theorem infoLine_eq_ok (line : String) (s : Session) :
    ∃ output, infoLine line s = .ok () { s with output := output } := by
  show ∃ output, (if s.switches.info then sayLine line else pure ()) s = .ok () _
  split
  · exact ⟨_, rfl⟩
  · exact ⟨s.output, rfl⟩

end Act

/-- **An error in a program text has no effect of its own.**  When a program is stopped by an
error in its text, the text decides alone which entries can be read before the error, and
which error it is.  The session is what it would be if these entries were performed, one after
the other, without an error and without the text; only the text that is in hand is another.
An entry that cannot be read changes nothing but how far the text has been read. -/
theorem input_error_has_no_effect :
    (∀ {s : Session} {path : String} {err : InputError},
      Outcome.verdict (Act.runFile path) s = .error (.input err) →
      ∃ text es s₁, s.text path = .ok text ∧ s.entriesOf text = (es, some (.input err)) ∧
        (do
          Act.infoLine ("Interpreting file at \"" ++ path ++ "\"...")
          es.forM Act.carryOut) s = .ok () s₁ ∧
        ∃ r state, Outcome.after (Act.runFile path) s
          = { s₁ with reading := r, textState := state }) ∧
    ∀ {s : Session} {err : InputError}, Outcome.verdict Act.entry s = .error (.input err) →
      ∃ r, Outcome.after Act.entry s = { s with reading := r } := by
  refine ⟨?_, ?_⟩
  · intro s path err h
    have hrun := Outcome.eq_error_of_verdict h
    obtain ⟨output, hinfo⟩ :=
      Act.infoLine_eq_ok ("Interpreting file at \"" ++ path ++ "\"...") s
    rw [Act.runFile, Outcome.bind_of_ok hinfo] at hrun
    let s₀ : Session := { s with output := output }
    have hget : (get : Act Session) s₀ = .ok s₀ s₀ := rfl
    have htext₀ : s₀.text path = s.text path := rfl
    rw [Outcome.bind_of_ok hget, htext₀] at hrun
    rcases htext : s.text path with fault | text
    · -- without a text there is no error in it
      rw [htext] at hrun
      cases fault <;> cases hrun
    · rw [htext] at hrun
      rcases Outcome.bind_eq_error hrun with hrun | ⟨⟨⟩, s₂, -, hfinish⟩
      · obtain ⟨es, s₁, hes, hperformed, hafter⟩ := Act.runText_eq_input_error hrun
        exact ⟨text, es, s₁, rfl, hes, (Outcome.bind_of_ok hinfo).trans hperformed, hafter⟩
      · obtain ⟨output', hok⟩ :=
          Act.infoLine_eq_ok ("Finished interpreting file at \"" ++ path ++ "\".") s₂
        cases hok.symm.trans hfinish
  · intro s err h
    obtain ⟨r, -, hs'⟩ := Act.entry_eq_input_error (Outcome.eq_error_of_verdict h)
    exact ⟨r, hs'⟩

/-- The third entry defines `a` again, by a function with a keyword for a name. -/
theorem input_error_has_no_effect_redefinition :
    let text := "def a [x. x] do (print a) def a [y do. y]"
    let s := (Session.starting ⟨50, 50⟩).withFile "p" text
    let s' := Outcome.after (Act.runFile "p") s
    let err : InputError := ⟨.keyword "do", ⟨1, 39⟩⟩
    let a : Term := .lam ⟨0, false⟩ "x" (.ref "x" (.binder ⟨0, false⟩))
    let es : List Entry :=
      [.define "a" a true, .execute (.app (.ref "print" .free) (.ref "a" .free))]
    Outcome.verdict (Act.runFile "p") s = .error (.input err) ∧
      s.entriesOf text.toList = (es, some (.input err)) ∧ s'.table.find? "a" = some ⟨"a", a⟩ ∧
      ∃ s₁, (do
          Act.infoLine ("Interpreting file at \"" ++ "p" ++ "\"...")
          es.forM Act.carryOut) s = .ok () s₁ ∧
        s'.table = s₁.table ∧ s'.trail = s₁.trail ∧ s'.output = s₁.output := by
  intro text s s' err a es
  have hfails : Outcome.verdict (Act.runFile "p") s = .error (.input err) := by decide +kernel
  have hes : s.entriesOf text.toList = (es, some (.input err)) := by decide +kernel
  have ha : s'.table.find? "a" = some ⟨"a", a⟩ := by decide +kernel
  have htext : s.text "p" = .ok text.toList := by decide +kernel
  obtain ⟨_, _, s₁, htext', hes', hperformed, r, state, hafter⟩ :=
    input_error_has_no_effect.1 hfails
  cases htext.symm.trans htext'
  cases hes.symm.trans hes'
  have hs' : s' = { s₁ with reading := r, textState := state } := hafter
  exact ⟨hfails, hes, ha, s₁, hperformed, by rw [hs'], by rw [hs'], by rw [hs']⟩

end LambdaScript
