/-
LambdaScript/Proofs/Memories.lean

Sessions whose expressions are objects.

A memory shows a session (`Memory.Shows`) when it has the same surroundings and the same
trail, and when its definitions are separate trees of the terms in the session's table.
Whatever a program does in the memory it does in the session, and the memory goes on to
show the session: for one entry this comes from the readers and the reducers being in step
(`Construction`, `Refinement`), and from there it goes to programs and to sequences of
programs.  So every memory that occurs shows a session that occurs, and every session that
occurs is shown by such a memory.

Main results:

* `definitions_of_reachable`: in every memory that occurs the definitions are separate, and
  they are well formed;
* `entry_frame`: an entry writes into no definition but the one that it makes.
-/
import LambdaScript.Proofs.Construction
import LambdaScript.Proofs.Framing
import LambdaScript.Proofs.Refinement
import LambdaScript.Proofs.Sessions

namespace LambdaScript

namespace Memory

/-- The memory has the surroundings and the trail of the session. -/
structure Agrees (m : Memory) (s : Session) : Prop where
  surroundings : s.toSurroundings = m.toSurroundings
  trail : m.trail.map Pointer.visit = s.trail

/-- The memory has the definitions of the session as well, as separate trees. -/
structure Shows (m : Memory) (s : Session) : Prop extends m.Agrees s where
  keeps : m.Keeps s.table

end Memory

/-! ### Reducing -/

variable {m m₁ m' : Memory} {s s' : Session} {T T' : Tree} {F : Forest}

/-- Both have reduced the expression, and only its own objects and new ones have been
written. -/
def Reduced (m : Memory) (s : Session) (T : Tree) (p : Pointer) (m' : Memory) (t : Term)
    (s' : Session) : Prop :=
  ∃ T' : Tree, T'.pointer = p ∧ T'.term = t ∧ Built T.objects m m' T' ∧ m'.roots = m.roots ∧
    m'.Agrees s' ∧ s'.table = s.table

/-- Both have failed with the same error. -/
structure Stuck (m : Memory) (T : Tree) (err : SessionError) (m' : Memory) (err' : SessionError)
    (s' : Session) : Prop where
  error : err' = err
  shows : m'.Shows s'
  touches : Touches T.objects m m'
  roots : m'.roots = m.roots

theorem Op.reduce_inStep (execute : Bool) (mode : Mode) {place : Place} {os : List Pointer}
    (hs : m.Agrees s) (hT : Working m place T os) :
    InStep (Reduced m s T) (Stuck m T) (Op.reduce execute mode T.pointer m)
      (Act.reduce execute mode place T.term s) := by
  obtain ⟨_, table, trail⟩ := s
  obtain rfl : _ = m.toSurroundings := hs.surroundings
  have hpaired : Paired m.output ⟨execute, m.display, m.limits.rounds⟩ m ⟨mode, place, trail⟩ T os
      ⟨m.reading.next, []⟩ :=
    ⟨hT, rfl, rfl, hs.trail, by simp [Memory.worked]⟩
  have hstep := reduceWithin_tracks ⟨execute, m.display, m.limits.rounds⟩ m.limits.depth hpaired
  show InStep _ _ (Op.reduceWithin execute m.limits.depth mode T.pointer m) _
  rw [Act.reduce, Act.reduceAs, LambdaScript.reduceAs_visit]
  rcases hstep.ok_or_error with ⟨_, m', r, e', hop, hvalue, T', around, rfl, hterm, hbuilt, -,
    hrest⟩ | ⟨err, m', f, e', hop, hvalue, hfailed⟩
  · rw [hop, hvalue]
    refine ⟨T', rfl, hterm, hbuilt, congrArg (·.roots) hrest, ⟨?_, ?_⟩, rfl⟩
    · exact (congrArg (·.toSurroundings) hrest).symm
    · exact (congrArg (·.trail.map Pointer.visit) hrest).trans hs.trail
  · rw [hop, hvalue]
    refine ⟨hfailed.fault.symm, ⟨⟨?_, hfailed.trail⟩, hfailed.keeps⟩, hfailed.touches,
      congrArg (·.roots) hfailed.rest⟩
    exact (congrArg (·.toSurroundings) hfailed.rest).symm

/-! ### Entries -/

/-- The memory after something has been printed. -/
def Memory.printed (m : Memory) (output : String) : Memory := { m with output := output }

theorem Memory.Agrees.printed (h : m.Agrees s) (output : String) :
    (m.printed output).Agrees { s with output := output } where
  surroundings := congrArg (fun w : Surroundings => { w with output := output }) h.surroundings
  trail := h.trail

namespace Act

theorem tell_of_error {label : String} {t : Term} {fault : Fault}
    (h : t.print? s.display = .error fault) : tell label t s = .error (.fault fault) s := by
  have htext : textOf t s = .error (.fault fault) s := by
    show ofFault (t.print? s.display) s = _
    rw [h]
    rfl
  exact Outcome.bind_of_error htext

theorem tell_of_ok {label text : String} {t : Term} (h : t.print? s.display = .ok text) :
    tell label t s = .ok () { s with output :=
      if s.switches.debug then s.output ++ (label ++ text ++ "\n") else s.output } := by
  have htext : textOf t s = .ok text s := by
    show ofFault (t.print? s.display) s = _
    rw [h]
    rfl
  refine (Outcome.bind_of_ok htext).trans ?_
  show (if s.switches.debug then sayLine _ else pure ()) s = _
  cases hdebug : s.switches.debug <;> rfl

end Act

/-- Both tell the same expression. -/
theorem Op.tell_inStep (label : String) (hs : m.Agrees s) (hT : T.Lies m) :
    InStep (fun _ m' _ s' => ∃ output, m' = m.printed output ∧ s' = { s with output := output })
      (fun err m' err' s' => err' = err ∧ m' = m ∧ s' = s)
      (Op.tell label T.pointer m) (Act.tell label T.term s) := by
  obtain ⟨_, table, trail⟩ := s
  obtain rfl : _ = m.toSurroundings := hs.surroundings
  have hop : Op.tell label T.pointer m = Op.aside (Act.tell label T.term) m := by
    rw [← hT.read_eq]
    rfl
  rw [hop, Op.aside]
  cases hprint : T.term.print? m.display with
  | error fault =>
    rw [Act.tell_of_error (s := m.bare) hprint, Act.tell_of_error hprint]
    exact ⟨rfl, rfl, rfl⟩
  | ok text =>
    rw [Act.tell_of_ok (s := m.bare) hprint, Act.tell_of_ok hprint]
    exact ⟨_, rfl, rfl⟩

/-- What an entry leaves of the definitions: all of them, or all but the one that it makes. -/
def Statement.Leaves (F : Forest) (m : Memory) : Statement → Prop
  | define a _ _ => ∃ T, (F.bind a T).Lies m
  | execute _ => F.Lies m

theorem Memory.touches_printed (m : Memory) (output : String) : Touches [] m (m.printed output) :=
  .of_store [] rfl rfl

theorem Forest.Lies.printed (h : F.Lies m) (output : String) : F.Lies (m.printed output) :=
  h.kept (m.touches_printed output) rfl

theorem Tree.Lies.printed (h : T.Lies m) (output : String) : T.Lies (m.printed output) :=
  (m.touches_printed output).lies_of_nil h

theorem Op.execute_inStep (hs : m.Agrees s) (hF : F.Lies m) (htable : F.table = s.table)
    (hT : T.Lies m) (hapart : ∀ o ∈ T.objects, o ∉ F.objects) :
    InStep (fun _ m' _ s' => F.Lies m' ∧ m'.Shows s')
      (fun err m' err' s' => err' = err ∧ F.Lies m' ∧ m'.Shows s')
      (Op.perform (.execute T.pointer) m) (Act.perform (.execute T.term) s) := by
  refine (Op.tell_inStep "EXECUTE    " hs hT).bind_of_imp ?_ ?_
  · rintro err _ _ _ ⟨rfl, rfl, rfl⟩
    exact ⟨rfl, hF, ⟨hs, F, hF, htable⟩⟩
  rintro _ _ _ _ ⟨output, rfl, rfl⟩
  have hF₁ := hF.printed output
  have hT₁ := hT.printed output
  have hplace : Place.outside s.table = .outside F.table := by rw [htable]
  show InStep _ _ ((Op.reduce true .normal T.pointer >>= _) (m.printed output))
    ((Act.reduce true .normal (.outside s.table) T.term >>= _) { s with output := output })
  rw [hplace]
  refine (Op.reduce_inStep true .normal (hs.printed output)
    (.outside hF₁ hT₁ hapart)).bind_of_imp ?_ ?_
  · rintro err m' _ s' h
    have hF' := hF₁.touched h.touches (fun o ho ho' => hapart o ho' ho) h.roots
    exact ⟨h.error, hF', h.shows⟩
  rintro _ m' _ s' ⟨T', rfl, rfl, hbuilt, hroots, hs', htable'⟩
  -- what has been written is the expression itself, and it is part of no definition
  have hF' := hF₁.touched hbuilt.touches (fun o ho ho' => hapart o ho' ho) hroots
  refine (Op.tell_inStep "Finally    " hs' hbuilt.lies).imp ?_ ?_
  · rintro _ _ _ _ ⟨output', rfl, rfl⟩
    have hF'' := hF'.printed output'
    exact ⟨hF'', hs'.printed output', F, hF'', htable.trans htable'.symm⟩
  · rintro err _ _ _ ⟨rfl, rfl, rfl⟩
    exact ⟨rfl, hF', hs', F, hF', htable.trans htable'.symm⟩

/-- The memory after a name has been bound. -/
def Memory.binding (m : Memory) (a : String) (p : Pointer) : Memory :=
  { m with roots := Root.bindIn a p m.roots }

theorem Root.bindIn_bindIn (a : String) (p q : Pointer) (l : List Root) :
    bindIn a q (bindIn a p l) = bindIn a q l := by
  induction l with
  | nil => simp [bindIn]
  | cons r rest ih => by_cases h : r.name = a <;> simp [bindIn, h, ih]

/-- A tree is bound to a name, and the other definitions have not been written. -/
theorem Forest.Lies.bind {a : String} {os : List Pointer} (hF : F.Lies m) (ht : Touches os m m')
    (hos : ∀ o ∈ (F.others a).objects, o ∉ os) (hT : T.Lies m')
    (hapart : ∀ o ∈ T.objects, o ∉ (F.others a).objects)
    (hroots : m'.roots = Root.bindIn a T.pointer m.roots) : (F.bind a T).Lies m' := by
  have hhas : ∀ o ∈ (F.others a).objects, m.Has o := fun o ho =>
    hF.has o ((F.objects_others a).subset ho)
  have hnodup : (T.objects ++ (F.others a).objects).Nodup :=
    List.nodup_append.mpr ⟨hT.nodup, hF.stands.nodup.sublist (F.objects_others a),
      fun o ho _ ho' h => hapart o ho (h ▸ ho')⟩
  refine ⟨hF.stands.bind (fun o ho => ht.same o (hhas o ho) (hos o ho)) hT.stands hnodup hroots,
    fun o ho => ?_⟩
  rcases List.mem_append.mp ((F.objects_bind a T).mem_iff.mp ho) with ho | ho
  · exact hT.has o ho
  · exact ht.has (hhas o ho)

section Binding

variable {a : String} (hF : F.Lies m) (hT : T.Lies m) (hapart : ∀ o ∈ T.objects, o ∉ F.objects)
include hF hapart

/-- The body of a new definition is part of no other one. -/
theorem Forest.Lies.others_apart : ∀ o ∈ (F.others a).objects, m.Has o ∧ o ∉ T.objects :=
  fun o ho => ⟨hF.has o ((F.objects_others a).subset ho), fun ho' =>
    hapart o ho' ((F.objects_others a).subset ho)⟩

include hT in
theorem Forest.Lies.binding : (F.bind a T).Lies (m.binding a T.pointer) := by
  have htouches : Touches [] m (m.binding a T.pointer) := .of_store [] rfl rfl
  exact hF.bind htouches (fun _ _ => List.not_mem_nil) (htouches.lies_of_nil hT)
    (fun o ho ho' => (hF.others_apart hapart o ho').2 ho) rfl

/-- The body has been reduced, and what has come out of it takes its place. -/
theorem Forest.Lies.rebinding (hbuilt : Built T.objects (m.binding a T.pointer) m' T')
    (hroots : m'.roots = (m.binding a T.pointer).roots) :
    (F.bind a T').Lies (m'.binding a T'.pointer) := by
  have hothers := hF.others_apart (a := a) hapart
  have hstart : Touches T.objects m (m.binding a T.pointer) := .of_store _ rfl rfl
  have hend : Touches [] m' (m'.binding a T'.pointer) := .of_store [] rfl rfl
  have htouches : Touches T.objects m (m'.binding a T'.pointer) :=
    (hstart.trans hbuilt.touches fun _ ho => .inl ho).trans hend fun _ ho =>
      (List.not_mem_nil ho).elim
  have hapart' : ∀ o ∈ T'.objects, o ∉ (F.others a).objects := fun o ho ho' =>
    hbuilt.apart (hstart.has (hothers o ho').1) (hothers o ho').2 ho
  have hroots' : (m'.binding a T'.pointer).roots = Root.bindIn a T'.pointer m.roots := by
    show Root.bindIn a T'.pointer m'.roots = _
    rw [hroots]
    exact Root.bindIn_bindIn a _ _ _
  exact hF.bind htouches (fun o ho => (hothers o ho).2) (hend.lies_of_nil hbuilt.lies) hapart'
    hroots'

/-- The body cannot be reduced.  The definitions are still separate, and those of other names
are where they were. -/
theorem Stuck.exists_bind {err err' : SessionError}
    (h : Stuck (m.binding a T.pointer) T err m' err' s') : ∃ T', (F.bind a T').Lies m' := by
  obtain ⟨F', hF', -⟩ := h.shows.keeps
  have hstart : Touches [] m (m.binding a T.pointer) := .of_store [] rfl rfl
  have hstands : ∀ e ∈ F.others a, e.2.Stands m'.store := fun e he => by
    have hlies := hstart.lies_of_nil (hF.tree (List.mem_of_mem_eraseP he))
    exact (h.touches.lies hlies fun o ho =>
      (hF.others_apart hapart o (Forest.mem_objects he ho)).2).stands
  have hroots : F'.roots = Root.bindIn a T.pointer F.roots := by
    rw [hF'.stands.roots_eq, h.roots, hF.stands.roots_eq]
    rfl
  -- a tree is determined by the store, so only the one of `a` may be another
  obtain ⟨T', rfl⟩ := Forest.eq_bind_of_roots hstands hF'.stands.trees hroots
  exact ⟨T', hF'⟩

end Binding

theorem Op.define_inStep {a : String} {reduced : Bool} (hs : m.Agrees s) (hF : F.Lies m)
    (htable : F.table = s.table) (hT : T.Lies m) (hapart : ∀ o ∈ T.objects, o ∉ F.objects) :
    InStep (fun _ m' _ s' => (∃ T', (F.bind a T').Lies m') ∧ m'.Shows s')
      (fun err m' err' s' => err' = err ∧ (∃ T', (F.bind a T').Lies m') ∧ m'.Shows s')
      (Op.perform (.define a T.pointer reduced) m)
      (Act.perform (.define a T.term reduced) s) := by
  have hs₁ : (m.binding a T.pointer).Agrees { s with table := s.table.bind a T.term } :=
    ⟨hs.surroundings, hs.trail⟩
  cases reduced with
  | false =>
    have hF₁ := hF.binding (a := a) hT hapart
    refine ⟨⟨T, hF₁⟩, hs₁, _, hF₁, ?_⟩
    rw [Forest.table_bind, htable]
  | true =>
    have hplace : Place.whole (s.table.bind a T.term) a = .whole (F.table.bind a T.term) a := by
      rw [htable]
    show InStep _ _ ((Op.reduce false .normal T.pointer >>= _) (m.binding a T.pointer))
      ((Act.reduce false .normal (.whole (s.table.bind a T.term) a) T.term >>= _)
        { s with table := s.table.bind a T.term })
    rw [hplace]
    refine (Op.reduce_inStep false .normal hs₁
      (.whole hF hT hapart rfl rfl rfl)).bind_of_imp ?_ ?_
    · exact fun err m' _ s' h => ⟨h.error, h.exists_bind hF hapart, h.shows⟩
    · rintro _ m' _ s' ⟨T', rfl, rfl, hbuilt, hroots, hs', htable'⟩
      have hF₁ := hF.rebinding hapart hbuilt hroots
      refine ⟨⟨T', hF₁⟩, ⟨hs'.surroundings, hs'.trail⟩, _, hF₁, ?_⟩
      show (F.bind a T').table = s'.table.bind a T'.term
      rw [Forest.table_bind, htable, htable']
      exact (Table.bind_bind s.table a T.term T'.term).symm

/-- **An entry is performed in step**, and leaves the definitions of other names where they
are. -/
theorem Op.perform_inStep {st : Statement} {en : Entry} (hst : Presents T st en)
    (hs : m.Agrees s) (hF : F.Lies m) (htable : F.table = s.table) (hT : T.Lies m)
    (hapart : ∀ o ∈ T.objects, o ∉ F.objects) :
    InStep (fun _ m' _ s' => st.Leaves F m' ∧ m'.Shows s')
      (fun err m' err' s' => err' = err ∧ st.Leaves F m' ∧ m'.Shows s')
      (Op.perform st m) (Act.perform en s) := by
  cases hst with
  | define a reduced => exact Op.define_inStep hs hF htable hT hapart
  | execute => exact Op.execute_inStep hs hF htable hT hapart

/-! ### Programs -/

/-- Both have ended in the same way, and the memory shows the session. -/
abbrev ShownInStep : EStateM.Result SessionError Memory Unit →
    EStateM.Result SessionError Session Unit → Prop :=
  InStep (fun _ m' _ s' => m'.Shows s') fun err m' err' s' => err' = err ∧ m'.Shows s'

theorem Memory.Shows.moved (h : m.Shows s) {store : Store} {r : Reading}
    (ht : Touches [] m (m.moved store r)) : (m.moved store r).Shows { s with reading := r } where
  surroundings := congrArg (fun w : Surroundings => { w with reading := r }) h.surroundings
  trail := h.trail
  keeps := by
    obtain ⟨F, hF, htable⟩ := h.keeps
    exact ⟨F, hF.kept ht rfl, htable⟩

namespace Op

/-- Both read an entry, or neither does.  Nothing but new objects is written, so the
definitions stay and have nothing in common with the expression that has been read. -/
theorem statement_cases (h : m.Shows s) (hF : F.Lies m) :
    (∃ (err : SessionError) (m₁ : Memory) (s₁ : Session), statement m = .error err m₁ ∧
      Act.parse Parse.entry s = .error err s₁ ∧ F.Lies m₁ ∧ m₁.Shows s₁) ∨
    ∃ (st : Statement) (en : Entry) (T : Tree) (m₁ : Memory) (s₁ : Session),
      statement m = .ok st m₁ ∧ Act.parse Parse.entry s = .ok en s₁ ∧ Presents T st en ∧
      F.Lies m₁ ∧ m₁.Shows s₁ ∧ T.Lies m₁ ∧ ∀ o ∈ T.objects, o ∉ F.objects := by
  have hreading : s.reading = m.reading := congrArg (·.reading) h.surroundings
  have hstep := statement_inStep m
  rw [← hreading] at hstep
  rcases hstep.ok_or_error with ⟨st, m₁, en, _, hop, hparse, T, hT, hbuilt, hon, rfl⟩ |
    ⟨_, m₁, halt, _, hop, hparse, rfl, htouches, hon, rfl⟩
  · refine .inr ⟨st, en, T, m₁, { s with reading := m₁.reading }, hop, ?_, hT,
      hF.kept hbuilt.touches (congrArg (·.roots) hon), ?_, hbuilt.lies, ?_⟩
    · rw [Act.parse, hparse]
    · rw [hon] at hbuilt
      rw [hon]
      exact h.moved hbuilt.touches
    · exact fun o ho ho' => hbuilt.apart (hF.has o ho') List.not_mem_nil ho
  · refine .inl ⟨halt.error, m₁, { s with reading := m₁.reading }, hop, ?_,
      hF.kept htouches (congrArg (·.roots) hon), ?_⟩
    · rw [Act.parse, hparse]
      cases halt <;> rfl
    · rw [hon] at htouches
      rw [hon]
      exact h.moved htouches

/-- **An entry is read and performed in step.** -/
theorem entry_inStep (h : m.Shows s) : ShownInStep (entry m) (Act.entry s) := by
  obtain ⟨F, hF, htable⟩ := h.keeps
  rcases statement_cases h hF with ⟨err, m₁, s₁, hop, hact, -, hs₁⟩ |
    ⟨st, en, T, m₁, s₁, hop, hact, hst, hF₁, hs₁, hT, hapart⟩
  · rw [entry, Act.entry, Outcome.bind_of_error hop, Outcome.bind_of_error hact]
    exact ⟨rfl, hs₁⟩
  · rw [entry, Act.entry, Outcome.bind_of_ok hop, Outcome.bind_of_ok hact]
    have htable₁ : F.table = s₁.table :=
      hF₁.definitions_eq.symm.trans hs₁.keeps.definitions_eq
    exact (perform_inStep hst hs₁.toAgrees hF₁ htable₁ hT hapart).imp
      (fun _ _ _ _ h => h.2) fun _ _ _ _ h => ⟨h.1, h.2.2⟩

theorem entries_inStep (n : Nat) (h : m.Shows s) :
    ShownInStep (entries n m) (Act.entries n s) := by
  induction n generalizing m s with
  | zero => exact ⟨rfl, h⟩
  | succ n ih =>
    have hcurrent : s.reading.scanner.current = m.reading.scanner.current :=
      congrArg (·.reading.scanner.current) h.surroundings
    show ShownInStep
      ((if m.reading.scanner.current.isSome then do entry; entries n else pure () : Op Unit) m)
      ((if s.reading.scanner.current.isSome then do Act.entry; Act.entries n
        else pure () : Act Unit) s)
    rw [hcurrent]
    split
    · exact InStep.bind (entry_inStep h) fun _ _ _ _ h' => ih h'
    · exact h

end Op

/-- The memory with other surroundings. -/
def Memory.withSurroundings (m : Memory) (w : Surroundings) : Memory :=
  { m with toSurroundings := w }

theorem Memory.Shows.withSurroundings (h : m.Shows s) {w : Surroundings}
    (hnext : w.reading.next = m.reading.next) :
    (m.withSurroundings w).Shows ⟨w, s.table, s.trail⟩ where
  surroundings := rfl
  trail := h.trail
  keeps := by
    obtain ⟨F, hF, htable⟩ := h.keeps
    have htouches : Touches [] m (m.withSurroundings w) := .of_store [] rfl hnext
    exact ⟨F, hF.kept htouches rfl, htable⟩

namespace Op

theorem infoLine_inStep (line : String) (h : m.Shows s) :
    ShownInStep (aside (Act.infoLine line) m) (Act.infoLine line s) := by
  obtain ⟨_, table, trail⟩ := s
  obtain rfl : _ = m.toSurroundings := h.surroundings
  have hline : ∀ d tr, Act.infoLine line ⟨m.toSurroundings, d, tr⟩ = .ok ()
      ⟨{ m.toSurroundings with output :=
        if m.switches.info then m.output ++ (line ++ "\n") else m.output }, d, tr⟩ := by
    intro d tr
    show (if m.switches.info then Act.sayLine line else pure () : Act Unit) _ = _
    cases hinfo : m.switches.info <;> rfl
  rw [aside, Memory.bare, hline, hline]
  exact h.withSurroundings rfl

theorem takeUp_inStep (text : List Char) (h : m.Shows s) :
    ShownInStep (aside (Act.takeUp text) m) (Act.takeUp text s) := by
  obtain ⟨_, table, trail⟩ := s
  obtain rfl : _ = m.toSurroundings := h.surroundings
  exact h.withSurroundings rfl

theorem runText_inStep (text : List Char) (h : m.Shows s) :
    ShownInStep (runText text m) (Act.runText text s) := by
  refine InStep.bind (takeUp_inStep text h) fun _ m₁ _ s₁ h₁ => ?_
  have hbound : s₁.reading.scanner.remaining = m₁.reading.scanner.remaining :=
    congrArg (·.reading.scanner.remaining) h₁.surroundings
  show ShownInStep (entries (m₁.reading.scanner.remaining + 1) m₁)
    (Act.entries (s₁.reading.scanner.remaining + 1) s₁)
  rw [hbound]
  exact entries_inStep _ h₁

/-- **A program is run in step.** -/
theorem runFile_inStep (path : String) (h : m.Shows s) :
    ShownInStep (runFile path m) (Act.runFile path s) := by
  refine InStep.bind (infoLine_inStep _ h) fun _ m₁ _ s₁ h₁ => ?_
  have htext : m₁.bare.text path = s₁.text path :=
    congrArg (fun w : Surroundings => (Session.mk w .empty []).text path) h₁.surroundings.symm
  show ShownInStep (((get : Op Memory) >>= _) m₁) (((get : Act Session) >>= _) s₁)
  rw [Outcome.bind_of_ok (show (get : Op Memory) m₁ = .ok m₁ m₁ from rfl),
    Outcome.bind_of_ok (show (get : Act Session) s₁ = .ok s₁ s₁ from rfl), htext]
  rcases s₁.text path with fault | text
  · cases fault <;> exact ⟨rfl, h₁⟩
  · exact InStep.bind (runText_inStep text h₁) fun _ _ _ _ h₂ => infoLine_inStep _ h₂

end Op

/-! ### Memories that occur -/

namespace Memory

/-- The memories that come from the beginning by writing files and running them. -/
inductive Reachable : Memory → Prop
  | starting (limits : Limits) : Reachable (starting limits)
  | written {m : Memory} (path text : String) : Reachable m → Reachable (m.withFile path text)
  | run {m : Memory} (path : String) : Reachable m →
      (∀ err, Outcome.verdict (Op.runFile path) m = .error err → err.isFatal = false) →
      Reachable (Outcome.after (Op.runFile path) m)

/-- The memories in which a program is being run, before one of its entries. -/
inductive Amid : Memory → Prop
  | begun {m : Memory} (text : List Char) : Reachable m →
      Amid (Outcome.after (Op.aside (Act.takeUp text)) m)
  | next {m : Memory} : Amid m → Outcome.verdict Op.entry m = .ok () →
      Amid (Outcome.after Op.entry m)

theorem shows_starting (limits : Limits) : (starting limits).Shows (Session.starting limits) where
  surroundings := rfl
  trail := rfl
  keeps := ⟨[], ⟨⟨rfl, nofun, List.nodup_nil⟩, nofun⟩, rfl⟩

theorem Shows.withFile (h : m.Shows s) (path text : String) :
    (m.withFile path text).Shows (s.withFile path text) := by
  obtain ⟨_, table, trail⟩ := s
  obtain rfl : _ = m.toSurroundings := h.surroundings
  -- a text that is open and of which nothing has been read changes with its file
  by_cases hopen : m.textState = .opened (.ofPath path) false
  · have hfile : ∀ d tr, Session.withFile ⟨m.toSurroundings, d, tr⟩ path text
        = Session.withRest ⟨{ m.toSurroundings with files := m.files.write path text }, d, tr⟩
          (unifyLineEnds text.toList) := fun _ _ => if_pos hopen
    rw [withFile, bare, hfile, hfile]
    exact h.withSurroundings rfl
  · have hfile : ∀ d tr, Session.withFile ⟨m.toSurroundings, d, tr⟩ path text
        = ⟨{ m.toSurroundings with files := m.files.write path text }, d, tr⟩ := fun _ _ =>
      if_neg hopen
    rw [withFile, bare, hfile, hfile]
    exact h.withSurroundings rfl

end Memory

theorem ShownInStep.after {x : Op Unit} {y : Act Unit} (h : ShownInStep (x m) (y s)) :
    (Outcome.after x m).Shows (Outcome.after y s) ∧
      Outcome.verdict x m = Outcome.verdict y s := by
  rw [Outcome.after, Outcome.after, Outcome.verdict, Outcome.verdict]
  rcases InStep.ok_or_error h with ⟨_, m', _, s', hx, hy, h⟩ | ⟨err, m', _, s', hx, hy, rfl, h⟩
  · rw [hx, hy]
    exact ⟨h, rfl⟩
  · rw [hx, hy]
    exact ⟨h, rfl⟩

/-- **Every memory that occurs shows a session that occurs.** -/
theorem Memory.Reachable.shows (h : m.Reachable) : ∃ s : Session, s.Reachable ∧ m.Shows s := by
  induction h with
  | starting limits => exact ⟨_, .starting limits, shows_starting limits⟩
  | written path text _ ih =>
    obtain ⟨s, hs, hshows⟩ := ih
    exact ⟨_, hs.written path text, hshows.withFile path text⟩
  | run path _ hfatal ih =>
    obtain ⟨s, hs, hshows⟩ := ih
    obtain ⟨hafter, hverdict⟩ := (Op.runFile_inStep path hshows).after
    exact ⟨_, hs.run path (hverdict ▸ hfatal), hafter⟩

theorem Memory.Amid.shows (h : m.Amid) : ∃ s : Session, s.Amid ∧ m.Shows s := by
  induction h with
  | begun text hreach =>
    obtain ⟨s, hs, hshows⟩ := hreach.shows
    exact ⟨_, .begun text hs, (Op.takeUp_inStep text hshows).after.1⟩
  | next _ hok ih =>
    obtain ⟨s, hs, hshows⟩ := ih
    obtain ⟨hafter, hverdict⟩ := (Op.entry_inStep hshows).after
    exact ⟨_, hs.next (hverdict ▸ hok), hafter⟩

/-- **Every session that occurs is shown by a memory that occurs.** -/
theorem Session.Reachable.shown (h : s.Reachable) : ∃ m : Memory, m.Reachable ∧ m.Shows s := by
  induction h with
  | starting limits => exact ⟨_, .starting limits, Memory.shows_starting limits⟩
  | written path text _ ih =>
    obtain ⟨m, hm, hshows⟩ := ih
    exact ⟨_, hm.written path text, hshows.withFile path text⟩
  | run path _ hfatal ih =>
    obtain ⟨m, hm, hshows⟩ := ih
    obtain ⟨hafter, hverdict⟩ := (Op.runFile_inStep path hshows).after
    exact ⟨_, hm.run path (hverdict ▸ hfatal), hafter⟩

/-! ### What holds of the definitions -/

/-- **The definitions of a memory are separate.**  After any sequence of programs, whatever
they contain and however they have ended, as long as there is a memory: the definitions are
trees of objects.  Every definition is found under its name, which is not reserved.  No
object occurs twice in the tree of a definition, and no object belongs to two of them; every
reference is free or belongs to a function around it in the same tree, and no argument has a
reserved name. -/
theorem definitions_of_reachable {m : Memory} (h : m.Reachable) :
    ∃ F : Forest, F.roots = m.roots ∧
      (∀ e ∈ F, m.lookUp e.1 = some e.2.pointer ∧ isReserved e.1 = false ∧
        e.2.Stands m.store ∧ e.2.objects.Nodup ∧ e.2.term.Formed []) ∧
      F.Pairwise fun e e' => e.2.objects.Disjoint e'.2.objects := by
  obtain ⟨s, hreach, hshows⟩ := h.shows
  obtain ⟨F, hF, htable⟩ := hshows.keeps
  have hsound : F.table.WellFormed s.reading.next := htable ▸ hreach.sound
  have hnames : (F.map (·.1)).Nodup := by
    have hnodup := hsound.names
    rw [Table.names, Forest.table, List.map_map] at hnodup
    exact hnodup
  obtain ⟨hinside, hbetween⟩ := List.nodup_flatMap.mp hF.stands.nodup
  refine ⟨F, hF.stands.roots_eq, fun e he => ?_, hbetween⟩
  have hmem : (⟨e.1, e.2.term⟩ : Definition) ∈ F.table.toList := List.mem_map_of_mem he
  refine ⟨?_, hsound.unreserved _ hmem, hF.stands.trees e he, hinside e he,
    hsound.formed _ hmem⟩
  rw [hF.lookUp_eq, Forest.find?_of_nodup hnames he]
  rfl

/-- The second definition fails while it is reduced, after `i` has been unfolded: its
argument unrolls to something that is no application. -/
theorem definitions_of_reachable_failed :
    let m := (Memory.starting ⟨50, 50⟩).withFile "p" "def i [x. x] def a (i ([$f. f] q))"
    let m' := Outcome.after (Op.runFile "p") m
    Outcome.verdict (Op.runFile "p") m = .error (.fault .notAnApplication) ∧
      m'.roots.map (·.name) = ["i", "a"] ∧
      ∃ F : Forest, F.roots = m'.roots ∧
        (∀ e ∈ F, m'.lookUp e.1 = some e.2.pointer ∧ isReserved e.1 = false ∧
          e.2.Stands m'.store ∧ e.2.objects.Nodup ∧ e.2.term.Formed []) ∧
        F.Pairwise fun e e' => e.2.objects.Disjoint e'.2.objects := by
  intro m m'
  have hfails : Outcome.verdict (Op.runFile "p") m = .error (.fault .notAnApplication) := by
    decide +kernel
  have hnames : m'.roots.map (·.name) = ["i", "a"] := by decide +kernel
  have hreach : m'.Reachable := by
    refine .run "p" (.written "p" _ (.starting _)) fun err herr => ?_
    cases hfails.symm.trans herr
    rfl
  exact ⟨hfails, hnames, definitions_of_reachable hreach⟩

/-- Reducing an expression apart from the definitions leaves them where they are. -/
theorem Op.reduce_frame (h : m.Shows s) (hF : F.Lies m) (execute : Bool) (mode : Mode)
    (hT : T.Lies m) (hapart : ∀ o ∈ T.objects, o ∉ F.objects) :
    F.Lies (Outcome.after (Op.reduce execute mode T.pointer) m) := by
  have hkept : ∀ m', Touches T.objects m m' → m'.roots = m.roots → F.Lies m' :=
    fun m' htouches => hF.touched htouches fun o ho ho' => hapart o ho' ho
  refine InStep.after (P := fun m' => F.Lies m')
    (Op.reduce_inStep execute mode h.toAgrees (.outside hF hT hapart)) ?_ ?_
  · rintro _ m' _ _ ⟨T', -, -, hbuilt, hroots, -⟩
    exact hkept m' hbuilt.touches hroots
  · exact fun _ m' _ _ hstuck => hkept m' hstuck.touches hstuck.roots

/-- Performing an entry that has just been read leaves what it should. -/
theorem Op.entry_leaves (h : m.Shows s) (hF : F.Lies m) :
    (∀ err, Outcome.verdict Op.statement m = .error err → F.Lies (Outcome.after Op.entry m)) ∧
    ∀ st, Outcome.verdict Op.statement m = .ok st → st.Leaves F (Outcome.after Op.entry m) := by
  rcases Op.statement_cases h hF with ⟨err, m₁, s₁, hop, -, hF₁, -⟩ |
    ⟨st, en, T, m₁, s₁, hop, -, hst, hF₁, hs₁, hT, hapart⟩
  · rw [Outcome.verdict, hop, Op.entry, Outcome.after_bind_of_error hop]
    exact ⟨fun _ _ => hF₁, nofun⟩
  · rw [Outcome.verdict, hop, Op.entry, Outcome.after_bind_of_ok hop]
    have htable₁ : F.table = s₁.table :=
      hF₁.definitions_eq.symm.trans hs₁.keeps.definitions_eq
    have hstep := Op.perform_inStep hst hs₁.toAgrees hF₁ htable₁ hT hapart
    refine ⟨nofun, ?_⟩
    rintro _ ⟨⟩
    exact InStep.after (P := fun m' => st.Leaves F m') hstep (fun _ _ _ _ h => h.1)
      fun _ _ _ _ h => h.2.1

/-- **What an entry leaves alone.**  Before any entry of any program, however the programs
before it have ended, the definitions are a forest.  Whether the next entry cannot be read,
is performed, or ends with an error on the way: executing an expression leaves the trees of
the definitions as they are, object by object, and with them all that is read from the
definitions; defining `a` leaves the trees of all other names, and the names in their order,
with `a` last if it is new.  Reducing any expression apart from the definitions, in any mode
and as often as it may unfold them, leaves them as they are. -/
theorem entry_frame {m : Memory} (h : m.Amid) :
    ∃ F : Forest, F.Lies m ∧
      (∀ err, Outcome.verdict Op.statement m = .error err →
        F.Lies (Outcome.after Op.entry m) ∧
        (Outcome.after Op.entry m).definitions = m.definitions) ∧
      (∀ p, Outcome.verdict Op.statement m = .ok (.execute p) →
        F.Lies (Outcome.after Op.entry m) ∧
        (Outcome.after Op.entry m).definitions = m.definitions) ∧
      (∀ a p reduced, Outcome.verdict Op.statement m = .ok (.define a p reduced) →
        (∃ T, (F.bind a T).Lies (Outcome.after Op.entry m)) ∧
        (Outcome.after Op.entry m).definitions.without a = m.definitions.without a ∧
        (Outcome.after Op.entry m).definitions.names
          = if a ∈ m.definitions.names then m.definitions.names
            else m.definitions.names ++ [a]) ∧
      ∀ execute mode T, Tree.Lies m T → (∀ o ∈ T.objects, o ∉ F.objects) →
        F.Lies (Outcome.after (Op.reduce execute mode T.pointer) m) ∧
        (Outcome.after (Op.reduce execute mode T.pointer) m).definitions = m.definitions := by
  obtain ⟨s, -, hshows⟩ := h.shows
  obtain ⟨F, hF, -⟩ := hshows.keeps
  obtain ⟨hunread, hread⟩ := Op.entry_leaves hshows hF
  have hsame : ∀ {m'}, F.Lies m' → F.Lies m' ∧ m'.definitions = m.definitions := fun hF' =>
    ⟨hF', hF'.definitions_eq.trans hF.definitions_eq.symm⟩
  refine ⟨F, hF, fun err herr => hsame (hunread err herr), fun p hp => hsame (hread _ hp), ?_,
    fun execute mode T hT hapart => hsame (Op.reduce_frame hshows hF execute mode hT hapart)⟩
  intro a p reduced hdefine
  obtain ⟨T, hT⟩ := hread _ hdefine
  refine ⟨⟨T, hT⟩, ?_, ?_⟩
  · rw [hT.definitions_eq, hF.definitions_eq, Forest.table_bind, Table.without_bind]
  · rw [hT.definitions_eq, hF.definitions_eq, Forest.table_bind, Table.names_bind]

/-- The entry that is read next applies a definition.  The copy of `[x. x x]` is written into,
and the definition itself stays as it is. -/
theorem entry_frame_unfolding :
    let m := Outcome.after Op.entry (Outcome.after
      (Op.aside (Act.takeUp "def a [x. x x] do (a q)".toList)) (.starting ⟨50, 50⟩))
    Outcome.verdict Op.statement m = .ok (.execute (.node 5)) ∧ m.definitions.names = ["a"] ∧
      ∃ F : Forest, F.Lies m ∧ F.Lies (Outcome.after Op.entry m) ∧
        (Outcome.after Op.entry m).definitions = m.definitions := by
  intro m
  have hread : Outcome.verdict Op.statement m = .ok (.execute (.node 5)) := by decide +kernel
  have hnames : m.definitions.names = ["a"] := by decide +kernel
  have hamid : m.Amid := .next (.begun _ (.starting _)) (by decide +kernel)
  obtain ⟨F, hF, -, hexecute, -⟩ := entry_frame hamid
  exact ⟨hread, hnames, F, hF, hexecute _ hread⟩

end LambdaScript
