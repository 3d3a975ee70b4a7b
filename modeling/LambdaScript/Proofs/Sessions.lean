/-
LambdaScript/Proofs/Sessions.lean

What holds in every session.

A session is reachable (`Session.Reachable`) when it comes from the beginning by
writing files and running them.  A run may end well or with an error, at any point:
in the middle of an entry, or while a definition is being reduced inside the table.
Only after an error that ends the session there is no session any more.  Between two
entries of a program the session is `Amid`.

Reading an entry takes its functions from the supply (`Parse.entry_eq_ok`), and
performing it keeps the definitions well formed (`Performed.sound`); so one entry
does.  A relation that entries respect is a `Course`, and whole programs respect it
too; that is how what holds of one entry is carried to a program and to a sequence of
programs.

Main result: `Session.Reachable.sound`.
-/
import LambdaScript.Proofs.Formed

namespace LambdaScript

/-! ### Sessions that occur -/

namespace Session

/-- The sessions that come from the beginning by writing files and running them. -/
inductive Reachable : Session → Prop
  | starting (limits : Limits) : Reachable (starting limits)
  | written {s : Session} (path text : String) : Reachable s → Reachable (s.withFile path text)
  | run {s : Session} (path : String) : Reachable s →
      (∀ err, Outcome.verdict (Act.runFile path) s = .error err → err.isFatal = false) →
      Reachable (Outcome.after (Act.runFile path) s)

/-- The sessions in which a program is being run, before one of its entries. -/
inductive Amid : Session → Prop
  | begun {s : Session} (text : List Char) : Reachable s → Amid (Outcome.after (Act.takeUp text) s)
  | next {s : Session} : Amid s → Outcome.verdict Act.entry s = .ok () →
      Amid (Outcome.after Act.entry s)

/-- The definitions are well formed, and the supply lies above their keys. -/
def Sound (s : Session) : Prop :=
  s.table.WellFormed s.reading.next

end Session

/-! ### Entries -/

/-- The expression of an entry that has been read is formed, and its functions are new. -/
theorem Entry.Read.grown {entry : Entry} {next next' : Nat} (h : entry.Read next next') :
    Term.Grown next .missing next' entry.body ∧ entry.body.Formed [] := by
  rcases h.body with ⟨hmissing, rfl⟩ | hread
  · rw [hmissing]
    exact ⟨⟨Nat.le_refl _, List.nodup_nil, nofun⟩, trivial⟩
  · exact ⟨hread.grown .missing, hread.lexical.scoped.formed hread.names⟩

/-- An entry that has been read is performed without harm to the definitions. -/
theorem Performed.sound {s s' : Session} {entry : Entry} {err : Option SessionError}
    (h : Performed s entry err s') {next : Nat} (hd : s.table.WellFormed next)
    (hentry : entry.Read next s.reading.next) : s'.Sound := by
  obtain ⟨hgrown, hformed⟩ := hentry.grown
  have htidy : entry.body.Tidy s.reading.next := hgrown.tidy ⟨List.nodup_nil, nofun⟩
  have hd' := hd.mono hgrown.le
  -- executing an expression only adds to the supply
  have houtside : (Place.outside s.table).Holds [] s.reading.next entry.body :=
    ⟨htidy, hformed, sound_outside hd' [] _⟩
  have hexecute : ∀ {t r q e}, entry.body = t →
      s.reduction true (.outside s.table) t = .ok (r, q) e → s.table.WellFormed e.next := by
    rintro t r q e rfl hreduction
    exact hd'.mono ((runs_of_reduce hreduction).grown htidy).le
  cases h with
  | bound => exact hd.bind (hentry.target _ rfl) hgrown hformed
  | @defined a t r q e hreduction =>
    have ha := hentry.target _ rfl
    have hrun := runs_of_reduce hreduction
    have hholds := hrun.holds ⟨htidy, hformed, sound_whole hd ha hgrown⟩
    show ((s.table.bind a t).bind a r).WellFormed e.next
    rw [Table.bind_bind]
    exact hd.bind ha (hgrown.trans (hrun.grown htidy)) hholds.formed
  | broken hreduction =>
    exact (breaks_of_reduce hreduction).wellFormed
      ⟨htidy, hformed, sound_whole hd (hentry.target _ rfl) hgrown⟩
  | executed hreduction => exact hexecute rfl hreduction
  | interrupted hreduction => exact (breaks_of_reduce hreduction).wellFormed houtside
  | untold _ => exact hd'
  | unfinished hreduction _ => exact hexecute rfl hreduction

/-! ### Programs -/

/-- A relation between sessions that is respected by all that a program does: reading on,
printing, closing the text, and whole entries. -/
structure Course (M : Session → Session → Prop) : Prop where
  refl : ∀ s, M s s
  trans : ∀ {s₁ s₂ s₃}, M s₁ s₂ → M s₂ s₃ → M s₁ s₃
  read : ∀ s r, s.reading.next ≤ r.next → M s { s with reading := r }
  say : ∀ s output, M s { s with output := output }
  close : ∀ s, M s { s with textState := .closed }
  entry : Along M Act.entry

namespace Course

variable {M : Session → Session → Prop} (hM : Course M)

include hM

theorem parse {α : Type} {p : Parse α} (h : Along (fun r r' => r.next ≤ r'.next) p) :
    Along M (Act.parse p) := by
  intro s
  rcases hp : Act.parse p s with ⟨a, s'⟩ | ⟨err, s'⟩
  · obtain ⟨r, hr, rfl⟩ := Act.parse_eq_ok hp
    rw [Outcome.after_of_ok hp]
    exact hM.read s r (h.of_ok hr)
  · obtain ⟨halt, r, hr, rfl⟩ := Act.parse_eq_error hp
    rw [Outcome.after_of_error hp]
    exact hM.read s r (h.of_error hr)

theorem infoLine (line : String) : Along M (Act.infoLine line) :=
  .bind hM.trans hM.refl fun _ => .ite (fun s => hM.say s _) hM.refl

theorem takeUp (text : List Char) : Along M (Act.takeUp text) := by
  refine .bind hM.trans (fun s => ?_) fun _ => .bind hM.trans (hM.parse movement_next_le.advance)
    fun _ => .bind hM.trans (hM.parse movement_next_le.skip) fun _ => hM.refl
  have hrest : M s (s.withRest text) := hM.read s _ (Nat.le_refl _)
  exact hM.trans hrest (hM.close (s.withRest text))

theorem entries (n : Nat) : Along M (Act.entries n) := by
  induction n with
  | zero => exact hM.refl
  | succ n ih =>
    refine .bind hM.trans (hM.parse movement_next_le.refl) fun k => .ite ?_ hM.refl
    exact .bind hM.trans hM.entry fun _ => ih

theorem runText (text : List Char) : Along M (Act.runText text) :=
  .bind hM.trans (hM.takeUp text) fun _ =>
    .bind hM.trans (hM.parse movement_next_le.refl) fun n => hM.entries n

/-- What entries respect, whole programs do. -/
theorem runFile (path : String) : Along M (Act.runFile path) := by
  refine .bind hM.trans (hM.infoLine _) fun _ => .bind hM.trans hM.refl fun s => ?_
  rcases s.text path with fault | text
  · cases fault <;> exact .bind hM.trans hM.refl fun _ => hM.infoLine _
  · exact .bind hM.trans (hM.runText text) fun _ => hM.infoLine _

end Course

namespace Act

/-- What is done keeps sessions sound. -/
abbrev Keeping {α : Type} (act : Act α) : Prop :=
  Along (fun s s' : Session => s.Sound → s'.Sound) act

/-- **One entry**, read and performed, keeps the definitions well formed. -/
theorem keeping_entry : Keeping entry := by
  intro s hs
  rcases hparse : parse Parse.entry s with ⟨en, s₁⟩ | ⟨err, s₁⟩
  · obtain ⟨r, hr, rfl⟩ := parse_eq_ok hparse
    obtain ⟨err, hperformed⟩ := performed_after en { s with reading := r }
    rw [entry, Outcome.after_bind_of_ok hparse]
    exact hperformed.sound hs (Parse.entry_eq_ok hr)
  · obtain ⟨halt, r, hr, rfl⟩ := parse_eq_error hparse
    rw [entry, Outcome.after_bind_of_error hparse]
    have hle := (Parse.along_entry movement_next_le fun _ => Nat.le_succ _).of_error hr
    exact hs.mono hle

end Act

theorem course_sound : Course fun s s' => s.Sound → s'.Sound where
  refl _ hs := hs
  trans h h' hs := h' (h hs)
  read _ _ hle hs := hs.mono hle
  say _ _ hs := hs
  close _ hs := hs
  entry := Act.keeping_entry

/-! ### Sequences of programs -/

namespace Session

theorem Sound.withFile {s : Session} (h : s.Sound) (path text : String) :
    (s.withFile path text).Sound := by
  unfold Session.withFile
  dsimp only
  split
  · exact h
  · exact h

theorem Reachable.sound {s : Session} (h : s.Reachable) : s.Sound := by
  induction h with
  | starting limits => exact Table.wellFormed_empty 0
  | written path text _ ih => exact ih.withFile path text
  | run path _ _ ih => exact course_sound.runFile path _ ih

theorem Amid.sound {s : Session} (h : s.Amid) : s.Sound := by
  induction h with
  | begun text hreach => exact course_sound.takeUp text _ hreach.sound
  | next _ _ ih => exact Act.keeping_entry _ ih

end Session

end LambdaScript
