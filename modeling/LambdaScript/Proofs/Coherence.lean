/-
LambdaScript/Proofs/Coherence.lean

The scanner and its place in the text.

Of a text that is read from its beginning, some part lies before the scanner and the
rest after it.  The scanner is `Located` when its location is the one that the part
before it leads to, with a column more for each time it has tried to read on at the
end; it is `Coherent` when the character in hand is also the last one read.

Taking a character makes a scanner coherent, whatever it had in hand.  A comment that
is skipped keeps it so.  But where a `/` starts no comment, the text and the location
go back behind the `/`, and the character in hand does not: it is the one that comes
next, and it will be read again.  Such a scanner is `Doubling`.

Whatever reading does is made of these two movements (`Scanner.Comes`), so every
scanner that occurs is coherent or doubling.

Main result: `coherent_unless_doubling`.
-/
import LambdaScript.Proofs.Reading

namespace LambdaScript

/-! ### Locations -/

namespace Location

/-- The location after taking the characters of a text one by one. -/
def past (l : Location) (w : List Char) : Location :=
  w.foldl (fun l c => l.after (some c)) l

/-- The location after trying `n` times to read on at the end of the text. -/
def right (l : Location) (n : Nat) : Location :=
  ⟨l.line, l.column + n⟩

theorem past_concat (l : Location) (w : List Char) (c : Char) :
    l.past (w ++ [c]) = (l.past w).after (some c) := by
  rw [past, List.foldl_append]
  rfl

theorem right_inj {l : Location} {n m : Nat} (h : l.right n = l.right m) : n = m :=
  Nat.add_left_cancel (Location.mk.inj h).2

end Location

namespace Scanner

/-! ### What has been read -/

/-- The part `before` of the text has been taken, and reading on at the end has been tried
`ends` times. -/
structure Located (start : Location) (text : List Char) (s : Scanner) (before : List Char)
    (ends : Nat) : Prop where
  text_eq : text = before ++ s.rest
  location_eq : s.location = (start.past before).right ends
  at_end : ends ≠ 0 → s.rest = []

/-- The last thing read: the last character of the part before the scanner, or nothing when
reading on at the end has been tried. -/
inductive LastRead : List Char → Nat → Option Char → Prop
  | char (w : List Char) (c : Char) : LastRead (w ++ [c]) 0 (some c)
  | nothing (w : List Char) (n : Nat) : LastRead w (n + 1) none

/-- The location is the one of the place in the text, and the character in hand is the one
before this place. -/
def Coherent (start : Location) (text : List Char) (s : Scanner) : Prop :=
  ∃ before ends, s.Located start text before ends ∧ LastRead before ends s.current

/-- What comes next makes a comment of a `/`. -/
def OpensComment (s : Scanner) : Prop :=
  s.rest.head? = some '/' ∨ s.rest.head? = some '*'

/-- The scanner stands right behind a `/` that starts no comment, and has the character after
this place in hand. -/
def Doubling (start : Location) (text : List Char) (s : Scanner) : Prop :=
  ∃ before, s.Located start text (before ++ ['/']) 0 ∧ ¬ s.OpensComment ∧
    s.current = s.rest.head?

instance decidableOpensComment (s : Scanner) : Decidable s.OpensComment :=
  inferInstanceAs (Decidable (_ ∨ _))

variable {start : Location} {text before : List Char} {ends : Nat} {s s' s₀ : Scanner}

/-- Taking a character makes the scanner coherent, whatever it had in hand. -/
theorem Located.advance (h : s.Located start text before ends) :
    s.advance.Coherent start text := by
  obtain ⟨k, rest, l⟩ := s
  obtain ⟨htext, hlocation, hend⟩ := h
  cases rest with
  | nil =>
    refine ⟨before, ends + 1, ⟨htext, ?_, fun _ => rfl⟩, .nothing before ends⟩
    exact congrArg (Location.after · none) hlocation
  | cons c rest =>
    obtain rfl : ends = 0 := by
      by_contra hne
      cases hend hne
    refine ⟨before ++ [c], 0, ⟨?_, ?_, fun hne => absurd rfl hne⟩, .char before c⟩
    · rw [htext, List.append_assoc]
      rfl
    · rw [Location.past_concat]
      exact congrArg (Location.after · (some c)) hlocation

theorem Coherent.advance (h : s.Coherent start text) : s.advance.Coherent start text := by
  obtain ⟨before, ends, hlocated, -⟩ := h
  exact hlocated.advance

theorem Doubling.advance (h : s.Doubling start text) : s.advance.Coherent start text := by
  obtain ⟨before, hlocated, -⟩ := h
  exact hlocated.advance

/-- What is in hand already comes again. -/
theorem Doubling.current_advance (h : s.Doubling start text) : s.advance.current = s.current := by
  obtain ⟨before, -, -, hcurrent⟩ := h
  exact hcurrent.symm

/-- A `/` in hand does not come from looking for a comment in vain. -/
theorem Doubling.current_ne (h : s.Doubling start text) : s.current ≠ some '/' := by
  obtain ⟨before, -, hopens, hcurrent⟩ := h
  exact fun hslash => hopens (.inl (hcurrent.symm.trans hslash))

/-- The place in the text decides what has been read. -/
theorem Located.unique {before' : List Char} {ends' : Nat} (h : s.Located start text before ends)
    (h' : s.Located start text before' ends') : before = before' ∧ ends = ends' := by
  have hbefore : before = before' :=
    List.append_cancel_right (h.text_eq.symm.trans h'.text_eq)
  subst hbefore
  exact ⟨rfl, Location.right_inj (h.location_eq.symm.trans h'.location_eq)⟩

theorem Doubling.not_coherent (h : s.Doubling start text) : ¬ s.Coherent start text := by
  rintro ⟨before', ends', hlocated', hlast⟩
  have hne := h.current_ne
  obtain ⟨before, hlocated, -⟩ := h
  obtain ⟨rfl, rfl⟩ := hlocated.unique hlocated'
  -- behind the `/` a coherent scanner has the `/` in hand
  generalize hb : before ++ ['/'] = w at hlast
  generalize hk : s.current = k at hlast hne
  cases hlast with
  | char w c =>
    obtain ⟨-, hc⟩ := List.append_inj' hb rfl
    cases hc
    exact hne rfl

/-! ### Comments -/

theorem Coherent.lineComment (h : s.Coherent start text) :
    s.lineComment.2.Coherent start text := by
  fun_induction Scanner.lineComment s with
  | case1 s hnone => exact h
  | case2 s hend => exact h
  | case3 s c hc hne r ih => exact ih h.advance

theorem Coherent.blockComment (h : s.Coherent start text) :
    s.blockComment.2.Coherent start text := by
  fun_induction Scanner.blockComment s with
  | case1 s hnone => exact h
  | case2 s hstar hnone => exact h.advance.advance
  | case3 s hstar hslash => exact h.advance.advance
  | case4 s hstar d hd hne r ih => exact ih h.advance.advance
  | case5 s c hc hne r ih => exact ih h.advance

/-- A `/` that starts a comment. -/
theorem Coherent.comment (h : s.Coherent start text) (hopens : s.OpensComment) :
    s.comment.2.Coherent start text := by
  rw [Scanner.comment]
  rcases hopens with hnext | hnext
  · rw [show s.advance.current = some '/' from hnext]
    exact h.advance.advance.lineComment
  · rw [show s.advance.current = some '*' from hnext]
    exact h.advance.advance.blockComment

/-- Where no comment starts, only the character in hand changes. -/
theorem comment_of_not_opens (hopens : ¬ s.OpensComment) :
    s.comment = (none, { s with current := s.rest.head? }) := by
  rw [Scanner.comment]
  split
  · next hnext => exact absurd (.inl hnext) hopens
  · next hnext => exact absurd (.inr hnext) hopens
  · rfl

/-- A `/` that starts no comment. -/
theorem Coherent.doubling (h : s.Coherent start text) (hslash : s.current = some '/')
    (hopens : ¬ s.OpensComment) : s.comment.2.Doubling start text := by
  rw [comment_of_not_opens hopens]
  obtain ⟨before, ends, hlocated, hlast⟩ := h
  rw [hslash] at hlast
  cases hlast with
  | char w c => exact ⟨w, ⟨hlocated.text_eq, hlocated.location_eq, hlocated.at_end⟩, hopens, rfl⟩

/-- **Looking for a comment** leaves a coherent scanner coherent exactly where there is one. -/
theorem Coherent.comment_iff (h : s.Coherent start text) (hslash : s.current = some '/') :
    s.comment.2.Coherent start text ↔ s.OpensComment := by
  constructor
  · intro hcomment
    by_contra hopens
    exact (h.doubling hslash hopens).not_coherent hcomment
  · exact h.comment

/-! ### All that reading does -/

/-- The scanners that come from `s₀` by taking characters and by looking for a comment where
there is a `/` in hand. -/
inductive Comes (s₀ : Scanner) : Scanner → Prop
  | start : Comes s₀ s₀
  | advance {s : Scanner} : Comes s₀ s → Comes s₀ s.advance
  | comment {s : Scanner} : Comes s₀ s → s.current = some '/' → Comes s₀ s.comment.2

theorem Comes.trans (h : Comes s₀ s) (h' : Comes s s') : Comes s₀ s' := by
  induction h' with
  | start => exact h
  | advance _ ih => exact ih.advance
  | comment _ hslash ih => exact ih.comment hslash

theorem Comes.lineComment (h : Comes s₀ s) : Comes s₀ s.lineComment.2 := by
  fun_induction Scanner.lineComment s with
  | case1 s hnone => exact h
  | case2 s hend => exact h
  | case3 s c hc hne r ih => exact ih h.advance

theorem Comes.blockComment (h : Comes s₀ s) : Comes s₀ s.blockComment.2 := by
  fun_induction Scanner.blockComment s with
  | case1 s hnone => exact h
  | case2 s hstar hnone => exact h.advance.advance
  | case3 s hstar hslash => exact h.advance.advance
  | case4 s hstar d hd hne r ih => exact ih h.advance.advance
  | case5 s c hc hne r ih => exact ih h.advance

theorem Comes.commentHere (h : Comes s₀ s) : Comes s₀ s.commentHere.2 := by
  unfold Scanner.commentHere
  split
  · next hslash => exact h.comment (by simpa [CharClass.has] using hslash)
  · exact h

theorem Comes.skipBlanks (h : Comes s₀ s) : Comes s₀ s.skipBlanks.2 := by
  fun_induction Scanner.skipBlanks s with
  | case1 s hblank r q ih => exact ih h.advance.commentHere
  | case2 s hblank => exact h

theorem Comes.skip (h : Comes s₀ s) : Comes s₀ s.skip.2 :=
  h.commentHere.skipBlanks

theorem Comes.nameTail (h : Comes s₀ s) : Comes s₀ s.nameTail.2 := by
  fun_induction Scanner.nameTail s with
  | case1 s hnone => exact h
  | case2 s hslash _ => exact h.comment hslash
  | case3 s c hc _ _ r ih => exact ih h.advance
  | case4 s c hc _ => exact h

/-- **Every scanner that occurs** while a text is read is coherent or doubling. -/
theorem Comes.coherent_or_doubling {k : Option Char}
    (h : Comes (Scanner.mk k text start).advance s) :
    s.Coherent start text ∨ s.Doubling start text := by
  induction h with
  | start =>
    have hlocated : (Scanner.mk k text start).Located start text [] 0 :=
      ⟨rfl, rfl, fun hne => absurd rfl hne⟩
    exact .inl hlocated.advance
  | advance _ ih =>
    rcases ih with hcoherent | hdoubling
    · exact .inl hcoherent.advance
    · exact .inl hdoubling.advance
  | @comment s _ hslash ih =>
    rcases ih with hcoherent | hdoubling
    · by_cases hopens : s.OpensComment
      · exact .inl (hcoherent.comment hopens)
      · exact .inr (hcoherent.doubling hslash hopens)
    · exact absurd hslash hdoubling.current_ne

/-- A text without a `/` is read coherently. -/
theorem Comes.coherent {k : Option Char} (h : Comes (Scanner.mk k text start).advance s)
    (hplain : '/' ∉ text) : s.Coherent start text := by
  rcases h.coherent_or_doubling with hcoherent | ⟨before, hlocated, -⟩
  · exact hcoherent
  · rw [hlocated.text_eq] at hplain
    exact absurd (List.mem_append_left _ (List.mem_append_right _ List.mem_cons_self)) hplain

end Scanner

/-- The scanner of the second state comes from that of the first. -/
def Reading.Comes (r r' : Reading) : Prop :=
  Scanner.Comes r.scanner r'.scanner

/-- The scanner of the second session comes from that of the first. -/
def Session.Comes (s s' : Session) : Prop :=
  s.reading.Comes s'.reading

theorem Session.Comes.trans {s₁ s₂ s₃ : Session} (h : s₁.Comes s₂) (h' : s₂.Comes s₃) :
    s₁.Comes s₃ :=
  Scanner.Comes.trans h h'

theorem movement_comes : Movement Reading.Comes where
  refl _ := .start
  trans := Scanner.Comes.trans
  advance _ := Scanner.Comes.start.advance
  skip _ := Scanner.Comes.start.skip
  nameTail _ := Scanner.Comes.start.nameTail

theorem Along.map {ε σ α β : Type} {M : σ → σ → Prop} {x : EStateM ε σ α} (h : Along M x)
    (f : α → β) : Along M (f <$> x) := by
  intro s
  have hafter : Outcome.after (f <$> x) s = Outcome.after x s := by
    show Outcome.after (EStateM.map f x) s = _
    unfold Outcome.after EStateM.map
    cases x s <;> rfl
  rw [hafter]
  exact h s

namespace Parse

theorem along_scan {α : Type} {f : Scanner → α × Scanner}
    (hf : ∀ s, Scanner.Comes s (f s).2) : Along Reading.Comes (scan f) :=
  fun r => hf r.scanner

/-- The readers of expressions, each with a bound that is enough. -/
theorem along_bound {f : Nat → Parse Term} (hf : ∀ n, Along Reading.Comes (f n)) :
    Along Reading.Comes (bound >>= f) :=
  .bind movement_comes.trans movement_comes.refl hf

/-- **Every routine**, called where it may be: a comment is looked for at a `/`. -/
theorem comes_routine (p : Routine) {r : Reading}
    (hp : p = .comment → r.scanner.current = some '/') : r.Comes (Outcome.after p.run r) := by
  have hM := movement_comes
  have hsupply : ∀ r : Reading, r.Comes { r with next := r.next + 1 } := fun _ => .start
  have hitem := along_expressionWithin hM hsupply
  cases p with
  | advance => exact Scanner.Comes.start.advance
  | skip => exact (along_scan fun _ => Scanner.Comes.start.skip).map _ r
  | expect text => exact (along_expect hM text).map _ r
  | comment =>
    have hscan : scan Scanner.comment r
        = .ok r.scanner.comment.1 { r with scanner := r.scanner.comment.2 } := rfl
    rw [Routine.run, Outcome.after_bind_of_ok hscan]
    have hcomes := Scanner.Comes.start.comment (hp rfl)
    cases r.scanner.comment.1 <;> exact hcomes
  | lineComment => exact Scanner.Comes.start.lineComment
  | blockComment => exact Scanner.Comes.start.blockComment
  | identifier => exact (along_identifier hM).map _ r
  | keyword =>
    have hrun : Along Reading.Comes Routine.keyword.run :=
      .bind hM.trans (along_keyword hM) fun _ => hM.refl
    exact hrun r
  | name => exact (along_name hM).map _ r
  | argumentName => exact (along_argumentName hM).map _ r
  | definitionName => exact (along_definitionName hM).map _ r
  | argument =>
    have hrun : Along Reading.Comes Routine.argument.run :=
      .bind hM.trans (along_argument hM hsupply) fun _ => hM.refl
    exact hrun r
  | function => exact (along_bound fun n => along_functionOf hM hsupply (hitem n) n).map _ r
  | bracket => exact (along_bound fun n => along_bracketOf hM hsupply (hitem n) n).map _ r
  | series => exact (along_bound fun n => along_seriesOf hM hsupply (hitem n) n).map _ r
  | expression => exact (along_expression hM hsupply).map _ r

theorem comes_entry : Along Reading.Comes entry :=
  along_entry movement_comes fun _ => .start

end Parse

namespace Act

/-- What performs an entry leaves the text where it is. -/
theorem scanner_of_performed {s s' : Session} {en : Entry} {err : Option SessionError}
    (h : Performed s en err s') : s'.reading.scanner = s.reading.scanner := by
  cases h <;> rfl

theorem comes_perform (en : Entry) : Along Session.Comes (perform en) := by
  intro s
  obtain ⟨err, hperformed⟩ := performed_after en s
  rw [Session.Comes, Reading.Comes, scanner_of_performed hperformed]
  exact .start

theorem comes_parse {α : Type} {p : Parse α} (h : Along Reading.Comes p) :
    Along Session.Comes (parse p) := by
  intro s
  rcases hp : parse p s with ⟨a, s'⟩ | ⟨err, s'⟩
  · obtain ⟨r, hr, rfl⟩ := parse_eq_ok hp
    rw [Outcome.after_of_ok hp]
    exact h.of_ok hr
  · obtain ⟨halt, r, hr, rfl⟩ := parse_eq_error hp
    rw [Outcome.after_of_error hp]
    exact h.of_error hr

theorem comes_entry : Along Session.Comes entry :=
  .bind Session.Comes.trans (comes_parse Parse.comes_entry) comes_perform

theorem comes_entries (n : Nat) : Along Session.Comes (entries n) := by
  induction n with
  | zero => exact fun _ => .start
  | succ n ih =>
    refine .bind Session.Comes.trans (comes_parse movement_comes.refl) fun k => .ite ?_ ?_
    · exact .bind Session.Comes.trans comes_entry fun _ => ih
    · exact fun _ => .start

/-- A program is read from its beginning. -/
theorem comes_runText (text : List Char) (s : Session) :
    Scanner.Comes (Scanner.mk s.reading.scanner.current text s.reading.scanner.location).advance
      (Outcome.after (runText text) s).reading.scanner := by
  let s₁ := Outcome.after (takeUp text) s
  have htakeUp : takeUp text s = .ok () s₁ := rfl
  have hbound : parse Parse.bound s₁ = .ok (s₁.reading.scanner.remaining + 1) s₁ := rfl
  rw [runText, Outcome.after_bind_of_ok htakeUp, Outcome.after_bind_of_ok hbound]
  exact Scanner.Comes.start.skip.trans (comes_entries _ s₁)

end Act

open Scanner in
/-- **The scanner keeps its place in the text, unless a `/` starts no comment.**  Let a text be
read from its beginning, where the location is `start`.

* At every moment the location is the one that the characters before the scanner lead to, and
  the character in hand is the last of them; or the scanner stands behind a `/` that starts no
  comment, and has the character in hand that comes next.  Both cannot be.
* Taking a character always leads to the first.  In the second case the character that comes is
  the one that has been in hand already.
* Looking for a comment leads to the second exactly where there is none.
* These are all the scanners that occur, after any of the routines of reading, after an entry
  and after a whole program. -/
theorem coherent_unless_doubling (k : Option Char) (text : List Char) (start : Location) :
    let s₀ := (Scanner.mk k text start).advance
    (∀ s, Comes s₀ s →
      (s.Coherent start text ∨ s.Doubling start text) ∧
      ¬ (s.Coherent start text ∧ s.Doubling start text) ∧
      s.advance.Coherent start text ∧
      (s.Doubling start text → s.advance.current = s.current) ∧
      (s.current = some '/' → (s.comment.2.Coherent start text ↔ s.OpensComment))) ∧
    (∀ r : Reading, Comes s₀ r.scanner →
      (∀ p : Routine, (p = .comment → r.scanner.current = some '/') →
        Comes s₀ (Outcome.after p.run r).scanner) ∧
      Comes s₀ (Outcome.after Parse.entry r).scanner) ∧
    ∀ σ : Session, σ.reading.scanner.current = k → σ.reading.scanner.location = start →
      Comes s₀ (Outcome.after (Act.runText text) σ).reading.scanner := by
  intro s₀
  refine ⟨fun s hs => ?_, fun r hr => ⟨fun p hp => ?_, ?_⟩, ?_⟩
  · have hcases := hs.coherent_or_doubling
    refine ⟨hcases, fun h => h.2.not_coherent h.1, ?_, Doubling.current_advance, ?_⟩
    · rcases hcases with hcoherent | hdoubling
      · exact hcoherent.advance
      · exact hdoubling.advance
    · intro hslash
      rcases hcases with hcoherent | hdoubling
      · exact hcoherent.comment_iff hslash
      · exact absurd hslash hdoubling.current_ne
  · exact hr.trans (Parse.comes_routine p hp)
  · exact hr.trans (Parse.comes_entry r)
  · rintro σ rfl rfl
    exact Act.comes_runText text σ

open Scanner in
/-- In `a//b` and a new line a comment starts, and the scanner stays coherent. -/
theorem coherent_unless_doubling_line :
    let text := "a//b\nc".toList
    let s : Scanner := ⟨some '/', "/b\nc".toList, ⟨1, 3⟩⟩
    Comes (Scanner.mk none text .start).advance s ∧ s.OpensComment ∧
      s.comment.2.Coherent .start text ∧ s.comment.2.current = some '\n' := by
  intro text s
  have hs : Comes (Scanner.mk none text .start).advance s := Comes.start.advance
  have hopens : s.OpensComment := by decide
  have hfacts := (coherent_unless_doubling none text .start).1 s hs
  exact ⟨hs, hopens, (hfacts.2.2.2.2 rfl).mpr hopens, by decide +kernel⟩

open Scanner in
/-- In `/abc` no comment starts.  Looking for one leaves the scanner behind the `/` with `a` in
hand, and `a` is what comes next as well. -/
theorem doubling_after_slash :
    let text := "/abc".toList
    let s := (Scanner.mk none text .start).advance
    s.current = some '/' ∧ ¬ s.comment.2.Coherent .start text ∧
      s.comment.2.current = some 'a' ∧ s.comment.2.advance.current = some 'a' := by
  intro text s
  have hcomes : Comes s s := .start
  have hs : s.Coherent .start text := by
    rcases hcomes.coherent_or_doubling with hcoherent | hdoubling
    · exact hcoherent
    · exact absurd rfl hdoubling.current_ne
  exact ⟨rfl, fun h => absurd ((hs.comment_iff rfl).mp h) (by decide), rfl, rfl⟩

end LambdaScript
