/-
LambdaScript/Proofs/Rejections.lean

Which line is told when a name is refused.

A name is read together with the blanks behind it, and only then is it looked at.  So
the location that goes with a refused name is the one of the token behind it.  In a
text without comments its line is the line of the name and as many more as there are
new lines among those blanks.

Only four routines refuse names.  That a program is stopped by a refused name means
that one of them was called somewhere and refused it (`Parse.Refuses`): this holds of
the readers of tokens and is kept by doing one after the other, hence it holds of all
readers (`Parse.Compositional`).

Main result: `line_of_refused_name`.
-/
import LambdaScript.Proofs.Coherence
import LambdaScript.Proofs.Comments
import LambdaScript.Proofs.Interruptions

namespace LambdaScript

/-- The name that has been read and then refused. -/
def Problem.refused? : Problem → Option String
  | notAKeyword x => some x
  | keyword x => some x
  | actionAsArgument x => some x
  | actionAsDefinition x => some x
  | _ => none

/-- The routines that read a name and may refuse it. -/
def Routine.namers : List Routine :=
  [keyword, name, argumentName, definitionName]

/-! ### Lines -/

theorem Location.line_past (l : Location) (w : List Char) :
    (l.past w).line = l.line + w.count '\n' := by
  induction w generalizing l with
  | nil => rfl
  | cons c w ih =>
    show ((l.after (some c)).past w).line = _
    rw [ih]
    by_cases hc : c = '\n'
    · subst hc
      rw [List.count_cons_self]
      show l.line + 1 + _ = _
      omega
    · have hline : (l.after (some c)).line = l.line := by
        unfold Location.after
        split
        · next heq => exact absurd (Option.some.inj heq) hc
        · rfl
      rw [hline, List.count_cons_of_ne hc]

/-- A coherent scanner shows the end of the text; its line counts the new lines before that, and
the character in hand. -/
theorem Scanner.Coherent.shows {start : Location} {text : List Char} {s : Scanner}
    (h : s.Coherent start text) :
    ∃ before ahead, text = before ++ ahead ∧ s.Shows ahead ∧
      s.location.line = start.line + (before ++ ahead.head?.toList).count '\n' := by
  obtain ⟨before, ends, hlocated, hlast⟩ := h
  have hline : s.location.line = start.line + before.count '\n' := by
    rw [hlocated.location_eq]
    exact Location.line_past start before
  generalize hk : s.current = k at hlast
  cases hlast with
  | char w c =>
    refine ⟨w, c :: s.rest, ?_, ⟨hk, rfl⟩, hline⟩
    rw [hlocated.text_eq, List.append_assoc]
    rfl
  | nothing w n =>
    have hend := hlocated.at_end (Nat.succ_ne_zero n)
    refine ⟨before, [], ?_, ⟨hk, hend⟩, ?_⟩
    · rw [hlocated.text_eq, hend]
    · rw [hline]
      simp

theorem isBlank_newline : isBlank '\n' = true := by decide

theorem Named.newline_notMem {x : String} {text rest : List Char} (h : Named x text rest) :
    '\n' ∉ x.toList := by
  intro hmem
  have hchar := isBlank_eq_false_of_isNameChar (h.chars '\n' hmem)
  rw [isBlank_newline] at hchar
  cases hchar

/-! ### Refusing a name -/

namespace Parse

variable {r r' : Reading} {e : InputError} {x : String}

theorem reject_eq_error {α : Type} {p : Problem}
    (h : (reject p : Parse α) r = .error (.input e) r') : e = ⟨p, r.scanner.location⟩ := by
  cases h
  rfl

theorem map_eq_error {α β : Type} {p : Parse α} {f : α → β} {halt : Halt}
    (h : (f <$> p) r = .error halt r') : p r = .error halt r' := by
  change EStateM.map f p r = _ at h
  unfold EStateM.map at h
  rcases hp : p r with ⟨a, r₁⟩ | ⟨err, r₁⟩
  · rw [hp] at h
    cases h
  · rw [hp] at h
    cases h
    rfl

/-- What is refused as it is no name has not been read. -/
theorem refused?_identifier (h : identifier r = .error (.input e) r') :
    e.problem.refused? = none := by
  rw [identifier, current_bind] at h
  split at h
  · cases h
  · rw [reject_eq_error h]
    rfl

/-- A name that is refused has been read, and the location is the one that reading it has led
to. -/
def RefusesHere (r : Reading) (e : InputError) (x : String) : Prop :=
  ∃ r₁, identifier r = .ok x r₁ ∧ e.location = r₁.scanner.location

theorem refusesHere_bind {α : Type} {f : String → Parse α}
    (h : (identifier >>= f) r = .error (.input e) r') (hx : e.problem.refused? = some x)
    (hf : ∀ {y r₁}, f y r₁ = .error (.input e) r' →
      e.problem.refused? = some y ∧ e.location = r₁.scanner.location) : RefusesHere r e x := by
  rcases Outcome.bind_eq_error h with hidentifier | ⟨y, r₁, hidentifier, hrefuse⟩
  · cases (refused?_identifier hidentifier).symm.trans hx
  · obtain ⟨hy, hlocation⟩ := hf hrefuse
    cases hx.symm.trans hy
    exact ⟨r₁, hidentifier, hlocation⟩

theorem refusesHere_keyword (h : keyword r = .error (.input e) r')
    (hx : e.problem.refused? = some x) : RefusesHere r e x := by
  refine refusesHere_bind h hx fun {y r₁} hrefuse => ?_
  rcases hk : Keyword.ofName? y with - | k
  · rw [hk] at hrefuse
    rw [reject_eq_error hrefuse]
    exact ⟨rfl, rfl⟩
  · rw [hk] at hrefuse
    cases hrefuse

theorem refusesHere_name (h : name r = .error (.input e) r')
    (hx : e.problem.refused? = some x) : RefusesHere r e x := by
  refine refusesHere_bind h hx fun {y r₁} hrefuse => ?_
  split at hrefuse
  · rw [reject_eq_error hrefuse]
    exact ⟨rfl, rfl⟩
  · cases hrefuse

theorem refusesHere_argumentName (h : argumentName r = .error (.input e) r')
    (hx : e.problem.refused? = some x) : RefusesHere r e x := by
  rcases Outcome.bind_eq_error h with hname | ⟨y, r₁, hname, hrefuse⟩
  · exact refusesHere_name hname hx
  · -- the name is no keyword, but it is one of an action
    obtain ⟨z, r₂, hidentifier, hgo⟩ := Outcome.bind_eq_ok hname
    split at hgo
    · cases hgo
    · cases hgo
      split at hrefuse
      · rw [reject_eq_error hrefuse] at hx ⊢
        cases hx
        exact ⟨r₁, hidentifier, rfl⟩
      · cases hrefuse

theorem refusesHere_definitionName (h : definitionName r = .error (.input e) r')
    (hx : e.problem.refused? = some x) : RefusesHere r e x := by
  refine refusesHere_bind h hx fun {y r₁} hrefuse => ?_
  split at hrefuse
  · rw [reject_eq_error hrefuse]
    exact ⟨rfl, rfl⟩
  split at hrefuse
  · rw [reject_eq_error hrefuse]
    exact ⟨rfl, rfl⟩
  · cases hrefuse

theorem refusesHere_of_namer {p : Routine} (hp : p ∈ Routine.namers)
    (h : p.run r = .error (.input e) r') (hx : e.problem.refused? = some x) :
    RefusesHere r e x := by
  simp only [Routine.namers, List.mem_cons, List.not_mem_nil, or_false] at hp
  rcases hp with rfl | rfl | rfl | rfl
  · rcases Outcome.bind_eq_error h with hkeyword | ⟨k, r₁, -, hpure⟩
    · exact refusesHere_keyword hkeyword hx
    · cases hpure
  · exact refusesHere_name (map_eq_error h) hx
  · exact refusesHere_argumentName (map_eq_error h) hx
  · exact refusesHere_definitionName (map_eq_error h) hx

/-- Behind a name that has been read stands the token after it. -/
theorem identifier_shows {ahead : List Char} (hr : r.scanner.Shows ahead) (hplain : '/' ∉ ahead)
    (h : identifier r = .ok x r') :
    ∃ rest, Named x ahead rest ∧ r'.scanner.Shows (trimmed rest) := by
  obtain ⟨c, hcurrent, hc⟩ := isNameChar_of_identifier h
  have hself : trimmed ahead = ahead := by
    refine trimmed_eq_self fun d hd => ?_
    cases (hr.current.symm.trans hcurrent).symm.trans hd
    exact isBlank_eq_false_of_isNameChar hc
  have hat : r.At ahead := ⟨by rwa [hself], hplain⟩
  obtain ⟨rest, hnamed, hrest⟩ := identifier_eq_ok hat h
  rw [hself] at hnamed
  exact ⟨rest, hnamed, hrest.shows⟩

end Parse

/-- **The line of a refused name** in a text without comments. -/
theorem line_of_refusesHere {start : Location} {text : List Char} {k : Option Char}
    (hplain : '/' ∉ text) {r : Reading}
    (hr : Scanner.Comes (Scanner.mk k text start).advance r.scanner) {e : InputError} {x : String}
    (h : Parse.RefusesHere r e x) :
    ∃ before rest, text = before ++ x.toList ++ rest ∧ r.scanner.Shows (x.toList ++ rest) ∧
      Named x (x.toList ++ rest) rest ∧
      e.location.line
        = start.line + before.count '\n' + (rest.takeWhile isBlank).count '\n' := by
  obtain ⟨r₁, hidentifier, hlocation⟩ := h
  have hr₁ : Scanner.Comes (Scanner.mk k text start).advance r₁.scanner :=
    hr.trans ((Parse.along_identifier movement_comes).of_ok hidentifier)
  obtain ⟨before, ahead, htext, hshows, -⟩ := (hr.coherent hplain).shows
  obtain ⟨before₁, ahead₁, htext₁, hshows₁, hline₁⟩ := (hr₁.coherent hplain).shows
  have hahead : '/' ∉ ahead := fun hc => hplain (htext ▸ List.mem_append_right before hc)
  obtain ⟨rest, hnamed, hrest⟩ := Parse.identifier_shows hshows hahead hidentifier
  obtain rfl : ahead = x.toList ++ rest := hnamed.text_eq
  obtain rfl : ahead₁ = trimmed rest := hshows₁.unique hrest
  -- between the name and what is ahead now there are the blanks
  have hblanks : rest.takeWhile isBlank ++ trimmed rest = rest :=
    List.takeWhile_append_dropWhile
  have hbefore₁ : before₁ = before ++ x.toList ++ rest.takeWhile isBlank := by
    have happend : before₁ ++ trimmed rest
        = before ++ x.toList ++ rest.takeWhile isBlank ++ trimmed rest := by
      rw [← htext₁, htext, List.append_assoc _ _ (trimmed rest), hblanks, List.append_assoc]
    exact List.append_cancel_right happend
  have hhead : (trimmed rest).head?.toList.count '\n' = 0 := by
    rw [List.count_eq_zero]
    intro hmem
    have hblank := List.head?_dropWhile_not isBlank rest
    rw [show (rest.dropWhile isBlank).head? = some '\n' from Option.mem_toList.mp hmem] at hblank
    exact absurd hblank (by decide)
  have hname : x.toList.count '\n' = 0 := List.count_eq_zero.mpr hnamed.newline_notMem
  refine ⟨before, rest, by rw [htext, List.append_assoc], hshows, hnamed, ?_⟩
  rw [hlocation, hline₁, hbefore₁, List.count_append, List.count_append, List.count_append, hhead,
    hname]
  omega

/-! ### Whole programs -/

namespace Parse

/-- A property of parsers that holds of those that read tokens, and that is kept by doing one
after the other. -/
structure Compositional (P : (α : Type) → Parse α → Prop) : Prop where
  pure : ∀ {α : Type} (a : α), P α (pure a)
  bind : ∀ {α β : Type} {x : Parse α} {f : α → Parse β}, P α x → (∀ a, P β (f a)) →
    P β (x >>= f)
  current : P _ current
  endless : ∀ {α : Type}, P α (throw .endless)
  newBinder : ∀ marked, P _ (newBinder marked)
  identity : P _ (make Term.identity)
  expect : ∀ text, P _ (expect text)
  keyword : P _ keyword
  name : P _ name
  argumentName : P _ argumentName
  definitionName : P _ definitionName

namespace Compositional

variable {P : (α : Type) → Parse α → Prop} (hP : Compositional P)

include hP

theorem expectUnlessAtEnd (text : String) : P _ (expectUnlessAtEnd text) := by
  refine hP.bind hP.current fun k => ?_
  split
  · exact hP.bind (hP.expect text) fun _ => hP.pure ()
  · exact hP.pure ()

theorem argument : P _ argument := by
  have hrest : ∀ marked, P _ (do
      let x ← Parse.argumentName
      return (← Parse.newBinder marked, x)) := fun marked =>
    hP.bind hP.argumentName fun _ => hP.bind (hP.newBinder marked) fun _ => hP.pure _
  refine hP.bind hP.current fun k => ?_
  dsimp only
  split
  · exact hP.bind (hP.expect "$") fun _ => hrest _
  · exact hrest _

theorem arguments (rounds : Nat) : P _ (arguments rounds) := by
  induction rounds with
  | zero => exact hP.endless
  | succ rounds ih =>
    refine hP.bind hP.current fun k => ?_
    split
    · exact hP.pure []
    · exact hP.bind hP.argument fun a => hP.bind ih fun _ => hP.pure _

section Item

variable {item : Parse Term} (hitem : P _ item)

include hitem

theorem seriesFrom (rounds : Nat) (t : Term) : P _ (seriesFrom item rounds t) := by
  induction rounds generalizing t with
  | zero => exact hP.endless
  | succ rounds ih =>
    refine hP.bind hP.current fun k => ?_
    split
    · exact hP.pure t
    · exact hP.bind hitem fun arg => ih (.app t arg)

theorem seriesOf (rounds : Nat) : P _ (seriesOf item rounds) := by
  refine hP.bind hP.current fun k => ?_
  split
  · exact hP.identity
  · exact hP.bind hitem fun t => hP.seriesFrom hitem rounds t

theorem bracketOf (rounds : Nat) : P _ (bracketOf item rounds) :=
  hP.bind (hP.expect "(") fun _ => hP.bind (hP.seriesOf hitem rounds) fun _ =>
    hP.bind (hP.expectUnlessAtEnd ")") fun _ => hP.pure _

theorem functionOf (rounds : Nat) : P _ (functionOf item rounds) :=
  hP.bind (hP.expect "[") fun _ => hP.bind hP.argument fun _ =>
    hP.bind (hP.arguments rounds) fun _ => hP.bind (hP.expectUnlessAtEnd ".") fun _ =>
      hP.bind (hP.seriesOf hitem rounds) fun _ =>
        hP.bind (hP.expectUnlessAtEnd "]") fun _ => hP.pure _

end Item

theorem expressionWithin (depth : Nat) : P _ (expressionWithin depth) := by
  induction depth with
  | zero => exact hP.endless
  | succ depth ih =>
    refine hP.bind hP.current fun k => ?_
    split
    · exact hP.bracketOf ih depth
    split
    · exact hP.functionOf ih depth
    split
    · exact hP.bind hP.name fun _ => hP.pure _
    · exact hP.pure _

/-- What holds of the readers of tokens, and of expressions for all their bounds, holds of
entries. -/
theorem entry (hexpression : P _ expression) : P _ entry := by
  have hdefinition (reduced : Bool) : P _ (definition reduced) :=
    hP.bind hP.definitionName fun _ => hP.bind hexpression fun _ => hP.pure _
  refine hP.bind hP.keyword fun k => ?_
  cases k with
  | define => exact hdefinition true
  | defineAsIs => exact hdefinition false
  | execute => exact hP.bind hexpression fun _ => hP.pure _

end Compositional

/-- From `r` the reading comes to a place where one of the four routines refuses a name with this
error. -/
def Refused (r : Reading) (e : InputError) : Prop :=
  ∃ r₁ p r₂, r.Comes r₁ ∧ p ∈ Routine.namers ∧ p.run r₁ = .error (.input e) r₂

/-- Where the parser is stopped by a refused name, one of the four routines has refused it. -/
def Refuses {α : Type} (x : Parse α) : Prop :=
  ∀ r e r', x r = .error (.input e) r' → e.problem.refused?.isSome = true → Refused r e

namespace Refuses

variable {α β : Type}

theorem bind {x : Parse α} {f : α → Parse β} (hx : Refuses x) (hcomes : Along Reading.Comes x)
    (hf : ∀ a, Refuses (f a)) : Refuses (x >>= f) := by
  intro r e r' h he
  rcases Outcome.bind_eq_error h with hfirst | ⟨a, r₁, hfirst, hsecond⟩
  · exact hx r e r' hfirst he
  · obtain ⟨r₂, p, r₃, hr₂, hp, hrefuse⟩ := hf a r₁ e r' hsecond he
    exact ⟨r₂, p, r₃, (hcomes.of_ok hfirst).trans hr₂, hp, hrefuse⟩

theorem of_namer {x : Parse α} {p : Routine} (hp : p ∈ Routine.namers)
    (h : ∀ {r e r'}, x r = .error (.input e) r' → p.run r = .error (.input e) r') : Refuses x :=
  fun r _ r' hx _ => ⟨r, p, r', .start, hp, h hx⟩

theorem takeAll (text : String) (l : List Char) : Refuses (takeAll text l) := by
  induction l with
  | nil =>
    intro r e r' h
    cases h
  | cons c rest ih =>
    intro r e r' h he
    rw [Parse.takeAll, current_bind] at h
    split at h
    · have hadvance : Refuses Parse.advance := by
        intro _ _ _ h
        cases h
      exact hadvance.bind movement_comes.advance (fun _ => ih) r e r' h he
    · rw [reject_eq_error h] at he
      cases he

end Refuses

theorem compositional_refuses :
    Compositional fun _ x => Along Reading.Comes x ∧ Refuses x where
  pure _ := ⟨movement_comes.refl, fun _ _ _ h => nomatch h⟩
  bind hx hf :=
    ⟨hx.1.bind movement_comes.trans fun a => (hf a).1, hx.2.bind hx.1 fun a => (hf a).2⟩
  current := ⟨movement_comes.refl, fun _ _ _ h => nomatch h⟩
  endless := ⟨movement_comes.refl, fun _ _ _ h => nomatch h⟩
  newBinder _ := ⟨fun _ => .start, fun _ _ _ h => nomatch h⟩
  identity := ⟨fun _ => .start, fun _ _ _ h => nomatch h⟩
  expect text := by
    refine ⟨along_expect movement_comes text, ?_⟩
    exact (Refuses.takeAll text text.toList).bind (along_takeAll movement_comes _ _)
      fun _ _ _ _ h => nomatch h
  keyword := ⟨along_keyword movement_comes,
    .of_namer (p := .keyword) (by decide) fun h => Outcome.bind_of_error h⟩
  name := ⟨along_name movement_comes, .of_namer (p := .name) (by decide) fun h => by
    show EStateM.map _ _ _ = _
    rw [EStateM.map, h]⟩
  argumentName := ⟨along_argumentName movement_comes,
    .of_namer (p := .argumentName) (by decide) fun h => by
      show EStateM.map _ _ _ = _
      rw [EStateM.map, h]⟩
  definitionName := ⟨along_definitionName movement_comes,
    .of_namer (p := .definitionName) (by decide) fun h => by
      show EStateM.map _ _ _ = _
      rw [EStateM.map, h]⟩

theorem refuses_entry : Refuses entry := by
  have hbound : Along Reading.Comes bound ∧ Refuses bound :=
    ⟨movement_comes.refl, fun _ _ _ h => nomatch h⟩
  have hexpression : Along Reading.Comes expression ∧ Refuses expression :=
    compositional_refuses.bind hbound fun n => compositional_refuses.expressionWithin n
  exact (compositional_refuses.entry hexpression).2

end Parse

namespace Act

variable {s s' : Session} {e : InputError}

theorem refused_of_entries {n : Nat} (h : entries n s = .error (.input e) s')
    (he : e.problem.refused?.isSome = true) : Parse.Refused s.reading e := by
  induction n generalizing s with
  | zero => cases h
  | succ n ih =>
    have hcurrent : parse Parse.current s = .ok s.reading.scanner.current s := rfl
    rw [entries, Outcome.bind_of_ok hcurrent] at h
    split at h
    · rcases Outcome.bind_eq_error h with hentry | ⟨⟨⟩, s₁, hentry, hrest⟩
      · obtain ⟨r, hr, -⟩ := entry_eq_input_error hentry
        exact Parse.refuses_entry s.reading e r hr he
      · obtain ⟨r₁, p, r₂, hr₁, hp, hrefuse⟩ := ih hrest
        have hs₁ : s.reading.Comes s₁.reading := comes_entry.of_ok hentry
        exact ⟨r₁, p, r₂, hs₁.trans hr₁, hp, hrefuse⟩
    · cases h

/-- A program that is stopped by a refused name has come to a place where one of the four
routines refuses it. -/
theorem refused_of_runText {text : List Char} (h : runText text s = .error (.input e) s')
    (he : e.problem.refused?.isSome = true) :
    ∃ r p r', Scanner.Comes (Scanner.mk s.reading.scanner.current text
        s.reading.scanner.location).advance r.scanner ∧
      p ∈ Routine.namers ∧ p.run r = .error (.input e) r' := by
  let s₁ := Outcome.after (takeUp text) s
  have htakeUp : takeUp text s = .ok () s₁ := rfl
  have hbound : parse Parse.bound s₁ = .ok (s₁.reading.scanner.remaining + 1) s₁ := rfl
  rw [runText, Outcome.bind_of_ok htakeUp, Outcome.bind_of_ok hbound] at h
  obtain ⟨r, p, r', hr, hp, hrefuse⟩ := refused_of_entries h he
  exact ⟨r, p, r', Scanner.Comes.start.skip.trans hr, hp, hrefuse⟩

end Act

/-- **The line that is told with a refused name.**  Let a text without `/` be read from its
beginning, where the location is the first one.

* Wherever one of the four routines refuses a name, the scanner shows this name, and the line
  that is told is the one on which the name stands and as many more as there are new lines
  among the blanks behind it.  So it is the line of the name exactly where there is no new line
  among them.
* A program that is stopped by a refused name has come to such a place. -/
theorem line_of_refused_name {text : List Char} (hplain : '/' ∉ text) (k : Option Char) :
    let s₀ := (Scanner.mk k text .start).advance
    (∀ {r r' : Reading} {p : Routine} {e : InputError} {x : String}, Scanner.Comes s₀ r.scanner →
      p ∈ Routine.namers → p.run r = .error (.input e) r' → e.problem.refused? = some x →
      ∃ before rest, text = before ++ x.toList ++ rest ∧ r.scanner.Shows (x.toList ++ rest) ∧
        Named x (x.toList ++ rest) rest ∧
        e.location.line = 1 + before.count '\n' + (rest.takeWhile isBlank).count '\n' ∧
        (e.location.line = 1 + before.count '\n' ↔ '\n' ∉ rest.takeWhile isBlank)) ∧
    ∀ {σ σ' : Session} {e : InputError}, σ.reading.scanner.current = k →
      σ.reading.scanner.location = .start → Act.runText text σ = .error (.input e) σ' →
      e.problem.refused?.isSome = true →
      ∃ r p r', Scanner.Comes s₀ r.scanner ∧ p ∈ Routine.namers ∧
        p.run r = .error (.input e) r' := by
  intro s₀
  refine ⟨?_, ?_⟩
  · intro r r' p e x hr hp h hx
    obtain ⟨before, rest, htext, hshows, hnamed, hline⟩ :=
      line_of_refusesHere hplain hr (Parse.refusesHere_of_namer hp h hx)
    refine ⟨before, rest, htext, hshows, hnamed, hline, ?_⟩
    rw [hline, ← List.count_eq_zero]
    show 1 + _ + _ = _ ↔ _
    omega
  · rintro σ σ' e rfl hstart h he
    have hrefused := Act.refused_of_runText h he
    rwa [hstart] at hrefused

/-- Here a keyword for a definition stands on the second line, and the next token on the
fourth. -/
theorem line_of_refused_name_apart :
    let text := "def\ndo\n\n x".toList
    let r : Reading := ⟨⟨some 'd', "o\n\n x".toList, ⟨2, 2⟩⟩, 0⟩
    let e : InputError := ⟨.keyword "do", ⟨4, 3⟩⟩
    let σ := Session.starting ⟨50, 50⟩
    Outcome.verdict Routine.definitionName.run r = .error (.input e) ∧
      (∃ before rest, text = before ++ "do".toList ++ rest ∧
        r.scanner.Shows ("do".toList ++ rest) ∧
        e.location.line = 1 + before.count '\n' + (rest.takeWhile isBlank).count '\n') ∧
      Outcome.verdict (Act.runText text) σ = .error (.input e) ∧
      ∃ r' p r'', Scanner.Comes (Scanner.mk none text .start).advance r'.scanner ∧
        p ∈ Routine.namers ∧ p.run r' = .error (.input e) r'' := by
  intro text r e σ
  have hplain : '/' ∉ text := by decide
  have hr : Scanner.Comes (Scanner.mk none text .start).advance r.scanner :=
    Scanner.Comes.start.advance.advance.advance.advance
  have hrefuse : Outcome.verdict Routine.definitionName.run r = .error (.input e) := by
    decide +kernel
  have hrun : Outcome.verdict (Act.runText text) σ = .error (.input e) := by decide +kernel
  obtain ⟨hlines, hprograms⟩ := line_of_refused_name hplain none
  obtain ⟨before, rest, htext, hshows, -, hline, -⟩ :=
    hlines hr (by decide) (Outcome.eq_error_of_verdict hrefuse) rfl
  exact ⟨hrefuse, ⟨before, rest, htext, hshows, hline⟩, hrun,
    hprograms rfl rfl (Outcome.eq_error_of_verdict hrun) rfl⟩

/-- In `foo`, a new line and `x`, no keyword comes.  The name stands on the first line, and the
second is told. -/
theorem refused_name_on_next_line :
    let text := "foo\nx".toList
    let r : Reading := ⟨(Scanner.mk none text .start).advance, 0⟩
    r.scanner.Shows text ∧
      Outcome.verdict Routine.keyword.run r
        = .error (.input ⟨.notAKeyword "foo", ⟨2, 2⟩⟩) := by
  intro text r
  exact ⟨⟨rfl, rfl⟩, by decide +kernel⟩

end LambdaScript
