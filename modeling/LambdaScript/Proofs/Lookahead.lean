/-
LambdaScript/Proofs/Lookahead.lean

Reading does not look ahead.

Where an entry ends shows only at the first character that cannot belong to it, and that
character stays in hand.  What is behind it has not been seen: an entry that is read from a
text up to there is read in the same way when the text goes on.  So the entries of a program
can be read one by one, each from a piece of the text, wherever the piece stands.

`Scanner.Extends` puts a text behind that of a scanner; locations do not matter.  A movement is
`Unseeing` if it does the same in both scanners whenever the first stops before the text that
has been added.  A scanner that has come to its end stays there, so a movement that stops
before the end has never been there (the first part of `Unseeing`).

Main result: `Parse.unseeing_entry`.
-/
import LambdaScript.Proofs.Rejections
import LambdaScript.Proofs.Termination

namespace LambdaScript

namespace Scanner

/-- The second scanner has the same character in hand, and `tail` behind the rest of the
first. -/
structure Extends (tail : List Char) (s s' : Scanner) : Prop where
  current : s'.current = s.current
  rest : s'.rest = s.rest ++ tail

/-- The scanner has not come to `tail`: it has a character in hand, or `tail` is empty. -/
def Before (tail : List Char) (s : Scanner) : Prop :=
  s.current ≠ none ∨ tail = []

/-- If the movement `f` stops before `tail`, it has been before `tail` all the time and moves a
scanner with `tail` behind it in the same way. -/
def Unseeing {α : Type} (tail : List Char) (f : Scanner → α × Scanner) (s : Scanner) : Prop :=
  (f s).2.Before tail → s.Before tail ∧
    ∀ s', s.Extends tail s' → (f s').1 = (f s).1 ∧ (f s).2.Extends tail (f s').2

variable {α β γ : Type} {tail : List Char} {s s' : Scanner}

theorem Extends.advance (h : s.Extends tail s') (hs : s.advance.Before tail) :
    s.advance.Extends tail s'.advance := by
  obtain ⟨k, rest, l⟩ := s
  cases rest with
  | nil =>
    obtain rfl : tail = [] := hs.resolve_left fun hcurrent => hcurrent rfl
    exact ⟨congrArg List.head? h.rest, congrArg List.tail h.rest⟩
  | cons c rest => exact ⟨congrArg List.head? h.rest, congrArg List.tail h.rest⟩

namespace Unseeing

variable {f : Scanner → α × Scanner} {g : Scanner → β × Scanner} {h : Scanner → γ × Scanner}

/-- A movement that does not move. -/
theorem stay {a : α} (hf : ∀ s', s'.current = s.current → f s' = (a, s')) : Unseeing tail f s := by
  intro hbefore
  rw [hf s rfl] at hbefore ⊢
  refine ⟨hbefore, fun s' hs' => ?_⟩
  rw [hf s' hs'.current]
  exact ⟨rfl, hs'⟩

/-- A movement that takes a character and goes on; it may have looked at the next. -/
theorem step {k : β → α} {c : Char} (hcurrent : s.current = some c)
    (hf : ∀ s', s'.current = s.current → s'.advance.current = s.advance.current →
      f s' = (k (g s'.advance).1, (g s'.advance).2))
    (hg : Unseeing tail g s.advance) : Unseeing tail f s := by
  intro hbefore
  rw [hf s rfl rfl] at hbefore ⊢
  obtain ⟨hadvance, hrest⟩ := hg hbefore
  refine ⟨.inl (hcurrent ▸ Option.some_ne_none c), fun s' hs' => ?_⟩
  have hext := hs'.advance hadvance
  rw [hf s' hs'.current hext.current]
  exact (hrest _ hext).imp_left (congrArg k)

/-- One movement after the other. -/
theorem bind {k : β → γ → α} (hg : Unseeing tail g s) (hh : Unseeing tail h (g s).2)
    (hf : ∀ s', s'.current = s.current →
      f s' = (k (g s').1 (h (g s').2).1, (h (g s').2).2)) : Unseeing tail f s := by
  intro hbefore
  rw [hf s rfl] at hbefore ⊢
  obtain ⟨hbetween, hsecond⟩ := hh hbefore
  obtain ⟨hstart, hfirst⟩ := hg hbetween
  refine ⟨hstart, fun s' hs' => ?_⟩
  obtain ⟨hb, hext⟩ := hfirst s' hs'
  obtain ⟨hc, hext'⟩ := hsecond _ hext
  rw [hf s' hs'.current]
  exact ⟨congrArg₂ k hb hc, hext'⟩

/-- A movement at the end of the text that ends there. -/
theorem atEnd (hrest : s.rest = []) {a : α} {m : Scanner → Scanner}
    (hf : ∀ s', s'.current = s.current → s'.rest = [] → f s' = (a, m s'))
    (hm : ∀ s', s'.rest = [] → (m s').current = none ∧ (m s').rest = []) :
    Unseeing tail f s := by
  intro hbefore
  rw [hf s rfl hrest] at hbefore ⊢
  obtain ⟨hcurrent, hend⟩ := hm s hrest
  obtain rfl : tail = [] := hbefore.resolve_left fun h => h hcurrent
  refine ⟨.inr rfl, fun s' hs' => ?_⟩
  have hrest' : s'.rest = [] := by rw [hs'.rest, hrest, List.append_nil]
  obtain ⟨hcurrent', hend'⟩ := hm s' hrest'
  rw [hf s' hs'.current hrest']
  exact ⟨rfl, hcurrent'.trans hcurrent.symm, by rw [hend', hend, List.append_nil]⟩

end Unseeing

/-! ### Comments, blanks and names -/

theorem advance_of_rest_eq_nil (h : s.rest = []) :
    s.advance.current = none ∧ s.advance.rest = [] := by
  rw [advance, h]
  exact ⟨rfl, rfl⟩

theorem rest_eq_nil_of_advance (h : s.advance.current = none) : s.rest = [] :=
  List.head?_eq_none_iff.mp h

theorem lineComment_eq (s : Scanner) : s.lineComment = s.current.elim ([], s) fun c =>
    if c = '\n' then ([], s) else (c :: s.advance.lineComment.1, s.advance.lineComment.2) := by
  rw [lineComment]
  split
  · next h => rw [h, Option.elim_none]
  · next c h => rw [h, Option.elim_some]

theorem unseeing_lineComment (s : Scanner) : Unseeing tail lineComment s := by
  fun_induction lineComment s with
  | case1 s h =>
    refine .stay (a := []) fun s' hs' => ?_
    rw [lineComment_eq, hs', h, Option.elim_none]
  | case2 s h =>
    refine .stay (a := []) fun s' hs' => ?_
    rw [lineComment_eq, hs', h, Option.elim_some, if_pos rfl]
  | case3 s c h hc r ih =>
    refine .step (k := (c :: ·)) h (fun s' hs' _ => ?_) ih
    rw [lineComment_eq, hs', h, Option.elim_some, if_neg hc]

theorem blockComment_eq (s : Scanner) : s.blockComment = s.current.elim ([], s) fun c =>
    if c = '*' then s.advance.current.elim ([], s.advance.advance) fun d =>
      if d = '/' then ([], s.advance.advance)
      else (d :: s.advance.advance.blockComment.1, s.advance.advance.blockComment.2)
    else (c :: s.advance.blockComment.1, s.advance.blockComment.2) := by
  rw [blockComment]
  split
  · next h => rw [h, Option.elim_none]
  · next c h =>
    rw [h, Option.elim_some]
    rcases s.advance.current with - | d <;> rfl

theorem unseeing_advance {c : Char} (h : s.current = some c) :
    Unseeing tail (fun s => (([] : List Char), s.advance)) s :=
  .step (g := fun s => ((), s)) (k := fun _ => []) h (fun _ _ _ => rfl)
    (.stay (a := ()) fun _ _ => rfl)

theorem unseeing_blockComment (s : Scanner) : Unseeing tail blockComment s := by
  fun_induction blockComment s with
  | case1 s h =>
    refine .stay (a := []) fun s' hs' => ?_
    rw [blockComment_eq, hs', h, Option.elim_none]
  | case2 s hd h =>
    have hrest := rest_eq_nil_of_advance hd
    refine .atEnd hrest (a := []) (m := (·.advance.advance)) (fun s' hs' hrest' => ?_)
      fun s' hs' => advance_of_rest_eq_nil (advance_of_rest_eq_nil hs').2
    rw [blockComment_eq, hs', h, Option.elim_some, if_pos rfl, (advance_of_rest_eq_nil hrest').1,
      Option.elim_none]
  | case3 s h hd =>
    refine .step (g := fun s => ([], s.advance)) (k := id) h (fun s' hs' hd' => ?_)
      (unseeing_advance hd)
    rw [blockComment_eq, hs', h, Option.elim_some, if_pos rfl, hd', hd, Option.elim_some,
      if_pos rfl]
    rfl
  | case4 s d hd hs r h ih =>
    refine .step (g := fun s => (s.advance.blockComment.1, s.advance.blockComment.2))
      (k := (d :: ·)) h (fun s' hs' hd' => ?_)
      (.step (k := id) hd (fun _ _ _ => rfl) ih)
    rw [blockComment_eq, hs', h, Option.elim_some, if_pos rfl, hd', hd, Option.elim_some, if_neg hs]
  | case5 s c h hc r ih =>
    refine .step (k := (c :: ·)) h (fun s' hs' _ => ?_) ih
    rw [blockComment_eq, hs', h, Option.elim_some, if_neg hc]

theorem unseeing_comment (h : s.current = some '/') : Unseeing tail comment s := by
  rcases hnext : s.advance.current with - | d
  · -- there is no second character, and none is in hand then
    refine .atEnd (rest_eq_nil_of_advance hnext) (a := none)
      (m := fun s => { s with current := none }) (fun s' _ hrest' => ?_) fun s' hs' => ⟨rfl, hs'⟩
    rw [comment, (advance_of_rest_eq_nil hrest').1]
  · by_cases hline : d = '/'
    · subst hline
      refine .step (g := fun s => s.advance.lineComment) (k := fun l => some (String.ofList l)) h
        (fun s' _ hs' => ?_) (.step (k := id) hnext (fun _ _ _ => rfl) (unseeing_lineComment _))
      rw [comment, hs', hnext]
      rfl
    · by_cases hblock : d = '*'
      · subst hblock
        refine .step (g := fun s => s.advance.blockComment) (k := fun l => some (String.ofList l)) h
          (fun s' _ hs' => ?_) (.step (k := id) hnext (fun _ _ _ => rfl) (unseeing_blockComment _))
        rw [comment, hs', hnext]
        rfl
      · -- the second character is in hand then, and reading goes on before it
        have hopens {s' : Scanner} (hs' : s'.advance.current = some d) : ¬ s'.OpensComment := by
          rintro (hs | hs)
          · exact hline (Option.some.inj (hs'.symm.trans hs))
          · exact hblock (Option.some.inj (hs'.symm.trans hs))
        intro _
        refine ⟨.inl (h ▸ Option.some_ne_none _), fun s' hs' => ?_⟩
        have hext := hs'.advance (.inl (hnext ▸ Option.some_ne_none d))
        rw [comment_of_not_opens (hopens hnext),
          comment_of_not_opens (hopens (hext.current.trans hnext))]
        exact ⟨rfl, hext.current, hs'.rest⟩

theorem unseeing_commentHere (s : Scanner) : Unseeing tail commentHere s := by
  by_cases h : s.current = some '/'
  · have hstart {s' : Scanner} (hs' : s'.current = s.current) :
        CharClass.commentStart.has s'.current = true := by
      rw [hs', h]
      rfl
    refine .bind (k := fun told _ => told.toList.filter (· ≠ "")) (unseeing_comment h)
      (.stay (f := fun s => ((), s)) (a := ()) fun _ _ => rfl) fun s' hs' => ?_
    rw [commentHere, if_pos (hstart hs')]
  · refine .stay (a := []) fun s' hs' => ?_
    rw [commentHere, if_neg (by simpa [CharClass.has, hs'] using h)]

theorem unseeing_skipBlanks (s : Scanner) : Unseeing tail skipBlanks s := by
  fun_induction skipBlanks s with
  | case1 s h r q ih =>
    obtain ⟨c, hc, -⟩ := has_blank_iff.1 h
    have hrest : Unseeing tail (fun s => (s.commentHere.1 ++ s.commentHere.2.skipBlanks.1,
        s.commentHere.2.skipBlanks.2)) s.advance :=
      .bind (k := fun a b => a ++ b) (unseeing_commentHere _) ih fun _ _ => rfl
    refine .step (k := id) hc (fun s' hs' _ => ?_) hrest
    rw [skipBlanks, dif_pos (hs' ▸ h)]
    rfl
  | case2 s h =>
    refine .stay (a := []) fun s' hs' => ?_
    rw [skipBlanks, dif_neg (hs' ▸ h)]

theorem unseeing_skip (s : Scanner) : Unseeing tail skip s :=
  .bind (k := fun a b => a ++ b) (unseeing_commentHere s) (unseeing_skipBlanks _) fun _ _ => rfl

theorem nameTail_eq (s : Scanner) : s.nameTail = s.current.elim ([], s) fun c =>
    if CharClass.name.has (some c) then
      if c = '/' then ([], s.comment.2) else (c :: s.advance.nameTail.1, s.advance.nameTail.2)
    else ([], s) := by
  rw [nameTail]
  split
  · next h => rw [h, Option.elim_none]
  · next c h => rw [h, Option.elim_some]

theorem unseeing_nameTail (s : Scanner) : Unseeing tail nameTail s := by
  fun_induction nameTail s with
  | case1 s h =>
    refine .stay (a := []) fun s' hs' => ?_
    rw [nameTail_eq, hs', h, Option.elim_none]
  | case2 s h hc =>
    refine .bind (k := fun _ _ => []) (unseeing_comment h)
      (.stay (f := fun s => ((), s)) (a := ()) fun _ _ => rfl) fun s' hs' => ?_
    rw [nameTail_eq, hs', h, Option.elim_some, if_pos hc, if_pos rfl]
  | case3 s c h hname hc r ih =>
    refine .step (k := (c :: ·)) h (fun s' hs' _ => ?_) ih
    rw [nameTail_eq, hs', h, Option.elim_some, if_pos hname, if_neg hc]
  | case4 s c h hname =>
    refine .stay (a := []) fun s' hs' => ?_
    rw [nameTail_eq, hs', h, Option.elim_some, if_neg hname]

end Scanner

/-! ### Parsers -/

/-- The second reading has `tail` behind the text of the first, and the same supply. -/
structure Reading.Extends (tail : List Char) (r r' : Reading) : Prop where
  scanner : r.scanner.Extends tail r'.scanner
  next : r'.next = r.next

namespace Parse

/-- If the parser stops before `tail`, it has been before `tail` all the time and reads a text
with `tail` behind it in the same way. -/
def Unseeing {α : Type} (tail : List Char) (x : Parse α) : Prop :=
  ∀ r a r', x r = .ok a r' → r'.scanner.Before tail → r.scanner.Before tail ∧
    ∀ r₁, r.Extends tail r₁ → ∃ r₁', x r₁ = .ok a r₁' ∧ r'.Extends tail r₁'

namespace Unseeing

variable {α β : Type} {tail : List Char}

theorem pure (a : α) : Unseeing tail (pure a : Parse α) := by
  intro r b r' h hbefore
  cases h
  exact ⟨hbefore, fun r₁ hr₁ => ⟨r₁, rfl, hr₁⟩⟩

theorem bind {x : Parse α} {f : α → Parse β} (hx : Unseeing tail x)
    (hf : ∀ a, Unseeing tail (f a)) : Unseeing tail (x >>= f) := by
  intro r b r' h hbefore
  obtain ⟨a, r₀, hfirst, hsecond⟩ := Outcome.bind_eq_ok h
  obtain ⟨hbetween, hrest⟩ := hf a _ _ _ hsecond hbefore
  obtain ⟨hstart, hfirst'⟩ := hx _ _ _ hfirst hbetween
  refine ⟨hstart, fun r₁ hr₁ => ?_⟩
  obtain ⟨r₂, hr₂, hext⟩ := hfirst' r₁ hr₁
  obtain ⟨r₃, hr₃, hext'⟩ := hrest r₂ hext
  exact ⟨r₃, (Outcome.bind_of_ok hr₂).trans hr₃, hext'⟩

theorem reject (p : Problem) : Unseeing tail (reject p : Parse α) := by
  intro r a r' h
  cases h

theorem endless : Unseeing tail (throw .endless : Parse α) := by
  intro r a r' h
  cases h

theorem scan {f : Scanner → α × Scanner} (hf : ∀ s, Scanner.Unseeing tail f s) :
    Unseeing tail (scan f) := by
  intro r a r' h hbefore
  cases h
  obtain ⟨hstart, hrest⟩ := hf r.scanner hbefore
  refine ⟨hstart, fun r₁ hr₁ => ?_⟩
  obtain ⟨htold, hext⟩ := hrest r₁.scanner hr₁.scanner
  exact ⟨{ r₁ with scanner := (f r₁.scanner).2 }, htold ▸ rfl, hext, hr₁.next⟩

theorem current : Unseeing tail current := by
  intro r k r' h hbefore
  cases h
  exact ⟨hbefore, fun r₁ hr₁ => ⟨r₁, hr₁.scanner.current ▸ rfl, hr₁⟩⟩

/-- Taking a character that is there and going on, or else refusing it. -/
theorem take {p : Option Char → Prop} [DecidablePred p] (hp : ¬ p none) {x : Option Char → Parse α}
    {problem : Option Char → Problem} (hx : ∀ k, Unseeing tail (x k)) :
    Unseeing tail (do
      let k ← Parse.current
      if p k then
        advance
        x k
      else Parse.reject (problem k)) := by
  intro r a r' h hbefore
  rw [current_bind] at h
  split at h
  · next hk =>
    rcases hcurrent : r.scanner.current with - | c
    · exact absurd (hcurrent ▸ hk) hp
    obtain ⟨hadvance, hrest⟩ := hx _ { r with scanner := r.scanner.advance } a r' h hbefore
    refine ⟨.inl (hcurrent ▸ Option.some_ne_none c), fun r₁ hr₁ => ?_⟩
    obtain ⟨r₂, hr₂, hext⟩ := hrest { r₁ with scanner := r₁.scanner.advance }
      ⟨hr₁.scanner.advance hadvance, hr₁.next⟩
    refine ⟨r₂, ?_, hext⟩
    rw [current_bind, hr₁.scanner.current, if_pos hk]
    exact hr₂
  · cases h

theorem takeAll (text : String) (l : List Char) : Unseeing tail (takeAll text l) := by
  induction l with
  | nil => exact pure ()
  | cons c rest ih =>
    exact take (p := (· = some c)) (Option.some_ne_none c).symm fun _ => ih

theorem expect (text : String) : Unseeing tail (expect text) :=
  (takeAll text text.toList).bind fun _ => scan Scanner.unseeing_skip

theorem identifier : Unseeing tail identifier := by
  refine take (p := (CharClass.name.has · = true)) (by decide) fun k => ?_
  exact (scan Scanner.unseeing_nameTail).bind fun _ => (scan Scanner.unseeing_skip).bind fun _ =>
    pure _

theorem keyword : Unseeing tail keyword := by
  refine identifier.bind fun x => ?_
  split
  · exact pure _
  · exact reject _

theorem name : Unseeing tail name := by
  refine identifier.bind fun x => ?_
  split
  · exact reject _
  · exact pure x

theorem argumentName : Unseeing tail argumentName := by
  refine name.bind fun x => ?_
  split
  · exact reject _
  · exact pure x

theorem definitionName : Unseeing tail definitionName := by
  refine identifier.bind fun x => ?_
  split
  · exact reject _
  split
  · exact reject _
  · exact pure x

theorem newBinder (marked : Bool) : Unseeing tail (newBinder marked) := by
  intro r b r' h hbefore
  cases h
  exact ⟨hbefore, fun r₁ hr₁ => ⟨{ r₁ with next := r₁.next + 1 }, hr₁.next ▸ rfl, hr₁.scanner,
    congrArg (· + 1) hr₁.next⟩⟩

theorem identity : Unseeing tail (make Term.identity) := by
  intro r t r' h hbefore
  cases h
  exact ⟨hbefore, fun r₁ hr₁ => ⟨{ r₁ with next := r₁.next + 1 }, hr₁.next ▸ rfl, hr₁.scanner,
    congrArg (· + 1) hr₁.next⟩⟩

end Unseeing

variable {tail : List Char}

theorem compositional_unseeing : Compositional fun _ x => Unseeing tail x where
  pure := .pure
  bind := .bind
  current := .current
  endless := .endless
  newBinder := .newBinder
  identity := .identity
  expect := .expect
  keyword := .keyword
  name := .name
  argumentName := .argumentName
  definitionName := .definitionName

/-- With more text to come, the bound on an expression is larger, and a larger bound makes no
difference to an expression that has been read. -/
theorem unseeing_expression : Unseeing tail expression := by
  intro r t r' h hbefore
  obtain ⟨hstart, hrest⟩ := compositional_unseeing.expressionWithin _ r t r' h hbefore
  refine ⟨hstart, fun r₁ hr₁ => ?_⟩
  obtain ⟨r₂, hr₂, hext⟩ := hrest r₁ hr₁
  refine ⟨r₂, ?_, hext⟩
  have hle : r.scanner.remaining + 1 ≤ r₁.scanner.remaining + 1 := by
    rw [Scanner.remaining, Scanner.remaining, hr₁.scanner.current, hr₁.scanner.rest,
      List.length_append]
    omega
  rcases Refines.expressionWithin hle r₁ with hendless | heq
  · rw [hr₂] at hendless
    exact absurd hendless Endless.not_ok
  · exact heq.symm.trans hr₂

/-- **Reading does not look ahead.**  An entry that is read up to a character before `tail` is
read in the same way wherever `tail` follows. -/
theorem unseeing_entry : Unseeing tail entry :=
  compositional_unseeing.entry unseeing_expression

end Parse

end LambdaScript
