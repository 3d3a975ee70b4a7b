/-
LambdaScript/Proofs/Grammar.lean

The grammar of expressions, and that the parser accepts it and nothing else.

    expression  ::=  name  |  ( series )  |  [ argument+ . series ]
    argument    ::=  name  |  $ name
    series      ::=  expression*

`Derives` states the grammar on the characters of a text, with blanks between the
tokens: a form stands at the beginning of one text, and another text is what
follows it.  What a form denotes is a `Phrase`, that is an expression without its
keys and links.

That what is read is derived is shown along the parser, round by round.  The other
direction is by induction on the derivation.  Every form has at least one
character, so the length of the text bounds the rounds and brackets that it needs.

Main result: `expression_accepts_grammar`.
-/
import LambdaScript.Proofs.Texts

namespace LambdaScript

/-! ### Phrases -/

/-- An expression as it is written: names, applications and functions of one argument, which
may bear the mark `$`. -/
inductive Phrase
  | name (x : String)
  | app (fn arg : Phrase)
  | function (marked : Bool) (x : String) (body : Phrase)
  deriving DecidableEq

namespace Phrase

/-- What an empty series stands for. -/
def identity : Phrase := function false "x" (name "x")

/-- The phrases of a series applied from left to right. -/
def series : List Phrase → Phrase
  | [] => identity
  | w :: ws => ws.foldl app w

/-- A function of several arguments. -/
def functions (args : List (Bool × String)) (body : Phrase) : Phrase :=
  args.foldr (fun a w => function a.1 a.2 w) body

end Phrase

/-- The phrase of an expression, unless something in it cannot be written. -/
def Term.phrase? : Term → Option Phrase
  | app f a => do return .app (← f.phrase?) (← a.phrase?)
  | lam b x t => do return .function b.recursive x (← t.phrase?)
  | ref x _ => some (.name x)
  | _ => none

/-- An argument as it is written. -/
def written (a : Binder × String) : Bool × String := (a.1.recursive, a.2)

namespace Term

theorem phrase?_app {f a : Term} {v w : Phrase} (hf : f.phrase? = some v)
    (ha : a.phrase? = some w) : (app f a).phrase? = some (.app v w) := by
  rw [phrase?, hf, ha]
  rfl

theorem phrase?_lam {t : Term} {w : Phrase} (b : Binder) (x : String) (ht : t.phrase? = some w) :
    (lam b x t).phrase? = some (.function b.recursive x w) := by
  rw [phrase?, ht]
  rfl

theorem phrase?_link (b : Binder) (x : String) (t : Term) :
    (t.link b x).phrase? = t.phrase? := by
  induction t with
  | missing => rfl
  | foreign => rfl
  | app f a ihf iha => rw [link_app, phrase?, ihf, iha, phrase?]
  | lam c y t ih => rw [link_lam, phrase?, ih, phrase?]
  | ref y l =>
    cases l with
    | free => by_cases h : y = x <;> simp [link, linkAs, h, phrase?]
    | binder c => rfl
    | reference k own => rfl
    | endless => rfl

theorem phrase?_lams {t : Term} {w : Phrase} (args : List (Binder × String))
    (ht : t.phrase? = some w) :
    (lams args t).phrase? = some (.functions (args.map written) w) := by
  induction args with
  | nil => exact ht
  | cons a args ih =>
    rw [lams_cons]
    exact phrase?_lam a.1 a.2 ((phrase?_link a.1 a.2 _).trans ih)

end Term

/-! ### The grammar -/

namespace Grammar

/-- An argument: a name, or the mark `$` and a name.  A `$` at the beginning is always the
mark. -/
inductive Argument : Bool × String → List Char → List Char → Prop
  | plain {x text rest} : Named x text rest → x.toList.head? ≠ some '$' → isReserved x = false →
      Argument (false, x) text rest
  | marked {x text mid rest} : Blanks text mid → Named x mid rest → isReserved x = false →
      Argument (true, x) ('$' :: text) rest

/-- Arguments one after the other, with blanks before each. -/
inductive Arguments : List (Bool × String) → List Char → List Char → Prop
  | nil {text} : Arguments [] text text
  | cons {a args text t₁ t₂ rest} : Blanks text t₁ → Argument a t₁ t₂ → Arguments args t₂ rest →
      Arguments (a :: args) text rest

/-- What a text can begin with. -/
inductive Category
  | expression (w : Phrase)
  | series (ws : List Phrase)

/-- The text begins with a form of the category, and `rest` follows it. -/
inductive Derives : Category → List Char → List Char → Prop
  | name {x text rest} : Named x text rest → (Keyword.ofName? x).isSome = false →
      Derives (.expression (.name x)) text rest
  | bracket {ws text t₁ t₂ rest} : Derives (.series ws) text t₁ → Blanks t₁ t₂ →
      Closed ')' t₂ rest → Derives (.expression (.series ws)) ('(' :: text) rest
  | function {args ws text t₁ t₂ t₃ t₄ rest} : args ≠ [] → Arguments args text t₁ →
      Blanks t₁ ('.' :: t₂) → Derives (.series ws) t₂ t₃ → Blanks t₃ t₄ → Closed ']' t₄ rest →
      Derives (.expression (.functions args (.series ws))) ('[' :: text) rest
  | empty {text} : Derives (.series []) text text
  | item {w ws text t₁ t₂ rest} : Blanks text t₁ → Derives (.expression w) t₁ t₂ →
      Derives (.series ws) t₂ rest → Derives (.series (w :: ws)) text rest

variable {text rest : List Char} {a : Bool × String} {args : List (Bool × String)}
  {k : Category} {w : Phrase} {ws : List Phrase}

theorem Argument.length_lt (h : Argument a text rest) : rest.length < text.length := by
  cases h with
  | plain hx =>
    obtain ⟨c, tail, -, rfl, -, rfl⟩ := hx.eq_cons
    exact Nat.lt_succ_of_le (List.dropWhile_suffix _).length_le
  | marked hblanks hx =>
    exact Nat.lt_succ_of_le (Nat.le_trans hx.suffix.length_le hblanks.suffix.length_le)

/-- An argument begins with no full stop. -/
theorem Argument.starts (h : Argument a text rest) :
    ∃ c tail, text = c :: tail ∧ isBlank c = false ∧
      CharClass.argumentEnd.has (some c) = false := by
  cases h with
  | plain hx =>
    obtain ⟨c, tail, hc, rfl, -, -⟩ := hx.eq_cons
    refine ⟨c, tail, rfl, isBlank_eq_false_of_isNameChar hc, ?_⟩
    have hdot : c ≠ '.' := fun h => isNameChar_iff.mp hc (h ▸ by decide)
    simpa [CharClass.has] using hdot
  | marked _ _ => exact ⟨_, _, rfl, by decide, by decide⟩

theorem Arguments.length_le (h : Arguments args text rest) : rest.length ≤ text.length := by
  induction h with
  | nil => exact Nat.le_refl _
  | cons hblanks ha _ ih =>
    have hmid := hblanks.suffix.length_le
    have hlt := ha.length_lt
    omega

/-- A form is not longer than the text it stands in, and an expression has at least one
character. -/
theorem Derives.length_le (h : Derives k text rest) :
    match k with
    | .expression _ => rest.length < text.length
    | .series _ => rest.length ≤ text.length := by
  induction h with
  | name hx _ =>
    obtain ⟨c, tail, -, rfl, -, rfl⟩ := hx.eq_cons
    exact Nat.lt_succ_of_le (List.dropWhile_suffix _).length_le
  | bracket _ hblanks hclosed ih =>
    have h₁ := hblanks.suffix.length_le
    have h₂ := hclosed.suffix.length_le
    simp only [List.length_cons] at *
    omega
  | function _ hargs hblanks _ hblanks' hclosed ih =>
    have h₁ := hargs.length_le
    have h₂ := hblanks.suffix.length_le
    have h₃ := hblanks'.suffix.length_le
    have h₄ := hclosed.suffix.length_le
    simp only [List.length_cons] at *
    omega
  | empty => exact Nat.le_refl _
  | item hblanks _ _ ihw ihws =>
    have h₁ := hblanks.suffix.length_le
    simp only at *
    omega

/-- What an expression can begin with. -/
theorem Derives.starts (h : Derives (.expression w) text rest) :
    ∃ c tail, text = c :: tail ∧ isBlank c = false ∧ CharClass.bracketEnd.has (some c) = false := by
  cases h with
  | name hx _ =>
    obtain ⟨c, tail, hc, rfl, -, -⟩ := hx.eq_cons
    refine ⟨c, tail, rfl, isBlank_eq_false_of_isNameChar hc, ?_⟩
    have hround : c ≠ ')' := fun h => isNameChar_iff.mp hc (h ▸ by decide)
    have hsquare : c ≠ ']' := fun h => isNameChar_iff.mp hc (h ▸ by decide)
    simpa [CharClass.has] using ⟨hround, hsquare⟩
  | bracket _ _ _ => exact ⟨_, _, rfl, by decide, by decide⟩
  | function _ _ _ _ _ _ => exact ⟨_, _, rfl, by decide, by decide⟩

end Grammar

/-! ### What is read is derived -/

open Grammar

namespace Parse

variable {r r' : Reading} {text : List Char}

theorem argument_sound {a : Binder × String} (hr : r.At text) (h : argument r = .ok a r') :
    ∃ rest, Argument (written a) (trimmed text) rest ∧ r'.At rest := by
  rw [argument, current_bind] at h
  dsimp only at h
  split at h
  · next hmark =>
    obtain ⟨_, r₁, hexpect, h₁⟩ := Outcome.bind_eq_ok h
    obtain ⟨mid, hmid, hr₁⟩ := expect_eq_ok (c := '$') rfl hr hexpect
    obtain ⟨x, r₂, hname, h₂⟩ := Outcome.bind_eq_ok h₁
    obtain ⟨rest, hx, hreserved, hr₂⟩ := named_of_argumentName hr₁ hname
    cases h₂
    refine ⟨rest, ?_, hr₂.shows, hr₂.plain⟩
    rw [hmid, written, decide_eq_true hmark]
    exact .marked (blanks_trimmed mid) hx hreserved
  · next hmark =>
    obtain ⟨x, r₂, hname, h₂⟩ := Outcome.bind_eq_ok h
    obtain ⟨rest, hx, hreserved, hr₂⟩ := named_of_argumentName hr hname
    cases h₂
    refine ⟨rest, ?_, hr₂.shows, hr₂.plain⟩
    rw [written, decide_eq_false hmark]
    refine .plain hx ?_ hreserved
    rwa [hx.head?_eq, ← hr.current_eq]

theorem arguments_sound {rounds : Nat} {args : List (Binder × String)} (hr : r.At text)
    (h : arguments rounds r = .ok args r') :
    ∃ rest, Arguments (args.map written) text rest ∧ (trimmed rest).head? = some '.' ∧
      r'.At rest := by
  induction rounds generalizing r args text with
  | zero => cases h
  | succ rounds ih =>
    rw [arguments, current_bind] at h
    split at h
    · next hstop =>
      cases h
      refine ⟨text, .nil, ?_, hr⟩
      rw [← hr.current_eq]
      simpa [CharClass.has] using hstop
    · obtain ⟨a, r₁, ha, h₁⟩ := Outcome.bind_eq_ok h
      obtain ⟨more, r₂, hmore, h₂⟩ := Outcome.bind_eq_ok h₁
      cases h₂
      obtain ⟨mid, hderived, hr₁⟩ := argument_sound hr ha
      obtain ⟨rest, hrest, hstop, hr₂⟩ := ih hr₁ hmore
      exact ⟨rest, .cons (blanks_trimmed text) hderived hrest, hstop, hr₂⟩

/-- What the parser gives is derived from the text it has read; where no expression starts,
it gives `missing` and reads nothing. -/
def Sound (item : Parse Term) : Prop :=
  ∀ {r r' : Reading} {t : Term} {text : List Char}, r.At text → item r = .ok t r' →
    t = .missing ∧ r' = r ∨
      ∃ w rest, t.phrase? = some w ∧ Derives (.expression w) (trimmed text) rest ∧ r'.At rest

section Series

variable {item : Parse Term} (hitem : Sound item) {rounds : Nat} {t u : Term}

include hitem

theorem seriesFrom_sound {w : Phrase} (hr : r.At text) (ht : t.phrase? = some w)
    (h : seriesFrom item rounds t r = .ok u r') :
    ∃ ws rest, u.phrase? = some (ws.foldl .app w) ∧ Derives (.series ws) text rest ∧
      r'.At rest := by
  induction rounds generalizing r t text w with
  | zero => cases h
  | succ rounds ih =>
    rw [seriesFrom, current_bind] at h
    split at h
    · cases h
      exact ⟨[], text, ht, .empty, hr⟩
    · next hend =>
      obtain ⟨a, r₁, ha, h₁⟩ := Outcome.bind_eq_ok h
      rcases hitem hr ha with ⟨rfl, rfl⟩ | ⟨v, mid, hv, hderives, hr₁⟩
      · rw [seriesFrom_missing ha hend] at h₁
        cases h₁
      · obtain ⟨ws, rest, hu, hws, hr'⟩ := ih hr₁ (Term.phrase?_app ht hv) h₁
        exact ⟨v :: ws, rest, hu, .item (blanks_trimmed text) hderives hws, hr'⟩

theorem seriesOf_sound (hr : r.At text) (h : seriesOf item rounds r = .ok t r') :
    ∃ ws rest, t.phrase? = some (.series ws) ∧ Derives (.series ws) text rest ∧ r'.At rest := by
  rw [seriesOf, current_bind] at h
  split at h
  · cases h
    exact ⟨[], text, rfl, .empty, hr.shows, hr.plain⟩
  · next hend =>
    obtain ⟨a, r₁, ha, h₁⟩ := Outcome.bind_eq_ok h
    rcases hitem hr ha with ⟨rfl, rfl⟩ | ⟨v, mid, hv, hderives, hr₁⟩
    · rw [seriesFrom_missing ha hend] at h₁
      cases h₁
    · obtain ⟨ws, rest, ht, hws, hr'⟩ := seriesFrom_sound hitem hr₁ hv h₁
      exact ⟨v :: ws, rest, ht, .item (blanks_trimmed text) hderives hws, hr'⟩

theorem bracketOf_sound (hr : r.At text) (h : bracketOf item rounds r = .ok t r') :
    ∃ w rest, t.phrase? = some w ∧ Derives (.expression w) (trimmed text) rest ∧ r'.At rest := by
  obtain ⟨_, r₁, hopen, h₁⟩ := Outcome.bind_eq_ok h
  obtain ⟨u, r₂, hseries, h₂⟩ := Outcome.bind_eq_ok h₁
  obtain ⟨_, r₃, hclose, h₃⟩ := Outcome.bind_eq_ok h₂
  cases h₃
  obtain ⟨mid, hmid, hr₁⟩ := expect_eq_ok (c := '(') rfl hr hopen
  obtain ⟨ws, mid', ht, hws, hr₂⟩ := seriesOf_sound hitem hr₁ hseries
  obtain ⟨rest, hclosed, hr₃⟩ := close_eq_ok (c := ')') rfl hr₂ hclose
  exact ⟨.series ws, rest, ht, hmid ▸ .bracket hws (blanks_trimmed mid') hclosed, hr₃⟩

theorem functionOf_sound (hr : r.At text) (h : functionOf item rounds r = .ok t r') :
    ∃ w rest, t.phrase? = some w ∧ Derives (.expression w) (trimmed text) rest ∧ r'.At rest := by
  obtain ⟨_, r₁, hopen, h₁⟩ := Outcome.bind_eq_ok h
  obtain ⟨a, r₂, harg, h₂⟩ := Outcome.bind_eq_ok h₁
  obtain ⟨more, r₃, hmore, h₃⟩ := Outcome.bind_eq_ok h₂
  obtain ⟨_, r₄, hstop, h₄⟩ := Outcome.bind_eq_ok h₃
  obtain ⟨body, r₅, hseries, h₅⟩ := Outcome.bind_eq_ok h₄
  obtain ⟨_, r₆, hclose, h₆⟩ := Outcome.bind_eq_ok h₅
  cases h₆
  obtain ⟨t₁, ht₁, hr₁⟩ := expect_eq_ok (c := '[') rfl hr hopen
  obtain ⟨t₂, ha, hr₂⟩ := argument_sound hr₁ harg
  obtain ⟨t₃, hargs, hhead, hr₃⟩ := arguments_sound hr₂ hmore
  -- the arguments have come to an end at a full stop, so it is there
  obtain ⟨t₄, hclosed, hr₄⟩ := close_eq_ok (c := '.') rfl hr₃ hstop
  obtain ⟨ws, t₅, hbody, hws, hr₅⟩ := seriesOf_sound hitem hr₄ hseries
  obtain ⟨rest, hclosed', hr₆⟩ := close_eq_ok (c := ']') rfl hr₅ hclose
  have ht₃ : trimmed t₃ = '.' :: t₄ := by
    rcases hclosed with hdot | ⟨hnil, -⟩
    · exact hdot
    · rw [hnil] at hhead
      cases hhead
  refine ⟨_, rest, Term.phrase?_lams (a :: more) hbody, ?_, hr₆⟩
  rw [ht₁]
  exact .function (List.cons_ne_nil _ _) (.cons (blanks_trimmed t₁) ha hargs)
    (ht₃ ▸ blanks_trimmed t₃) hws (blanks_trimmed t₅) hclosed'

end Series

theorem expressionWithin_sound (depth : Nat) : Sound (expressionWithin depth) := by
  induction depth with
  | zero =>
    intro r r' t text hr h
    cases h
  | succ depth ih =>
    intro r r' t text hr h
    rw [expressionWithin, current_bind] at h
    split at h
    · exact .inr (bracketOf_sound ih hr h)
    split at h
    · exact .inr (functionOf_sound ih hr h)
    split at h
    · obtain ⟨x, r₁, hname, h₁⟩ := Outcome.bind_eq_ok h
      cases h₁
      obtain ⟨rest, hx, hkeyword, hr₁⟩ := name_eq_ok hr hname
      exact .inr ⟨.name x, rest, rfl, .name hx hkeyword, hr₁⟩
    · cases h
      exact .inl ⟨rfl, rfl⟩

/-! ### What is derived is read -/

theorem argument_gives {a : Bool × String} {rest : List Char} (hr : r.At text)
    (h : Argument a text rest) : Gives argument r (written · = a) rest := by
  -- behind the mark, or where there is none, a name is read
  have hgo : ∀ {marked : Bool} {x : String} {r₁ : Reading} {text₁ : List Char}, r₁.At text₁ →
      Named x text₁ rest → isReserved x = false →
      Gives (do
        let x ← argumentName
        return (← newBinder marked, x)) r₁ (written · = (marked, x)) rest := by
    intro marked x r₁ text₁ hr₁ hx hreserved
    refine (argumentName_gives hr₁ hx hreserved).bind fun y r₂ hy hr₂ => ?_
    exact ⟨_, _, rfl, by rw [hy]; rfl, hr₂.shows, hr₂.plain⟩
  refine .current rfl ?_
  cases h with
  | plain hx hmark hreserved =>
    obtain ⟨c, tail, hc, rfl, -, -⟩ := hx.eq_cons
    rw [hx.head?_eq, ← trimmed_cons (isBlank_eq_false_of_isNameChar hc), ← hr.current_eq] at hmark
    rw [if_neg hmark, decide_eq_false hmark]
    exact hgo hr hx hreserved
  | @marked x tail mid _ hblanks hx hreserved =>
    have hmark : trimmed ('$' :: tail) = '$' :: tail := trimmed_cons (by decide)
    have hcurrent := hr.current_eq_some hmark
    rw [if_pos hcurrent, decide_eq_true hcurrent]
    exact (expect_gives (c := '$') rfl hr hmark).bind fun _ r₁ _ hr₁ =>
      hgo (hr₁.blanks hblanks) hx hreserved

theorem arguments_gives {rounds : Nat} {args : List (Bool × String)} {rest : List Char}
    (hr : r.At text) (h : Arguments args text rest) (hstop : (trimmed rest).head? = some '.')
    (hrounds : text.length < rounds) : Gives (arguments rounds) r (·.map written = args) rest := by
  induction h generalizing r rounds with
  | nil =>
    obtain ⟨rounds, rfl⟩ := Nat.exists_eq_add_one_of_ne_zero (Nat.ne_zero_of_lt hrounds)
    refine .current (hr.current_eq.trans hstop) ?_
    rw [if_pos (by decide)]
    exact .pure hr rfl
  | cons hblanks ha _ ih =>
    obtain ⟨rounds, rfl⟩ := Nat.exists_eq_add_one_of_ne_zero (Nat.ne_zero_of_lt hrounds)
    have hmid := hblanks.suffix.length_le
    have hlt := ha.length_lt
    have hr' := hr.blanks hblanks
    obtain ⟨c, tail, rfl, hblank, hc⟩ := ha.starts
    refine .current (hr'.current_eq_some (trimmed_cons hblank)) ?_
    rw [if_neg (by rw [hc]; decide)]
    refine (argument_gives hr' ha).bind fun a r₁ hwritten hr₁ => ?_
    refine (ih hr₁ hstop (by omega)).bind fun more r₂ hmore hr₂ => ?_
    exact .pure hr₂ (by rw [List.map_cons, hwritten, hmore])

/-- The text is read as the derivation says, however far the reader may go into brackets and
rounds, if only the text is shorter. -/
def Accepted : Category → List Char → List Char → Prop
  | .expression w, text, rest => ∀ ⦃depth : Nat⦄ ⦃r : Reading⦄, text.length < depth → r.At text →
      Gives (expressionWithin depth) r (·.phrase? = some w) rest
  | .series ws, text, rest => ∀ ⦃depth rounds : Nat⦄ ⦃r : Reading⦄, text.length < depth →
      text.length < rounds → r.At text → CharClass.bracketEnd.has (trimmed rest).head? = true →
      Gives (seriesOf (expressionWithin depth) rounds) r (·.phrase? = some (.series ws)) rest ∧
      ∀ ⦃t : Term⦄ ⦃w : Phrase⦄, t.phrase? = some w →
        Gives (seriesFrom (expressionWithin depth) rounds t) r
          (·.phrase? = some (ws.foldl .app w)) rest

theorem bracketEnd_of_closed {c : Char} {mid rest : List Char} (hc : isBlank c = false)
    (hend : CharClass.bracketEnd.has (some c) = true) (hblanks : Blanks text mid)
    (hclosed : Closed c mid rest) : CharClass.bracketEnd.has (trimmed text).head? = true := by
  rw [hblanks.trimmed_eq]
  rcases hclosed with rfl | ⟨rfl, rfl⟩
  · rw [trimmed_cons hc]
    exact hend
  · rfl

theorem accepted_name {x : String} {rest : List Char} (hx : Named x text rest)
    (hkeyword : (Keyword.ofName? x).isSome = false) :
    Accepted (.expression (.name x)) text rest := by
  intro depth r hdepth hr
  obtain ⟨depth, rfl⟩ := Nat.exists_eq_add_one_of_ne_zero (Nat.ne_zero_of_lt hdepth)
  obtain ⟨c, tail, hc, rfl, -, -⟩ := hx.eq_cons
  have hround : c ≠ '(' := fun h => isNameChar_iff.mp hc (h ▸ by decide)
  have hsquare : c ≠ '[' := fun h => isNameChar_iff.mp hc (h ▸ by decide)
  have hbracket : ¬ CharClass.bracketStart.has (some c) = true := by
    simpa [CharClass.has] using hround
  have hfunction : ¬ CharClass.functionStart.has (some c) = true := by
    simpa [CharClass.has] using hsquare
  refine .current (hr.current_eq_some (trimmed_cons (isBlank_eq_false_of_isNameChar hc))) ?_
  rw [if_neg hbracket, if_neg hfunction,
    if_pos (show CharClass.name.has (some c) = true from hc)]
  exact (name_gives hr hx hkeyword).bind fun y r₁ hy hr₁ => .pure hr₁ (by rw [hy]; rfl)

theorem accepted_bracket {ws : List Phrase} {t₁ t₂ rest : List Char}
    (hws : Accepted (.series ws) text t₁) (hblanks : Blanks t₁ t₂) (hclosed : Closed ')' t₂ rest) :
    Accepted (.expression (.series ws)) ('(' :: text) rest := by
  intro depth r hdepth hr
  obtain ⟨depth, rfl⟩ := Nat.exists_eq_add_one_of_ne_zero (Nat.ne_zero_of_lt hdepth)
  have hlt : text.length < depth := Nat.lt_of_succ_lt_succ hdepth
  have hopen : trimmed ('(' :: text) = '(' :: text := trimmed_cons (by decide)
  have hend := bracketEnd_of_closed (by decide) (by decide) hblanks hclosed
  refine .current (hr.current_eq_some hopen) ?_
  rw [if_pos (by decide)]
  refine (expect_gives (c := '(') rfl hr hopen).bind fun _ r₁ _ hr₁ => ?_
  refine (hws hlt hlt hr₁ hend).1.bind fun t r₂ ht hr₂ => ?_
  exact (close_gives (c := ')') rfl (by decide) hr₂ hblanks hclosed).bind fun _ r₃ _ hr₃ =>
    .pure hr₃ ht

theorem accepted_function {args : List (Bool × String)} {ws : List Phrase}
    {t₁ t₂ t₃ t₄ rest : List Char} (hne : args ≠ []) (hargs : Arguments args text t₁)
    (hstop : Blanks t₁ ('.' :: t₂)) (hlength : t₂.length < text.length)
    (hws : Accepted (.series ws) t₂ t₃) (hblanks : Blanks t₃ t₄) (hclosed : Closed ']' t₄ rest) :
    Accepted (.expression (.functions args (.series ws))) ('[' :: text) rest := by
  intro depth r hdepth hr
  obtain ⟨depth, rfl⟩ := Nat.exists_eq_add_one_of_ne_zero (Nat.ne_zero_of_lt hdepth)
  have hlt : text.length < depth := Nat.lt_of_succ_lt_succ hdepth
  have hopen : trimmed ('[' :: text) = '[' :: text := trimmed_cons (by decide)
  have hdot : trimmed t₁ = '.' :: t₂ := hstop.trimmed_eq.trans (trimmed_cons (by decide))
  have hend := bracketEnd_of_closed (by decide) (by decide) hblanks hclosed
  refine .current (hr.current_eq_some hopen) ?_
  rw [if_neg (by decide), if_pos (by decide)]
  refine (expect_gives (c := '[') rfl hr hopen).bind fun _ r₁ _ hr₁ => ?_
  cases hargs with
  | nil => exact absurd rfl hne
  | cons hblank ha hmore =>
    have h₁ := hblank.suffix.length_le
    have h₂ := ha.length_lt
    refine (argument_gives (hr₁.blanks hblank) ha).bind fun a r₂ hwritten hr₂ => ?_
    refine (arguments_gives hr₂ hmore (by rw [hdot]; rfl) (by omega)).bind
      fun more r₃ hmap hr₃ => ?_
    refine (close_gives (c := '.') rfl (by decide) hr₃ hstop (.inl rfl)).bind fun _ r₄ _ hr₄ => ?_
    refine (hws (by omega) (by omega) hr₄ hend).1.bind fun body r₅ hbody hr₅ => ?_
    refine (close_gives (c := ']') rfl (by decide) hr₅ hblanks hclosed).bind fun _ r₆ _ hr₆ => ?_
    refine .pure hr₆ ?_
    rw [Term.phrase?_lams (a :: more) hbody, List.map_cons, hwritten, hmap]

theorem accepted_empty (text : List Char) : Accepted (.series []) text text := by
  intro depth rounds r hdepth hrounds hr hend
  obtain ⟨rounds, rfl⟩ := Nat.exists_eq_add_one_of_ne_zero (Nat.ne_zero_of_lt hrounds)
  rw [← hr.current_eq] at hend
  refine ⟨?_, fun t w ht => ?_⟩
  · refine .current rfl ?_
    rw [if_pos hend]
    exact ⟨_, _, rfl, rfl, hr.shows, hr.plain⟩
  · refine .current rfl ?_
    rw [if_pos hend]
    exact .pure hr ht

theorem accepted_item {w : Phrase} {ws : List Phrase} {t₁ t₂ rest : List Char}
    (hblanks : Blanks text t₁) (hderives : Derives (.expression w) t₁ t₂)
    (hw : Accepted (.expression w) t₁ t₂) (hws : Accepted (.series ws) t₂ rest) :
    Accepted (.series (w :: ws)) text rest := by
  intro depth rounds r hdepth hrounds hr hend
  -- the item has at least one character, so one round less is enough for what follows it
  have h₁ := hblanks.suffix.length_le
  have h₂ : t₂.length < t₁.length := hderives.length_le
  have hr' := hr.blanks hblanks
  obtain ⟨c, tail, rfl, hblank, hc⟩ := hderives.starts
  have hmore : ¬ CharClass.bracketEnd.has r.scanner.current = true := by
    rw [hr'.current_eq, trimmed_cons hblank, List.head?_cons, hc]
    decide
  refine ⟨?_, fun t v ht => ?_⟩
  · refine .current rfl ?_
    rw [if_neg hmore]
    refine (hw (by omega) hr').bind fun a r₁ ha hr₁ => ?_
    exact (hws (by omega) (by omega) hr₁ hend).2 ha
  · obtain ⟨rounds, rfl⟩ := Nat.exists_eq_add_one_of_ne_zero (Nat.ne_zero_of_lt hrounds)
    refine .current rfl ?_
    rw [if_neg hmore]
    refine (hw (by omega) hr').bind fun a r₁ ha hr₁ => ?_
    exact (hws (by omega) (by omega) hr₁ hend).2 (Term.phrase?_app ht ha)

/-- Whatever the grammar derives is read. -/
theorem accepted_of_derives {k : Category} {rest : List Char} (h : Derives k text rest) :
    Accepted k text rest := by
  induction h with
  | name hx hkeyword => exact accepted_name hx hkeyword
  | bracket _ hblanks hclosed ih => exact accepted_bracket ih hblanks hclosed
  | function hne hargs hstop _ hblanks hclosed ih =>
    have h₁ := hargs.length_le
    have h₂ := hstop.suffix.length_le
    exact accepted_function hne hargs hstop (by simp only [List.length_cons] at h₂; omega) ih
      hblanks hclosed
  | @empty text => exact accepted_empty text
  | item hblanks hderives _ ihw ihws => exact accepted_item hblanks hderives ihw ihws

theorem bound_eq_ok {c : Char} (hr : r.At (c :: text)) (hblank : isBlank c = false) :
    bound r = .ok ((c :: text).length + 1) r := by
  rw [← trimmed_cons hblank, ← hr.shows.remaining_eq]
  rfl

theorem expression_gives {w : Phrase} {rest : List Char} (hr : r.At text)
    (h : Derives (.expression w) text rest) :
    Gives expression r (·.phrase? = some w) rest := by
  obtain ⟨c, tail, rfl, hblank, -⟩ := h.starts
  obtain ⟨t, r', hok, ht, hr'⟩ := accepted_of_derives h (Nat.lt_succ_self _) hr
  exact ⟨t, r', (Outcome.bind_of_ok (bound_eq_ok hr hblank)).trans hok, ht, hr'⟩

theorem series_gives {w : Phrase} {ws : List Phrase} {rest : List Char} (hr : r.At text)
    (h : Derives (.series (w :: ws)) text rest)
    (hend : CharClass.bracketEnd.has (trimmed rest).head? = true) :
    Gives series r (·.phrase? = some (.series (w :: ws))) rest := by
  cases h with
  | item hblanks hw hws =>
    -- the reader is past the blanks, and its bound is for what is behind them
    have hr' := hr.blanks hblanks
    have hderives := accepted_of_derives (.item (.refl _) hw hws)
    obtain ⟨c, tail, rfl, hblank, -⟩ := hw.starts
    have hlt := Nat.lt_succ_self (c :: tail).length
    obtain ⟨t, r₁, hok, ht, hr₁⟩ := (hderives hlt hlt hr' hend).1
    exact ⟨t, r₁, (Outcome.bind_of_ok (bound_eq_ok hr' hblank)).trans hok, ht, hr₁⟩

theorem derives_of_expression {t : Term} (hr : r.At text) (h : expression r = .ok t r')
    (ht : t ≠ .missing) : ∃ w rest, Derives (.expression w) (trimmed text) rest := by
  obtain ⟨n, r₁, hbound, hgo⟩ := Outcome.bind_eq_ok h
  cases hbound
  rcases expressionWithin_sound _ hr hgo with ⟨hmissing, -⟩ | ⟨w, rest, -, hderives, -⟩
  · exact absurd hmissing ht
  · exact ⟨w, rest, hderives⟩

end Parse

/-- **The parser accepts exactly its grammar.**  On a text without comments, an expression is
read just when the text begins with a form of one.  What is read is what the form denotes,
and the scanner is left past the blanks behind the form. -/
theorem expression_accepts_grammar {r : Reading} {text : List Char}
    (htext : r.scanner.Shows text) (hblank : ∀ c ∈ text.head?, isBlank c = false)
    (hplain : '/' ∉ text) :
    ((∃ t r', Parse.expression r = .ok t r' ∧ t ≠ .missing) ↔
      ∃ w rest, Derives (.expression w) text rest) ∧
    ∀ w rest, Derives (.expression w) text rest →
      ∃ t r', Parse.expression r = .ok t r' ∧ t.phrase? = some w ∧
        r'.scanner.Shows (trimmed rest) := by
  have htrimmed : trimmed text = text := trimmed_eq_self hblank
  have hr : r.At text := ⟨htrimmed.symm ▸ htext, hplain⟩
  refine ⟨⟨?_, ?_⟩, ?_⟩
  · rintro ⟨t, r', hok, ht⟩
    exact htrimmed ▸ Parse.derives_of_expression hr hok ht
  · rintro ⟨w, rest, h⟩
    obtain ⟨t, r', hok, ht, -⟩ := Parse.expression_gives hr h
    refine ⟨t, r', hok, ?_⟩
    rintro rfl
    cases ht
  · intro w rest h
    obtain ⟨t, r', hok, ht, hr'⟩ := Parse.expression_gives hr h
    exact ⟨t, r', hok, ht, hr'.shows⟩

/-- A marked argument, and a bracket that is left open at the end of the text. -/
theorem expression_accepts_grammar_open :
    ∃ t r', Parse.expression ⟨⟨some '(', "[$f x. f] y".toList, .start⟩, 0⟩ = .ok t r' ∧
      t.phrase? = some (.app (.function true "f" (.function false "x" (.name "f"))) (.name "y")) ∧
      r'.scanner.Shows [] := by
  have hf : Named "f" "f x. f] y".toList " x. f] y".toList :=
    ⟨rfl, by decide, List.forall_mem_singleton.mpr (by decide), ends_cons (by decide) _⟩
  have hx : Named "x" "x. f] y".toList ". f] y".toList :=
    ⟨rfl, by decide, List.forall_mem_singleton.mpr (by decide), ends_cons (by decide) _⟩
  have hf' : Named "f" "f] y".toList "] y".toList :=
    ⟨rfl, by decide, List.forall_mem_singleton.mpr (by decide), ends_cons (by decide) _⟩
  have hy : Named "y" "y".toList [] :=
    ⟨rfl, by decide, List.forall_mem_singleton.mpr (by decide), nofun⟩
  have hargs : Arguments [(true, "f"), (false, "x")] "$f x. f] y".toList ". f] y".toList :=
    .cons (.refl _) (.marked (.refl _) hf (by decide))
      (.cons (blanks_space _) (.plain hx (by decide) (by decide)) .nil)
  have hfunction : Derives (.expression (.function true "f" (.function false "x" (.name "f"))))
      "[$f x. f] y".toList " y".toList :=
    .function (List.cons_ne_nil _ _) hargs (.refl _)
      (.item (blanks_space _) (.name hf' (by decide)) .empty) (.refl _) (.inl rfl)
  have hbracket : Derives
      (.expression (.app (.function true "f" (.function false "x" (.name "f"))) (.name "y")))
      "([$f x. f] y".toList [] :=
    .bracket (.item (.refl _) hfunction (.item (blanks_space _) (.name hy (by decide)) .empty))
      (.refl _) (.inr ⟨rfl, rfl⟩)
  have hshows : Scanner.Shows ⟨some '(', "[$f x. f] y".toList, .start⟩ "([$f x. f] y".toList :=
    ⟨rfl, rfl⟩
  have hblank : ∀ c ∈ "([$f x. f] y".toList.head?, isBlank c = false := by
    rintro c ⟨⟩
    decide
  exact (expression_accepts_grammar hshows hblank (by decide)).2 _ _ hbracket

end LambdaScript
