/-
LambdaScript/Proofs/Reading.lean

What reading gives.

The first part follows the reader through the text.  Everything it does is made of
a few movements: it takes a character, skips blanks, takes the rest of a name, and
takes a key from the supply.  A relation between the states of reading that these
movements respect (`Movement`) is respected by every parser, whether it succeeds or
stops.  In particular names leave the supply alone, and nothing ever goes back in
it.

The second part is about the expressions that are read.  Where no expression
starts, nothing is read and `missing` is given; inside a series that never comes to
an end, so `missing` is a whole expression or none of it.  Every other expression
is `Read`: its references are linked lexically, its functions have the keys of the
supply one after the other, and no argument has a reserved name.

Main result: `Parse.reads_expression`.
-/
import LambdaScript.Proofs.Outcomes
import LambdaScript.Proofs.Scope

namespace LambdaScript

/-! ### Movements -/

/-- A relation that every movement of the scanner respects. -/
structure Movement (M : Reading → Reading → Prop) : Prop where
  refl : ∀ r, M r r
  trans : ∀ {r₁ r₂ r₃}, M r₁ r₂ → M r₂ r₃ → M r₁ r₃
  advance : ∀ r, M r { r with scanner := r.scanner.advance }
  skip : ∀ r, M r { r with scanner := r.scanner.skip.2 }
  nameTail : ∀ r, M r { r with scanner := r.scanner.nameTail.2 }

namespace Parse

section Movement

variable {M : Reading → Reading → Prop} (hM : Movement M)

include hM

theorem along_takeAll (text : String) (l : List Char) : Along M (takeAll text l) := by
  induction l with
  | nil => exact hM.refl
  | cons c rest ih =>
    exact .bind hM.trans hM.refl fun k => .ite (.bind hM.trans hM.advance fun _ => ih) hM.refl

theorem along_expect (text : String) : Along M (expect text) :=
  .bind hM.trans (along_takeAll hM text text.toList) fun _ => hM.skip

theorem along_expectUnlessAtEnd (text : String) : Along M (expectUnlessAtEnd text) :=
  .bind hM.trans hM.refl fun _ =>
    .ite (.bind hM.trans (along_expect hM text) fun _ => hM.refl) hM.refl

theorem along_identifier : Along M identifier := by
  refine .bind hM.trans hM.refl fun k => .ite ?_ hM.refl
  exact .bind hM.trans hM.advance fun _ => .bind hM.trans hM.nameTail fun _ =>
    .bind hM.trans hM.skip fun _ => hM.refl

theorem along_keyword : Along M keyword := by
  refine .bind hM.trans (along_identifier hM) fun x => ?_
  cases Keyword.ofName? x <;> exact hM.refl

theorem along_name : Along M name :=
  .bind hM.trans (along_identifier hM) fun _ => .ite hM.refl hM.refl

theorem along_argumentName : Along M argumentName :=
  .bind hM.trans (along_name hM) fun _ => .ite hM.refl hM.refl

theorem along_definitionName : Along M definitionName :=
  .bind hM.trans (along_identifier hM) fun _ => .ite hM.refl (.ite hM.refl hM.refl)

theorem along_seriesFrom {item : Parse Term} (hitem : Along M item) (rounds : Nat) (t : Term) :
    Along M (seriesFrom item rounds t) := by
  induction rounds generalizing t with
  | zero => exact hM.refl
  | succ rounds ih =>
    exact .bind hM.trans hM.refl fun k => .ite hM.refl (.bind hM.trans hitem fun _ => ih _)

variable (hsupply : ∀ r : Reading, M r { r with next := r.next + 1 })

include hsupply

theorem along_argument : Along M argument := by
  have hrest : ∀ marked, Along M (do
      let x ← argumentName
      return (← newBinder marked, x)) := fun marked =>
    .bind hM.trans (along_argumentName hM) fun _ => .bind hM.trans hsupply fun _ => hM.refl
  refine .bind hM.trans hM.refl fun k => .ite ?_ (hrest _)
  exact .bind hM.trans (along_expect hM "$") fun _ => hrest _

theorem along_arguments (rounds : Nat) : Along M (arguments rounds) := by
  induction rounds with
  | zero => exact hM.refl
  | succ rounds ih =>
    refine .bind hM.trans hM.refl fun k => .ite hM.refl ?_
    exact .bind hM.trans (along_argument hM hsupply) fun _ => .bind hM.trans ih fun _ => hM.refl

theorem along_seriesOf {item : Parse Term} (hitem : Along M item) (rounds : Nat) :
    Along M (seriesOf item rounds) :=
  .bind hM.trans hM.refl fun _ => .ite hsupply
    (.bind hM.trans hitem fun _ => along_seriesFrom hM hitem rounds _)

theorem along_bracketOf {item : Parse Term} (hitem : Along M item) (rounds : Nat) :
    Along M (bracketOf item rounds) :=
  .bind hM.trans (along_expect hM "(") fun _ =>
    .bind hM.trans (along_seriesOf hM hsupply hitem rounds) fun _ =>
      .bind hM.trans (along_expectUnlessAtEnd hM ")") fun _ => hM.refl

theorem along_functionOf {item : Parse Term} (hitem : Along M item) (rounds : Nat) :
    Along M (functionOf item rounds) :=
  .bind hM.trans (along_expect hM "[") fun _ =>
    .bind hM.trans (along_argument hM hsupply) fun _ =>
      .bind hM.trans (along_arguments hM hsupply rounds) fun _ =>
        .bind hM.trans (along_expectUnlessAtEnd hM ".") fun _ =>
          .bind hM.trans (along_seriesOf hM hsupply hitem rounds) fun _ =>
            .bind hM.trans (along_expectUnlessAtEnd hM "]") fun _ => hM.refl

theorem along_expressionWithin (depth : Nat) : Along M (expressionWithin depth) := by
  induction depth with
  | zero => exact hM.refl
  | succ depth ih =>
    refine .bind hM.trans hM.refl fun k => .ite (along_bracketOf hM hsupply ih depth) ?_
    refine .ite (along_functionOf hM hsupply ih depth) (.ite ?_ hM.refl)
    exact .bind hM.trans (along_name hM) fun _ => hM.refl

theorem along_expression : Along M expression :=
  .bind hM.trans hM.refl fun n => along_expressionWithin hM hsupply n

theorem along_definition (reduced : Bool) : Along M (definition reduced) :=
  .bind hM.trans (along_definitionName hM) fun _ =>
    .bind hM.trans (along_expression hM hsupply) fun _ => hM.refl

theorem along_entry : Along M entry := by
  refine .bind hM.trans (along_keyword hM) fun k => ?_
  cases k with
  | define => exact along_definition hM hsupply true
  | defineAsIs => exact along_definition hM hsupply false
  | execute => exact .bind hM.trans (along_expression hM hsupply) fun _ => hM.refl

end Movement

end Parse

theorem movement_next_eq : Movement fun r r' => r'.next = r.next :=
  ⟨fun _ => rfl, fun h h' => h'.trans h, fun _ => rfl, fun _ => rfl, fun _ => rfl⟩

theorem movement_next_le : Movement fun r r' => r.next ≤ r'.next :=
  ⟨fun _ => Nat.le_refl _, Nat.le_trans, fun _ => Nat.le_refl _, fun _ => Nat.le_refl _,
    fun _ => Nat.le_refl _⟩

/-! ### Lexical expressions -/

/-- The link of a reference called `x` inside the functions `Γ`, innermost first: it goes
to the first of them that bears the name. -/
def Link.lexical (Γ : List (Binder × String)) (x : String) : Link :=
  match Γ.find? (·.2 = x) with
  | some p => .binder p.1
  | none => .free

/-- Keywords and the names of actions. -/
def isReserved (x : String) : Bool :=
  (Keyword.ofName? x).isSome || Action.isName x

theorem isReserved_eq_false {x : String} (hkeyword : ¬ (Keyword.ofName? x).isSome = true)
    (haction : ¬ Action.isName x = true) : isReserved x = false := by
  rw [isReserved, eq_false_of_ne_true hkeyword, eq_false_of_ne_true haction]
  rfl

namespace Term

/-- Every leaf is a reference, and it belongs to the innermost function around it that
bears its name. -/
def Lexical (Γ : List (Binder × String)) : Term → Prop
  | app f a => f.Lexical Γ ∧ a.Lexical Γ
  | lam b x t => t.Lexical ((b, x) :: Γ)
  | ref x l => l = .lexical Γ x
  | _ => False

/-- The names of the arguments, in the order of the functions. -/
def argumentNames : Term → List String
  | app f a => f.argumentNames ++ a.argumentNames
  | lam _ x t => x :: t.argumentNames
  | _ => []

variable {t : Term} {Γ : List (Binder × String)}

theorem Lexical.scoped (h : t.Lexical Γ) : t.Scoped (Γ.map (·.1)) := by
  induction t generalizing Γ with
  | missing => exact h
  | foreign => exact h
  | app f a ihf iha => exact ⟨ihf h.1, iha h.2⟩
  | lam b x t ih => exact ih (Γ := (b, x) :: Γ) h
  | ref x l =>
    obtain rfl : l = .lexical Γ x := h
    unfold Link.lexical
    split
    · next p hp => exact List.mem_map_of_mem (List.mem_of_find?_eq_some hp)
    · trivial

/-- A function around everything gets the references that have been free. -/
theorem Lexical.link (h : t.Lexical Γ) (b : Binder) (x : String) :
    (t.link b x).Lexical (Γ ++ [(b, x)]) := by
  induction t generalizing Γ with
  | missing => exact h
  | foreign => exact h
  | app f a ihf iha => exact ⟨ihf h.1, iha h.2⟩
  | lam c y t ih => exact ih (Γ := (c, y) :: Γ) h
  | ref y l =>
    obtain rfl : l = .lexical Γ y := h
    rcases hp : Γ.find? (·.2 = y) with - | p
    · -- nothing further in bears the name
      have hfree : Link.lexical Γ y = .free := by rw [Link.lexical, hp]
      rw [hfree]
      by_cases hyx : y = x
      · subst hyx
        simp [Term.link, linkAs, Lexical, Link.lexical, List.find?_append, hp]
      · simp [Term.link, linkAs, Lexical, Link.lexical, List.find?_append, hp, hyx, Ne.symm hyx]
    · have hbound : Link.lexical Γ y = .binder p.1 := by rw [Link.lexical, hp]
      rw [hbound]
      simp [Term.link, linkAs, Lexical, Link.lexical, List.find?_append, hp]

theorem Lexical.lams (h : t.Lexical []) (args : List (Binder × String)) :
    (lams args t).Lexical [] := by
  induction args with
  | nil => exact h
  | cons a args ih => exact ih.link a.1 a.2

theorem binders_lams (args : List (Binder × String)) (t : Term) :
    (lams args t).binders = args.map (·.1) ++ t.binders := by
  induction args with
  | nil => rfl
  | cons a args ih => rw [lams_cons, binders, binders_link, ih, List.map_cons, List.cons_append]

theorem argumentNames_link (b : Binder) (x : String) (t : Term) :
    (t.link b x).argumentNames = t.argumentNames := by
  induction t with
  | missing => rfl
  | foreign => rfl
  | app f a ihf iha => rw [link_app, argumentNames, ihf, iha, argumentNames]
  | lam c y t ih => rw [link_lam, argumentNames, ih, argumentNames]
  | ref y l =>
    cases l with
    | free => by_cases h : y = x <;> simp [link, linkAs, h, argumentNames]
    | binder c => rfl
    | reference k own => rfl
    | endless => rfl

theorem argumentNames_lams (args : List (Binder × String)) (t : Term) :
    (lams args t).argumentNames = args.map (·.2) ++ t.argumentNames := by
  induction args with
  | nil => rfl
  | cons a args ih =>
    rw [lams_cons, argumentNames, argumentNames_link, ih, List.map_cons, List.cons_append]

end Term

/-! ### What is read -/

/-- Functions yet without a body, with keys from `next` on one by one and without reserved
names. -/
structure Headed (next : Nat) (args : List (Binder × String)) (next' : Nat) : Prop where
  keys : args.map (·.1.key) = List.range' next args.length
  supply : next' = next + args.length
  names : ∀ x ∈ args.map (·.2), isReserved x = false

/-- A lexical expression whose functions have keys from `next` on one by one, and whose
arguments have no reserved names. -/
structure Read (next : Nat) (t : Term) (next' : Nat) : Prop where
  lexical : t.Lexical []
  keys : t.binders.map (·.key) = List.range' next t.binders.length
  supply : next' = next + t.binders.length
  names : ∀ x ∈ t.argumentNames, isReserved x = false

theorem Headed.append {n n' n'' : Nat} {l m : List (Binder × String)} (hl : Headed n l n')
    (hm : Headed n' m n'') : Headed n (l ++ m) n'' := by
  have hn' := hl.supply
  subst hn'
  refine ⟨?_, ?_, ?_⟩
  · rw [List.map_append, hl.keys, hm.keys, List.length_append, List.range'_append_1]
  · rw [hm.supply, List.length_append, Nat.add_assoc]
  · intro x hx
    rw [List.map_append] at hx
    rcases List.mem_append.mp hx with hx | hx
    · exact hl.names x hx
    · exact hm.names x hx

namespace Read

variable {n n' n'' : Nat} {t a : Term}

theorem grown (h : Read n t n') (u : Term) : Term.Grown n u n' t :=
  h.supply ▸ .of_range h.keys

theorem identity (n : Nat) : Read n (Term.identity n).1 (Term.identity n).2 := by
  refine ⟨?_, rfl, rfl, ?_⟩
  · simp [Term.identity, Term.Lexical, Link.lexical]
  · intro x hx
    obtain rfl : x = "x" := List.mem_singleton.mp hx
    decide

theorem free (n : Nat) (x : String) : Read n (.ref x .free) n :=
  ⟨rfl, rfl, rfl, fun _ hy => absurd hy List.not_mem_nil⟩

theorem app (ht : Read n t n') (ha : Read n' a n'') : Read n (.app t a) n'' := by
  have hn' := ht.supply
  subst hn'
  refine ⟨⟨ht.lexical, ha.lexical⟩, ?_, ?_, ?_⟩
  · rw [Term.binders, List.map_append, ht.keys, ha.keys, List.length_append,
      List.range'_append_1]
  · rw [ha.supply, Term.binders, List.length_append, Nat.add_assoc]
  · intro x hx
    rcases List.mem_append.mp hx with hx | hx
    · exact ht.names x hx
    · exact ha.names x hx

theorem lams {args : List (Binder × String)} (hargs : Headed n args n') (ht : Read n' t n'') :
    Read n (Term.lams args t) n'' := by
  have hn' := hargs.supply
  subst hn'
  refine ⟨ht.lexical.lams args, ?_, ?_, ?_⟩
  · rw [Term.binders_lams, List.map_append, List.map_map, ht.keys, List.length_append,
      List.length_map, ← List.range'_append_1, ← hargs.keys]
    rfl
  · rw [ht.supply, Term.binders_lams, List.length_append, List.length_map, Nat.add_assoc]
  · intro x hx
    rw [Term.argumentNames_lams] at hx
    rcases List.mem_append.mp hx with hx | hx
    · exact hargs.names x hx
    · exact ht.names x hx

end Read

namespace Parse

variable {r r' : Reading}

theorem argumentName_eq_ok {x : String} (h : argumentName r = .ok x r') :
    isReserved x = false ∧ r'.next = r.next := by
  have hnext := (along_argumentName movement_next_eq).of_ok h
  refine ⟨?_, hnext⟩
  obtain ⟨y, r₁, hname, hgo⟩ := Outcome.bind_eq_ok h
  obtain ⟨z, r₂, -, hgo'⟩ := Outcome.bind_eq_ok hname
  split at hgo'
  · cases hgo'
  · next hkeyword =>
    cases hgo'
    split at hgo
    · cases hgo
    · next haction =>
      cases hgo
      exact isReserved_eq_false hkeyword haction

theorem definitionName_eq_ok {x : String} (h : definitionName r = .ok x r') :
    isReserved x = false ∧ r'.next = r.next := by
  have hnext := (along_definitionName movement_next_eq).of_ok h
  refine ⟨?_, hnext⟩
  obtain ⟨y, r₁, -, hgo⟩ := Outcome.bind_eq_ok h
  split at hgo
  · cases hgo
  · next hkeyword =>
    split at hgo
    · cases hgo
    · next haction =>
      cases hgo
      exact isReserved_eq_false hkeyword haction

theorem argument_eq_ok {a : Binder × String} (h : argument r = .ok a r') :
    Headed r.next [a] r'.next := by
  have hrest : ∀ {marked : Bool} {r₁ : Reading}, r₁.next = r.next →
      (do
        let x ← argumentName
        return (← newBinder marked, x)) r₁ = .ok a r' → Headed r.next [a] r'.next := by
    intro marked r₁ hr₁ h₁
    obtain ⟨x, r₂, hname, hgo⟩ := Outcome.bind_eq_ok h₁
    obtain ⟨hx, hr₂⟩ := argumentName_eq_ok hname
    cases hgo
    refine ⟨?_, ?_, ?_⟩
    · exact congrArg (fun n => [n]) (hr₂.trans hr₁)
    · exact congrArg (· + 1) (hr₂.trans hr₁)
    · intro y hy
      obtain rfl : y = x := List.mem_singleton.mp hy
      exact hx
  obtain ⟨k, r₁, hk, hgo⟩ := Outcome.bind_eq_ok h
  cases hk
  dsimp only at hgo
  split at hgo
  · obtain ⟨_, r₁, hexpect, hgo'⟩ := Outcome.bind_eq_ok hgo
    exact hrest ((along_expect movement_next_eq "$").of_ok hexpect) hgo'
  · exact hrest rfl hgo

theorem arguments_eq_ok {rounds : Nat} {args : List (Binder × String)}
    (h : arguments rounds r = .ok args r') : Headed r.next args r'.next := by
  induction rounds generalizing r args with
  | zero => cases h
  | succ rounds ih =>
    obtain ⟨k, r₁, hk, hgo⟩ := Outcome.bind_eq_ok h
    cases hk
    split at hgo
    · cases hgo
      exact ⟨rfl, rfl, fun _ hx => absurd hx List.not_mem_nil⟩
    · obtain ⟨a, r₁, ha, hgo'⟩ := Outcome.bind_eq_ok hgo
      obtain ⟨rest, r₂, hrest, hgo''⟩ := Outcome.bind_eq_ok hgo'
      cases hgo''
      exact (argument_eq_ok ha).append (ih hrest)

/-- Where the parser succeeds, it gives `missing` and has read nothing, or an expression
that is `Read`. -/
def Reads (item : Parse Term) : Prop :=
  ∀ {r t r'}, item r = .ok t r' → t = .missing ∧ r' = r ∨ Read r.next t r'.next

/-- Where no expression starts, a series goes on for ever. -/
theorem seriesFrom_missing {item : Parse Term} (hitem : item r = .ok .missing r)
    (hend : ¬ CharClass.bracketEnd.has r.scanner.current = true) (rounds : Nat) (t : Term) :
    seriesFrom item rounds t r = .error .endless r := by
  induction rounds generalizing t with
  | zero => rfl
  | succ rounds ih =>
    have hcurrent : current r = .ok r.scanner.current r := rfl
    rw [seriesFrom, Outcome.bind_of_ok hcurrent, if_neg hend, Outcome.bind_of_ok hitem]
    exact ih (.app t .missing)

section Series

variable {item : Parse Term} (hitem : Reads item) {rounds next : Nat} {t u : Term}

include hitem

theorem read_of_seriesFrom (ht : Read next t r.next) (h : seriesFrom item rounds t r = .ok u r') :
    Read next u r'.next := by
  induction rounds generalizing r t with
  | zero => cases h
  | succ rounds ih =>
    obtain ⟨k, r₁, hk, hgo⟩ := Outcome.bind_eq_ok h
    cases hk
    split at hgo
    · cases hgo
      exact ht
    · next hend =>
      obtain ⟨a, r₁, ha, hgo'⟩ := Outcome.bind_eq_ok hgo
      rcases hitem ha with ⟨rfl, rfl⟩ | hread
      · rw [seriesFrom_missing ha hend] at hgo'
        cases hgo'
      · exact ih (ht.app hread) hgo'

theorem read_of_seriesOf (h : seriesOf item rounds r = .ok t r') : Read r.next t r'.next := by
  obtain ⟨k, r₁, hk, hgo⟩ := Outcome.bind_eq_ok h
  cases hk
  split at hgo
  · cases hgo
    exact .identity r.next
  · next hend =>
    obtain ⟨a, r₁, ha, hgo'⟩ := Outcome.bind_eq_ok hgo
    rcases hitem ha with ⟨rfl, rfl⟩ | hread
    · rw [seriesFrom_missing ha hend] at hgo'
      cases hgo'
    · exact read_of_seriesFrom hitem hread hgo'

theorem read_of_bracketOf (h : bracketOf item rounds r = .ok t r') : Read r.next t r'.next := by
  obtain ⟨_, r₁, hopen, h₁⟩ := Outcome.bind_eq_ok h
  obtain ⟨u, r₂, hseries, h₂⟩ := Outcome.bind_eq_ok h₁
  obtain ⟨_, r₃, hclose, h₃⟩ := Outcome.bind_eq_ok h₂
  cases h₃
  rw [← (along_expect movement_next_eq "(").of_ok hopen,
    (along_expectUnlessAtEnd movement_next_eq ")").of_ok hclose]
  exact read_of_seriesOf hitem hseries

theorem read_of_functionOf (h : functionOf item rounds r = .ok t r') : Read r.next t r'.next := by
  obtain ⟨_, r₁, hopen, h₁⟩ := Outcome.bind_eq_ok h
  obtain ⟨a, r₂, harg, h₂⟩ := Outcome.bind_eq_ok h₁
  obtain ⟨more, r₃, hmore, h₃⟩ := Outcome.bind_eq_ok h₂
  obtain ⟨_, r₄, hstop, h₄⟩ := Outcome.bind_eq_ok h₃
  obtain ⟨body, r₅, hseries, h₅⟩ := Outcome.bind_eq_ok h₄
  obtain ⟨_, r₆, hclose, h₆⟩ := Outcome.bind_eq_ok h₅
  cases h₆
  have hargs := (argument_eq_ok harg).append (arguments_eq_ok hmore)
  have hbody := read_of_seriesOf hitem hseries
  rw [(along_expectUnlessAtEnd movement_next_eq ".").of_ok hstop] at hbody
  rw [← (along_expect movement_next_eq "[").of_ok hopen,
    (along_expectUnlessAtEnd movement_next_eq "]").of_ok hclose]
  exact .lams hargs hbody

end Series

theorem reads_expressionWithin (depth : Nat) : Reads (expressionWithin depth) := by
  induction depth with
  | zero =>
    intro r t r' h
    cases h
  | succ depth ih =>
    intro r t r' h
    obtain ⟨k, r₁, hk, hgo⟩ := Outcome.bind_eq_ok h
    cases hk
    split at hgo
    · exact .inr (read_of_bracketOf ih hgo)
    split at hgo
    · exact .inr (read_of_functionOf ih hgo)
    split at hgo
    · obtain ⟨x, r₁, hname, hgo'⟩ := Outcome.bind_eq_ok hgo
      cases hgo'
      rw [(along_name movement_next_eq).of_ok hname]
      exact .inr (.free r.next x)
    · cases hgo
      exact .inl ⟨rfl, rfl⟩

/-- **An expression that is read** is lexical, its functions are all new, and no argument
has a reserved name; where no expression starts, nothing is read. -/
theorem reads_expression : Reads expression := by
  intro r t r' h
  obtain ⟨n, r₁, hbound, hgo⟩ := Outcome.bind_eq_ok h
  cases hbound
  exact reads_expressionWithin _ hgo

end Parse

/-! ### Entries -/

namespace Entry

/-- The expression of an entry. -/
def body : Entry → Term
  | define _ t _ => t
  | execute t => t

/-- The name that an entry defines. -/
def target : Entry → Option String
  | define a _ _ => some a
  | execute _ => none

/-- The entry defines no reserved name, and its expression is `missing` or `Read`. -/
structure Read (next : Nat) (entry : Entry) (next' : Nat) : Prop where
  target : ∀ a ∈ entry.target, isReserved a = false
  body : entry.body = .missing ∧ next' = next ∨ LambdaScript.Read next entry.body next'

end Entry

namespace Parse

variable {r r' : Reading} {entry : Entry}

theorem definition_eq_ok {reduced : Bool} (h : definition reduced r = .ok entry r') :
    entry.Read r.next r'.next := by
  obtain ⟨x, r₁, hname, h₁⟩ := Outcome.bind_eq_ok h
  obtain ⟨t, r₂, ht, h₂⟩ := Outcome.bind_eq_ok h₁
  cases h₂
  obtain ⟨hx, hr₁⟩ := definitionName_eq_ok hname
  have hread := reads_expression ht
  rw [hr₁] at hread
  refine ⟨?_, hread.imp_left fun hmissing => ⟨hmissing.1, ?_⟩⟩
  · rintro a ⟨⟩
    exact hx
  · rw [hmissing.2, hr₁]

theorem entry_eq_ok (h : Parse.entry r = .ok entry r') : entry.Read r.next r'.next := by
  obtain ⟨k, r₁, hkeyword, hgo⟩ := Outcome.bind_eq_ok h
  rw [← (along_keyword movement_next_eq).of_ok hkeyword]
  cases k with
  | define => exact definition_eq_ok hgo
  | defineAsIs => exact definition_eq_ok hgo
  | execute =>
    obtain ⟨t, r₂, ht, hgo'⟩ := Outcome.bind_eq_ok hgo
    cases hgo'
    exact ⟨nofun, (reads_expression ht).imp_left fun hmissing => ⟨hmissing.1, by rw [hmissing.2]⟩⟩

end Parse

end LambdaScript
