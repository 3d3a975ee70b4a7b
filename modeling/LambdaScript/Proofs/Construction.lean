/-
LambdaScript/Proofs/Construction.lean

Reading makes trees of new objects.

The parser of terms and the one that makes objects go through the text together.  Where
one gives a term the other gives a tree of this term (`Constructs`), and where one stops
so does the other, for the same reason (`Rejects`).  Nothing is written but new objects.

A function of several arguments is made from the outside: first a chain of functions
without a last body (`Tree.nest`), then the body, and last the links, from the innermost
function outwards (`Tree.lams`).

Main result: `Op.statement_inStep`.
-/
import LambdaScript.Proofs.Reading
import LambdaScript.Proofs.Writing

namespace LambdaScript

/-- The error that stops a session when reading halts. -/
def Halt.error : Halt → SessionError
  | input e => .input e
  | endless => .endless

namespace Memory

/-- The memory with another store, at another point of the text. -/
def moved (m : Memory) (s : Store) (r : Reading) : Memory :=
  { m with store := s, reading := r }

/-- Nothing has changed but the store and the reading. -/
def ReadsOn (m m' : Memory) : Prop :=
  m' = m.moved m'.store m'.reading

theorem ReadsOn.trans {m m₁ m' : Memory} (h : m.ReadsOn m₁) (h' : m₁.ReadsOn m') :
    m.ReadsOn m' :=
  Eq.trans h' (congrArg (·.moved m'.store m'.reading) h)

theorem readsOn_written (m : Memory) (f : Store → Store) : m.ReadsOn (m.written f) := rfl

end Memory

/-- Both have read an expression, out of whose objects those that are not in `os` are new. -/
def Constructs (os : List Pointer) (m : Memory) (p : Pointer) (m' : Memory) (t : Term)
    (r : Reading) : Prop :=
  ∃ T : Tree, T.pointer = p ∧ T.term = t ∧ Built os m m' T ∧ m.ReadsOn m' ∧ m'.reading = r

/-- Both have stopped for the same reason. -/
structure Rejects (os : List Pointer) (m : Memory) (err : SessionError) (m' : Memory)
    (halt : Halt) (r : Reading) : Prop where
  error : err = halt.error
  touches : Touches os m m'
  on : m.ReadsOn m'
  reading : m'.reading = r

variable {m m₁ m' : Memory} {os os₁ : List Pointer} {T : Tree} {r r' : Reading}

theorem Constructs.after {p : Pointer} {t : Term} (h : Constructs os₁ m₁ p m' t r)
    (ht : Touches os m m₁) (hos : ∀ o ∈ os₁, o ∈ os ∨ ¬ m.Has o) (hon : m.ReadsOn m₁) :
    Constructs os m p m' t r := by
  obtain ⟨T, hp, hterm, hbuilt, hon', hr⟩ := h
  exact ⟨T, hp, hterm, hbuilt.after ht hos, hon.trans hon', hr⟩

theorem Rejects.after {err : SessionError} {halt : Halt} (h : Rejects os₁ m₁ err m' halt r)
    (ht : Touches os m m₁) (hos : ∀ o ∈ os₁, o ∈ os ∨ ¬ m.Has o) (hon : m.ReadsOn m₁) :
    Rejects os m err m' halt r where
  error := h.error
  touches := ht.trans h.touches hos
  on := hon.trans h.on
  reading := h.reading

theorem Rejects.of_nil {err : SessionError} {halt : Halt} (h : Rejects [] m err m' halt r)
    (os : List Pointer) : Rejects os m err m' halt r :=
  h.after (.refl os m) (fun _ ho => (List.not_mem_nil ho).elim) rfl

/-- What has been read before may be counted in. -/
theorem InStep.constructs_after {x : EStateM.Result SessionError Memory Pointer}
    {y : EStateM.Result Halt Reading Term}
    (h : InStep (Constructs os₁ m₁) (Rejects os₁ m₁) x y) (ht : Touches os m m₁)
    (hos : ∀ o ∈ os₁, o ∈ os ∨ ¬ m.Has o) (hon : m.ReadsOn m₁) :
    InStep (Constructs os m) (Rejects os m) x y :=
  h.imp (fun _ _ _ _ hc => hc.after ht hos hon) fun _ _ _ _ hr => hr.after ht hos hon

theorem Constructs.of_lies (h : T.Lies m) : Constructs T.objects m T.pointer m T.term m.reading :=
  ⟨T, rfl, rfl, .refl h, rfl, rfl⟩

theorem rejects_endless (os : List Pointer) (m : Memory) :
    Rejects os m .endless m .endless m.reading :=
  ⟨rfl, .refl os m, rfl, rfl⟩

namespace Op

open LambdaScript.Tree

/-! ### The text -/

/-- Going on in the text writes nothing. -/
theorem touches_moved (os : List Pointer) (hle : m.reading.next ≤ r.next) :
    Touches os m (m.moved m.store r) :=
  ⟨Nat.le_refl _, hle, fun o _ _ => .refl m.store o⟩

/-- Both read the same from the text, and go on. -/
theorem parse_bind {α β γ : Type} {p : Parse α}
    (hp : Along (fun r r' : Reading => r.next ≤ r'.next) p)
    {f : α → Op β} {g : α → Parse γ} {R : β → Memory → γ → Reading → Prop}
    (hfg : ∀ a r, p m.reading = .ok a r → m.reading.next ≤ r.next →
      InStep R (Rejects os m) (f a (m.moved m.store r)) (g a r)) :
    InStep R (Rejects os m) ((parse p >>= f) m) ((p >>= g) m.reading) := by
  rcases hread : p m.reading with ⟨a, r⟩ | ⟨halt, r⟩
  · have hop : parse p m = .ok a (m.moved m.store r) := by
      simp only [parse, aside, Act.parse, Memory.bare, hread]
      rfl
    rw [Outcome.bind_of_ok hop, Outcome.bind_of_ok hread]
    exact hfg a r hread (hp.of_ok hread)
  · have hop : parse p m = .error halt.error (m.moved m.store r) := by
      simp only [parse, aside, Act.parse, Memory.bare, hread]
      cases halt <;> rfl
    rw [Outcome.bind_of_error hop, Outcome.bind_of_error hread]
    exact ⟨rfl, touches_moved os (hp.of_error hread), rfl, rfl⟩

/-- What has been read stays when the text goes on. -/
theorem closing (hT : T.Lies m) (hle : m.reading.next ≤ r.next) :
    Constructs T.objects m T.pointer (m.moved m.store r) T.term r := by
  have hlies := (touches_moved [] hle).lies_of_nil hT
  exact (Constructs.of_lies hlies).after (touches_moved _ hle) (fun _ ho => .inl ho) rfl

/-- Both look at the character in hand. -/
theorem current_bind {β γ : Type} {f : Option Char → Op β} {g : Option Char → Parse γ}
    {R : β → Memory → γ → Reading → Prop} {E : SessionError → Memory → Halt → Reading → Prop}
    (hfg : InStep R E (f m.reading.scanner.current m) (g m.reading.scanner.current m.reading)) :
    InStep R E ((parse Parse.current >>= f) m) ((Parse.current >>= g) m.reading) :=
  hfg

/-! ### Series -/

/-- The item is read in step wherever it starts. -/
def Constructing (item : Op Pointer) (item' : Parse Term) : Prop :=
  ∀ m : Memory, InStep (Constructs [] m) (Rejects [] m) (item m) (item' m.reading)

variable {item : Op Pointer} {item' : Parse Term}

theorem seriesFrom_inStep (hitem : Constructing item item') (rounds : Nat) (hT : T.Lies m) :
    InStep (Constructs T.objects m) (Rejects T.objects m) (seriesFrom item rounds T.pointer m)
      (Parse.seriesFrom item' rounds T.term m.reading) := by
  induction rounds generalizing m T with
  | zero => exact rejects_endless _ m
  | succ rounds ih =>
    refine current_bind ?_
    cases hend : CharClass.bracketEnd.has m.reading.scanner.current with
    | true =>
      simp only [if_true]
      exact Constructs.of_lies hT
    | false =>
      simp only [Bool.false_eq_true, if_false]
      refine (hitem m).bind_of_imp (fun _ _ _ _ hr => hr.of_nil _) ?_
      rintro _ m₁ _ _ ⟨A, rfl, rfl, hA, hon, rfl⟩
      -- the new item has nothing in common with what has been read before it
      have hT₁ := hA.touches.lies_of_nil hT
      have happ := m₁.built_app hT₁ hA.lies fun o ho => hA.apart (hT.has o ho) List.not_mem_nil
      have hbuilt := happ.after (hA.touches.mono (List.nil_subset T.objects)) fun o ho =>
        (List.mem_append.mp ho).imp_right fun ho' =>
          (hA.origin o ho').elim (fun h => (List.not_mem_nil h).elim) id
      rw [Outcome.bind_of_ok (makeNode_eq _ m₁)]
      exact (ih hbuilt.lies).constructs_after hbuilt.touches hbuilt.origin
        (hon.trans (m₁.readsOn_written _))

theorem seriesOf_constructing (hitem : Constructing item item') (rounds : Nat) :
    Constructing (seriesOf item rounds) (Parse.seriesOf item' rounds) := by
  intro m
  refine current_bind ?_
  cases hend : CharClass.bracketEnd.has m.reading.scanner.current with
  | true =>
    obtain ⟨T, s, hmake, hbuilt, hterm⟩ := makeIdentity_makes (m := m)
    simp only [if_true]
    rw [hmake]
    exact ⟨T, rfl, hterm, hbuilt, rfl, rfl⟩
  | false =>
    simp only [Bool.false_eq_true, if_false]
    refine InStep.bind (hitem m) ?_
    rintro _ m₁ _ _ ⟨T, rfl, rfl, hT, hon, rfl⟩
    exact (seriesFrom_inStep hitem rounds hT.lies).constructs_after hT.touches hT.origin hon

theorem bracketOf_constructing (hitem : Constructing item item') (rounds : Nat) :
    Constructing (bracketOf item rounds) (Parse.bracketOf item' rounds) := by
  intro m
  refine parse_bind (Parse.along_expect movement_next_le "(") fun _ r _ hle => ?_
  refine InStep.constructs_after ?_ (touches_moved _ hle) (fun _ ho => .inl ho) rfl
  refine InStep.bind (seriesOf_constructing hitem rounds (m.moved m.store r)) ?_
  rintro _ m₁ _ _ ⟨T, rfl, rfl, hT, hon, rfl⟩
  refine InStep.constructs_after ?_ hT.touches hT.origin hon
  refine parse_bind (Parse.along_expectUnlessAtEnd movement_next_le ")") fun _ r₂ _ hle₂ => ?_
  exact (closing hT.lies hle₂)

/-! ### Functions -/

/-- An argument gives a function without a body. -/
theorem argument_inStep (m : Memory) :
    InStep (fun b m' a r => b = a.1 ∧ Built [] m m' (lam a.1 a.2 .missing) ∧ m.ReadsOn m' ∧
        m'.reading = r) (Rejects [] m) (argument m) (Parse.argument m.reading) := by
  have hbind : Parse.argument m.reading = (Parse.argument >>= pure) m.reading := by
    rw [bind_pure]
  rw [hbind]
  refine parse_bind (Parse.along_argument movement_next_le fun _ => Nat.le_succ _) ?_
  rintro ⟨b, x⟩ r hr -
  obtain ⟨hkeys, hsupply, -⟩ := Parse.argument_eq_ok hr
  have hkey : b.key = m.reading.next := List.head_eq_of_cons_eq hkeys
  have hnext : r.next = m.reading.next + 1 := hsupply
  refine ⟨rfl, Memory.built_named (touches_moved [] (hnext ▸ Nat.le_succ _)) ?_ ?_ x, rfl, rfl⟩
  · exact fun hhas : b.key < m.reading.next => Nat.ne_of_lt hhas hkey
  · show b.key < r.next
    omega

end Op

namespace Tree

/-- The functions of `args` around a tree, outermost first. -/
def nest (args : List (Binder × String)) (T : Tree) : Tree :=
  args.foldr (fun a t => lam a.1 a.2 t) T

/-- The functions of `args` around a tree, with the free references linked. -/
def lams (args : List (Binder × String)) (T : Tree) : Tree :=
  args.foldr (fun a t => lam a.1 a.2 (t.link a.1 a.2)) T

theorem term_lams (args : List (Binder × String)) (T : Tree) :
    (lams args T).term = Term.lams args T.term := by
  induction args with
  | nil => rfl
  | cons a args ih =>
    show Term.lam a.1 a.2 ((lams args T).link a.1 a.2).term = _
    rw [term_link, ih]
    rfl

theorem pointer_lams (args : List (Binder × String)) (T : Tree) :
    (lams args T).pointer = (nest args T).pointer := by
  cases args <;> rfl

end Tree

namespace Op

open LambdaScript.Tree

/-- Further arguments make a chain of functions below the one before them. -/
theorem arguments_inStep (rounds : Nat) {last : Binder} {x : String}
    (hlast : (lam last x .missing).Lies m) :
    InStep (fun more m' args r => more = args.map (·.1) ∧
        Built [.function last] m m' (lam last x (nest args .missing)) ∧ m.ReadsOn m' ∧
        m'.reading = r)
      (Rejects [.function last] m) (arguments rounds last m)
      (Parse.arguments rounds m.reading) := by
  induction rounds generalizing m last x with
  | zero => exact rejects_endless _ m
  | succ rounds ih =>
    refine current_bind ?_
    cases hend : CharClass.argumentEnd.has m.reading.scanner.current with
    | true =>
      simp only [if_true]
      exact ⟨rfl, .refl hlast, rfl, rfl⟩
    | false =>
      simp only [Bool.false_eq_true, if_false]
      refine (argument_inStep m).bind_of_imp (fun _ _ _ _ hr => hr.of_nil _) ?_
      rintro _ m₁ a _ ⟨rfl, hb, hon, rfl⟩
      have hbody := hlast.setBody hb
      rw [Outcome.bind_of_ok (setBody_eq last _ m₁)]
      refine (ih hbody.lies.body).bind_of_imp (fun _ _ _ _ hr => ?_) ?_
      · exact hr.after hbody.touches
          (fun o ho => hbody.origin o (objects_body_subset last x _ ho))
          (hon.trans (m₁.readsOn_written _))
      · rintro _ m₂ args _ ⟨rfl, hmore, hon₂, rfl⟩
        refine ⟨rfl, hbody.trans (hbody.lies.inBody hmore rfl), ?_, rfl⟩
        exact (hon.trans (m₁.readsOn_written _)).trans hon₂

/-- The body is written into the last function of the chain. -/
theorem nest_setBody {a : Binder × String} {more : List (Binder × String)} {B : Tree}
    (h : (nest (a :: more) .missing).Lies m) (hB : Built [] m m₁ B) :
    Built (nest (a :: more) .missing).objects m
      (m₁.written (·.setBody ((more.map (·.1)).getLastD a.1) B.pointer)) (nest (a :: more) B) := by
  induction more generalizing a with
  | nil => exact h.setBody hB
  | cons a' more ih =>
    have hlast : ((a' :: more).map (·.1)).getLastD a.1 = (more.map (·.1)).getLastD a'.1 := by
      rw [List.map_cons, List.getLastD_cons]
    rw [hlast]
    exact h.inBody (ih h.body) rfl

theorem linkAll_built {args : List (Binder × String)} {B : Tree} (h : (nest args B).Lies m) :
    ∃ s, linkAll (args.map (·.1)) m = .ok () (m.grown s m.reading.next) ∧
      Built (nest args B).objects m (m.grown s m.reading.next) (lams args B) := by
  induction args generalizing m with
  | nil => exact ⟨m.store, rfl, .refl h⟩
  | cons a args ih =>
    obtain ⟨s₁, hinner, hbuilt⟩ := ih h.body
    have hbody := h.inBody hbuilt (pointer_lams args B)
    obtain ⟨s₂, hlink, hbuilt₂⟩ := link_built hbody.lies
    exact ⟨s₂, (Outcome.bind_of_ok hinner).trans hlink, hbody.trans hbuilt₂⟩

theorem functionOf_constructing {item : Op Pointer} {item' : Parse Term}
    (hitem : Constructing item item') (rounds : Nat) :
    Constructing (functionOf item rounds) (Parse.functionOf item' rounds) := by
  intro m
  refine parse_bind (Parse.along_expect movement_next_le "[") fun _ r _ hle => ?_
  refine InStep.constructs_after ?_ (touches_moved _ hle) (fun _ ho => .inl ho) rfl
  refine InStep.bind (argument_inStep (m.moved m.store r)) ?_
  rintro _ m₁ a _ ⟨rfl, htop, hon₁, rfl⟩
  refine InStep.constructs_after ?_ htop.touches htop.origin hon₁
  refine InStep.bind (arguments_inStep rounds htop.lies) ?_
  rintro _ m₂ more _ ⟨rfl, hchain, hon₂, rfl⟩
  refine InStep.constructs_after ?_ hchain.touches hchain.origin hon₂
  refine parse_bind (Parse.along_expectUnlessAtEnd movement_next_le ".") fun _ r₃ _ hle₃ => ?_
  have hchain₃ : (nest (a :: more) .missing).Lies (m₂.moved m₂.store r₃) :=
    (touches_moved [] hle₃).lies_of_nil hchain.lies
  refine InStep.constructs_after ?_ (touches_moved _ hle₃) (fun _ ho => .inl ho) rfl
  refine (seriesOf_constructing hitem rounds (m₂.moved m₂.store r₃)).bind_of_imp
    (fun _ _ _ _ hr => hr.of_nil _) ?_
  rintro _ m₄ _ _ ⟨B, rfl, rfl, hB, hon₄, rfl⟩
  -- the body shares nothing with the chain of functions, which had been made before it
  have hset := nest_setBody hchain₃ hB
  obtain ⟨s, hlink, hlinked⟩ := linkAll_built hset.lies
  have hlink' : linkAll (a.1 :: more.map (·.1)) _ = _ := hlink
  rw [Outcome.bind_of_ok (setBody_eq _ _ m₄), Outcome.bind_of_ok hlink']
  refine InStep.constructs_after ?_ (hset.trans hlinked).touches (hset.trans hlinked).origin
    (hon₄.trans rfl)
  refine parse_bind (Parse.along_expectUnlessAtEnd movement_next_le "]") fun _ r₅ _ hle₅ => ?_
  have hclosing := closing hlinked.lies hle₅
  rw [term_lams] at hclosing
  exact hclosing

/-! ### Expressions and entries -/

theorem expressionWithin_constructing (depth : Nat) :
    Constructing (expressionWithin depth) (Parse.expressionWithin depth) := by
  induction depth with
  | zero => exact fun m => rejects_endless [] m
  | succ depth ih =>
    intro m
    refine current_bind ?_
    split
    · exact bracketOf_constructing ih depth m
    split
    · exact functionOf_constructing ih depth m
    split
    · refine parse_bind (Parse.along_name movement_next_le) fun x r _ hle => ?_
      have href := (m.moved m.store r).built_ref x .free
      exact ⟨.ref _ x .free, rfl, rfl, href.after (touches_moved [] hle) (fun _ ho => .inl ho),
        rfl, rfl⟩
    · exact Constructs.of_lies (T := .missing) ⟨trivial, List.nodup_nil, nofun⟩

theorem expression_constructing : Constructing expression Parse.expression :=
  fun m => expressionWithin_constructing (m.reading.scanner.remaining + 1) m

end Op

/-- A statement about a tree, and the entry about its term. -/
inductive Presents (T : Tree) : Statement → Entry → Prop
  | define (name : String) (reduced : Bool) :
      Presents T (.define name T.pointer reduced) (.define name T.term reduced)
  | execute : Presents T (.execute T.pointer) (.execute T.term)

namespace Op

/-- Both have read an entry, with an expression of new objects. -/
def Announces (m : Memory) (st : Statement) (m' : Memory) (en : Entry) (r : Reading) : Prop :=
  ∃ T : Tree, Presents T st en ∧ Built [] m m' T ∧ m.ReadsOn m' ∧ m'.reading = r

theorem Announces.after {st : Statement} {en : Entry} (h : Announces m₁ st m' en r)
    (ht : Touches [] m m₁) (hon : m.ReadsOn m₁) : Announces m st m' en r := by
  obtain ⟨T, hT, hbuilt, hon', hr⟩ := h
  exact ⟨T, hT, hbuilt.after ht fun _ ho => .inl ho, hon.trans hon', hr⟩

theorem definition_inStep (reduced : Bool) (m : Memory) :
    InStep (Announces m) (Rejects [] m) (definition reduced m)
      (Parse.definition reduced m.reading) := by
  refine parse_bind (Parse.along_definitionName movement_next_le) fun x r _ hle => ?_
  refine (expression_constructing (m.moved m.store r)).bind_of_imp
    (fun _ _ _ _ hr => hr.after (touches_moved _ hle) (fun _ ho => .inl ho) rfl) ?_
  rintro _ m' _ _ ⟨T, rfl, rfl, hT, hon, rfl⟩
  exact ⟨T, .define x reduced, hT.after (touches_moved _ hle) fun _ ho => .inl ho, hon, rfl⟩

/-- **An entry is read in step**: the objects of its expression are new. -/
theorem statement_inStep (m : Memory) :
    InStep (Announces m) (Rejects [] m) (statement m) (Parse.entry m.reading) := by
  refine parse_bind (Parse.along_keyword movement_next_le) fun keyword r _ hle => ?_
  have hstart := touches_moved [] hle
  refine InStep.imp (R := Announces (m.moved m.store r)) (E := Rejects [] (m.moved m.store r)) ?_
    (fun _ _ _ _ h => h.after hstart rfl)
    fun _ _ _ _ h => h.after hstart (fun _ ho => .inl ho) rfl
  cases keyword with
  | define => exact definition_inStep true (m.moved m.store r)
  | defineAsIs => exact definition_inStep false (m.moved m.store r)
  | execute =>
    refine InStep.bind (expression_constructing (m.moved m.store r)) ?_
    rintro _ m' _ _ ⟨T, rfl, rfl, hT, hon, rfl⟩
    exact ⟨T, .execute, hT, hon, rfl⟩

end Op

end LambdaScript
