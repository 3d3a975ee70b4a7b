/-
LambdaScript/Proofs/Refinement.lean

Reduction in place does what reduction of terms says.

Both reducers are followed step by step.  They start from a tree at a place and from its
term at the same place (`Paired`), and they end in the same way: with a tree and its term
(`Finished`), or with the same fault, the same trail and the same definitions (`Failed`).  All
the time the definitions are separate, and nothing is written but the objects of the tree
and new ones.

That a definition is copied before it takes the place of its name is what keeps the two
in step: the copy consists of new objects (`Working.leave`), so that writing into it
leaves the definitions as they are.
-/
import LambdaScript.Proofs.Runs
import LambdaScript.Proofs.Separation
import LambdaScript.Proofs.Writing

namespace LambdaScript

/-- The memory after a reduction that began when `base` had been printed. -/
def Memory.worked (m : Memory) (base : String) (s : Store) (e : Effects) : Memory :=
  { m with
    store := s
    reading := { m.reading with next := e.next }
    output := base ++ String.join (e.lines.map (· ++ "\n")) }

/-- A tree and its term are about to be reduced at the same place, under the same
circumstances and with the same effects so far. -/
structure Paired (base : String) (s : Setting) (m : Memory) (c : Circumstance) (T : Tree)
    (os : List Pointer) (e : Effects) : Prop where
  working : Working m c.place T os
  display : m.display = s.display
  rounds : m.limits.rounds = s.rounds
  trail : m.trail.map Pointer.visit = c.trail
  rest : m = m.worked base m.store e

/-- Both reductions have succeeded.  The tree has been made out of the objects of `os` and of
new ones. -/
def Finished (base : String) (m : Memory) (os : List Pointer) (p : Pointer) (m' : Memory)
    (r : Placed) (e : Effects) : Prop :=
  ∃ (T : Tree) (around : List Pointer), T.pointer = p ∧ T.term = r.1 ∧ Built os m m' T ∧
    Working m' r.2 T around ∧ m' = m.worked base m'.store e

/-- Both reductions have failed, in the same way. -/
structure Failed (base : String) (m : Memory) (os : List Pointer) (err : SessionError)
    (m' : Memory) (f : Failure) (e : Effects) : Prop where
  fault : err = .fault f.fault
  keeps : m'.Keeps f.table
  trail : m'.trail.map Pointer.visit = f.trail
  touches : Touches os m m'
  rest : m' = { m.worked base m'.store e with trail := m'.trail }

/-- The reducers are in step wherever they start. -/
def Tracks (s : Setting) (again : Op.Reducer) (again' : Reducer) : Prop :=
  ∀ {base m c T os e}, Paired base s m c T os e →
    InStep (Finished base m T.objects) (Failed base m T.objects) (again c.mode T.pointer m)
      (again' c T.term e)

variable {base : String} {s : Setting} {m m₁ m' : Memory} {c : Circumstance} {T T' : Tree}
  {os os₁ around : List Pointer} {e e₁ e' : Effects}

theorem Finished.after {p : Pointer} {r : Placed} (h : Finished base m₁ os₁ p m' r e')
    (ht : Touches os m m₁) (hos : ∀ o ∈ os₁, o ∈ os ∨ ¬ m.Has o)
    (hm : m₁ = m.worked base m₁.store e₁) : Finished base m os p m' r e' := by
  obtain ⟨T, around, hp, hterm, hbuilt, hworking, hrest⟩ := h
  refine ⟨T, around, hp, hterm, hbuilt.after ht hos, hworking, hrest.trans ?_⟩
  exact congrArg (·.worked base m'.store e') hm

theorem Failed.after {err : SessionError} {f : Failure} (h : Failed base m₁ os₁ err m' f e')
    (ht : Touches os m m₁) (hos : ∀ o ∈ os₁, o ∈ os ∨ ¬ m.Has o)
    (hm : m₁ = m.worked base m₁.store e₁) : Failed base m os err m' f e' where
  fault := h.fault
  keeps := h.keeps
  trail := h.trail
  touches := ht.trans h.touches hos
  rest := h.rest.trans
    (congrArg (fun m : Memory => { m.worked base m'.store e' with trail := m'.trail }) hm)

/-- What has been done before may be counted in. -/
theorem InStep.onward {r : EStateM.Result SessionError Memory Pointer}
    {r' : EStateM.Result Failure Effects Placed}
    (h : InStep (Finished base m₁ os₁) (Failed base m₁ os₁) r r') (ht : Touches os m m₁)
    (hos : ∀ o ∈ os₁, o ∈ os ∨ ¬ m.Has o) (hm : m₁ = m.worked base m₁.store e₁) :
    InStep (Finished base m os) (Failed base m os) r r' :=
  h.imp (fun _ _ _ _ hfinished => hfinished.after ht hos hm) fun _ _ _ _ hfailed =>
    hfailed.after ht hos hm

namespace Paired

variable (h : Paired base s m c T os e)
include h

/-- From here on another expression is at hand. -/
theorem next (hm : m' = m.worked base m'.store e') {place : Place}
    (hworking : Working m' place T' around) (mode : Mode) :
    Paired base s m' ⟨mode, place, c.trail⟩ T' around e' where
  working := hworking
  display := (congrArg (·.display) hm).trans h.display
  rounds := (congrArg (·.limits.rounds) hm).trans h.rounds
  trail := (congrArg (·.trail.map Pointer.visit) hm).trans h.trail
  rest := by
    refine hm.trans ?_
    exact (congrArg (·.worked base m'.store e') hm).symm

/-- Making something changes the store and the supply of keys. -/
theorem grown (s' : Store) (n : Nat) :
    m.grown s' n = m.worked base s' { e with next := n } :=
  congrArg (·.grown s' n) h.rest

theorem done : Finished base m T.objects T.pointer m (T.term, c.place) e :=
  ⟨T, os, rfl, rfl, .refl h.working.lies, h.working, h.rest⟩

theorem failed (fault : Fault) :
    Failed base m T.objects (.fault fault) m ⟨fault, c.place.definitions T.term, c.trail⟩ e where
  fault := rfl
  keeps := h.working.keeps
  trail := h.trail
  touches := .refl _ m
  rest := h.rest

/-- Both ask the same question about a term, and go on with the answer. -/
theorem ask {α : Type} {P : Tree} (hP : P.Lies m) (question : Term → Except Fault α)
    {f : α → Op Pointer} {g : α → Reduce Placed}
    (hfg : ∀ a, question P.term = .ok a →
      InStep (Finished base m T.objects) (Failed base m T.objects) (f a m) (g a e)) :
    InStep (Finished base m T.objects) (Failed base m T.objects)
      ((Op.ask question P.pointer >>= f) m)
      ((c.ask T.term (question P.term) >>= g) e) := by
  have hask : Op.ask question P.pointer m = Op.aside (Act.ofFault (question P.term)) m := by
    rw [← hP.read_eq]
    rfl
  cases hanswer : question P.term with
  | error fault =>
    rw [hanswer] at hask
    rw [Outcome.bind_of_error hask]
    exact h.failed fault
  | ok a =>
    rw [hanswer] at hask
    rw [Outcome.bind_of_ok hask]
    exact hfg a hanswer

end Paired

/-! ### Applying -/

variable {again : Op.Reducer} {again' : Reducer}

/-- A function is applied by writing into its body. -/
theorem applyWith_lam (hagain : Tracks s again again') {k : Nat} {b : Binder} {x : String}
    {t a : Tree} (h : Paired base s m c (.app k (.lam b x t) a) os e) :
    InStep (Finished base m (Tree.app k (.lam b x t) a).objects)
      (Failed base m (Tree.app k (.lam b x t) a).objects)
      (Op.applyWith again s.execute c.mode (.node k) m)
      (applyWith again' s c (.app (.lam b x t.term) a.term) e) := by
  have hlies := h.working.lies
  have ht := hlies.fn.body
  have hop : Op.applyWith again s.execute c.mode (.node k) m = (do
      let new ← Op.substitute b a.pointer t.pointer
      again c.mode.afterApplication new) m := by
    refine (Op.bind_node hlies.stands.1 _).trans ?_
    exact Op.bind_function hlies.stands.2.1.1 _
  have hsub : t.objects ⊆ (Tree.app k (.lam b x t) a).objects := fun _ ho =>
    Tree.objects_fn_subset k _ a (Tree.objects_body_subset b x t ho)
  have hnext : m.reading.next = e.next := congrArg (·.reading.next) h.rest
  have hvalue : applyWith again' s c (.app (.lam b x t.term) a.term) e
      = again' ⟨c.mode.afterApplication, if t.term.isArgumentOf b
            then c.place.leave (.app (.lam b x t.term) a.term)
            else (c.place.down (.function a.term)).down (.body b x), c.trail⟩
          (t.term.subst b a.term m.reading.next).1
          { e with next := (t.term.subst b a.term m.reading.next).2 } := by
    rw [hnext]
    rfl
  rw [hop, hvalue]
  cases harg : t.term.isArgumentOf b with
  | true =>
    -- the result is a copy of the argument, and the application stays where it is
    obtain ⟨T', s', hcopy, hbuilt, hterm⟩ := Op.copy_makes hlies.arg
    rw [Outcome.bind_of_ok ((Op.substitute_argument ht harg _).trans hcopy),
      Term.subst_argument harg, ← hterm]
    refine (hagain (h.next (h.grown _ _) (h.working.leave hbuilt rfl) _)).onward
      (hbuilt.touches.mono (List.nil_subset _)) ?_ (h.grown _ _)
    exact fun o ho => (hbuilt.mono (List.nil_subset _)).origin o ho
  | false =>
    -- the body is written into, and the argument that is copied into it is no part of it
    have hapart : ∀ o ∈ a.objects, o ∉ t.objects := fun o ho ho' =>
      (List.nodup_append.mp (List.nodup_cons.mp hlies.nodup).2).2.2 o
        (List.mem_cons_of_mem _ ho') o ho rfl
    obtain ⟨T', s', hsubst, hbuilt, hterm, hp⟩ := Op.substitute_makes ht hlies.arg b hapart
    rw [Outcome.bind_of_ok hsubst, ← hterm]
    have hworking := h.working.fn.body.rewrite hbuilt (hp harg) rfl
    exact (hagain (h.next (h.grown _ _) hworking _)).onward (hbuilt.touches.mono hsub)
      (hbuilt.mono hsub).origin (h.grown _ _)

/-- The memory after a line has been printed. -/
def Memory.saying (m : Memory) (line : String) : Memory :=
  { m with output := m.output ++ (line ++ "\n") }

theorem Paired.saying (h : Paired base s m c T os e) (line : String) :
    Paired base s (m.saying line) c T os { e with lines := e.lines ++ [line] } := by
  have hrest : m.saying line = m.worked base m.store { e with lines := e.lines ++ [line] } := by
    refine (congrArg (·.saying line) h.rest).trans ?_
    simp [Memory.saying, Memory.worked, String.append_assoc]
  exact h.next hrest (h.working.congr rfl rfl rfl) c.mode

/-- An action is announced, and its place is taken by the identity function. -/
theorem applyWith_action {k j : Nat} {x : String} {l : Link} {a : Tree}
    (h : Paired base s m c (.app k (.ref j x l) a) os e) :
    InStep (Finished base m (Tree.app k (.ref j x l) a).objects)
      (Failed base m (Tree.app k (.ref j x l) a).objects)
      (Op.applyWith again s.execute c.mode (.node k) m)
      (applyWith again' s c (.app (.ref x l) a.term) e) := by
  have hlies := h.working.lies
  have hop : Op.applyWith again s.execute c.mode (.node k) m
      = (if s.execute && Action.isName x then do
          Op.announce a.pointer
          Op.makeIdentity
        else return .node k : Op Pointer) m := by
    refine (Op.bind_node hlies.stands.1 _).trans ?_
    exact Op.bind_node hlies.fn.stands _
  have hannounce : Op.announce a.pointer m = Op.aside (do
      Act.sayLine (← Act.ofFault
        ((c.place.definitions (.app (.ref x l) a.term)).announce s.display a.term))) m := by
    show Op.aside (do
      Act.sayLine (← Act.ofFault (m.definitions.announce m.display (m.read a.pointer)))) m = _
    rw [hlies.arg.read_eq, h.working.keeps.definitions_eq, h.display]
    rfl
  rw [hop, applyWith]
  cases haction : s.execute && Action.isName x with
  | false => exact h.done
  | true =>
    simp only [if_true]
    rcases hline : (c.place.definitions (.app (.ref x l) a.term)).announce s.display a.term with
      fault | line
    · rw [hline] at hannounce
      rw [Outcome.bind_of_error hannounce]
      exact h.failed fault
    · rw [hline] at hannounce
      have hsay : Op.announce a.pointer m = .ok () (m.saying line) := hannounce
      have hnext : (m.saying line).reading.next = e.next := congrArg (·.reading.next) h.rest
      obtain ⟨T', s', hmake, hbuilt, hterm⟩ := Op.makeIdentity_makes (m := m.saying line)
      have hbuilt' : Built [] m _ T' := hbuilt.after (.of_store [] rfl rfl) fun _ ho => .inl ho
      rw [Outcome.bind_of_ok hsay, hmake]
      refine ⟨T', _, rfl, hterm.trans ?_, hbuilt'.mono (List.nil_subset _),
        h.working.leave hbuilt' rfl, ?_⟩
      · rw [hnext]
      · refine ((h.saying line).grown _ _).trans ?_
        rw [hnext]
        rfl

/-- Applying once is in step. -/
theorem applyWith_inStep (hagain : Tracks s again again') (h : Paired base s m c T os e) :
    InStep (Finished base m T.objects) (Failed base m T.objects)
      (Op.applyWith again s.execute c.mode T.pointer m) (applyWith again' s c T.term e) := by
  have hlies := h.working.lies
  cases T with
  | missing => exact h.failed _
  | foreign => exact h.failed _
  | lam b x t => exact h.failed _
  | ref k x l =>
    have hop : Op.applyWith again s.execute c.mode (.node k) m
        = .error (.fault .notAnApplication) m := Op.bind_node hlies.stands _
    exact hop ▸ h.failed _
  | app k f a =>
    cases f with
    | lam b x t => exact applyWith_lam hagain h
    | ref j x l => exact applyWith_action h
    | app j g b =>
      have hop : Op.applyWith again s.execute c.mode (.node k) m = .ok (.node k) m :=
        (Op.bind_node hlies.stands.1 _).trans (Op.bind_node hlies.fn.stands.1 _)
      exact hop ▸ h.done
    | _ =>
      have hop : Op.applyWith again s.execute c.mode (.node k) m = .ok (.node k) m :=
        Op.bind_node hlies.stands.1 _
      exact hop ▸ h.done

/-! ### Unrolling -/

/-- What is inside an expression is reduced first. -/
theorem Paired.bind (h : Paired base s m c T os e) {x : Op Pointer}
    {y : Reduce Placed} {f : Pointer → Op Pointer} {g : Placed → Reduce Placed}
    (hxy : InStep (Finished base m os₁) (Failed base m os₁) (x m) (y e)) (hos : os₁ ⊆ T.objects)
    (hfg : ∀ p m' r e', Finished base m os₁ p m' r e' →
      InStep (Finished base m T.objects) (Failed base m T.objects) (f p m') (g r e')) :
    InStep (Finished base m T.objects) (Failed base m T.objects) ((x >>= f) m) ((y >>= g) e) := by
  refine hxy.bind_of_imp (fun _ _ _ _ hfailed => ?_) hfg
  exact hfailed.after (.refl _ m) (fun o ho => .inl (hos ho)) h.rest

/-- The result is written back. -/
theorem Paired.written (h : Paired base s m c T os e) {write : Store → Store}
    (hT : Built T.objects m (m'.written write) T') (hp : T'.pointer = T.pointer)
    (hrest : m' = m.worked base m'.store e') :
    Paired base s (m'.written write) c T' os e' :=
  h.next (congrArg (·.written write) hrest)
    (h.working.rewrite hT hp (congrArg (·.roots) hrest)) c.mode

theorem unrollWith_inStep (hagain : Tracks s again again') (rounds : Nat)
    (h : Paired base s m c T os e) :
    InStep (Finished base m T.objects) (Failed base m T.objects)
      (Op.unrollWith again s.execute rounds T.pointer m)
      (unrollWith again' s rounds c T.term e) := by
  induction rounds generalizing m c T os e with
  | zero => exact h.failed .tooDeep
  | succ rounds ih =>
    have hlies := h.working.lies
    refine h.ask hlies Term.unrolls fun unrolls hunrolls => ?_
    cases unrolls with
    | false => exact h.done
    | true =>
      have hcases := Term.unrolls_eq_true hunrolls
      cases T with
      | app k f a =>
        cases f with
        | missing => cases hunrolls
        | foreign => cases hunrolls
        | ref j x l =>
          rcases hcases with ⟨_, _, _, heq⟩ | ⟨_, _, _, _, heq, -⟩ <;> cases heq
        | lam b x t =>
          show InStep _ _ ((Op.node k >>= _) m)
            ((applyWith again' s (c.inMode .applyRecursive) (.app (.lam b x t.term) a.term) >>=
              fun r => unrollWith again' s rounds (c.moved r.2) r.1) e)
          rw [Op.bind_node hlies.stands.1]
          have hpaired := h.next h.rest h.working .applyRecursive
          refine h.bind (applyWith_inStep hagain hpaired) (List.Subset.refl _) ?_
          rintro _ m' ⟨_, place⟩ e' ⟨T', around, rfl, rfl, hbuilt, hworking, hrest⟩
          exact (ih (h.next hrest hworking c.mode)).onward hbuilt.touches hbuilt.origin hrest
        | app j g b =>
          show InStep _ _ ((Op.node k >>= _) m)
            ((applyWith again' s ((c.down (.function a.term)).inMode .applyRecursive)
                (.app g.term b.term) >>=
              fun r => unrollWith again' s rounds c (.app r.1 a.term)) e)
          rw [Op.bind_node hlies.stands.1]
          have hpaired := h.next h.rest h.working.fn .applyRecursive
          refine h.bind (applyWith_inStep hagain hpaired) (Tree.objects_fn_subset k _ a) ?_
          rintro _ m' ⟨_, place⟩ e' ⟨f', around, rfl, rfl, hbuilt, -, hrest⟩
          -- only the left side has been applied, and the application is unrolled again
          have hwrite := hlies.setFn hbuilt
          exact (ih (h.written hwrite rfl hrest)).onward hwrite.touches hwrite.origin
            (congrArg (·.written (·.setFn k f'.pointer)) hrest)
      | _ => cases hunrolls

/-! ### Reducing -/

theorem reduceApplicationWith_inStep (hagain : Tracks s again again') {k : Nat} {f a : Tree}
    (h : Paired base s m c (.app k f a) os e) :
    InStep (Finished base m (Tree.app k f a).objects) (Failed base m (Tree.app k f a).objects)
      (Op.reduceApplicationWith again s.execute c.mode k f.pointer a.pointer m)
      (reduceApplicationWith again' s c f.term a.term e) := by
  have hlies := h.working.lies
  obtain ⟨mode, place, trail⟩ := c
  cases mode with
  | applyRecursive => exact h.done
  | doneRecursive =>
    refine h.ask hlies.fn Term.isRecursive fun recursive _ => ?_
    cases recursive with
    | true => exact h.done
    | false => exact applyWith_inStep hagain h
  | normal =>
    refine h.ask hlies.fn Term.isRecursive fun recursive _ => ?_
    cases recursive with
    | false => exact applyWith_inStep hagain h
    | true =>
      have htrail : m.trail.map Pointer.visit = trail := h.trail
      show InStep _ _ ((Op.ask (Term.containsRecursive (m.trail.map Pointer.visit)) a.pointer
        >>= _) m) _
      rw [htrail]
      refine h.ask hlies.arg (Term.containsRecursive trail) fun contains _ => ?_
      cases contains with
      | true => exact h.done
      | false =>
        refine h.ask hlies Term.unrolls fun unrolls _ => ?_
        cases unrolls with
        | false => exact h.done
        | true =>
          show InStep _ _ ((Op.unrollWith again s.execute m.limits.rounds (.node k) >>= _) m) _
          rw [h.rounds]
          -- three reductions, one after the other, each of what the one before has made
          refine h.bind (unrollWith_inStep hagain s.rounds h) (List.Subset.refl _) ?_
          rintro _ m₁ ⟨_, place₁⟩ e₁ ⟨T₁, around₁, rfl, rfl, hbuilt₁, hworking₁, hrest₁⟩
          have h₁ := h.next hrest₁ hworking₁ .doneRecursive
          refine InStep.onward (h₁.bind (applyWith_inStep hagain h₁) (List.Subset.refl _) ?_)
            hbuilt₁.touches hbuilt₁.origin hrest₁
          rintro _ m₂ ⟨_, place₂⟩ e₂ ⟨T₂, around₂, rfl, rfl, hbuilt₂, hworking₂, hrest₂⟩
          exact (hagain (h₁.next hrest₂ hworking₂ .normal)).onward hbuilt₂.touches hbuilt₂.origin
            hrest₂

/-- Both sides of an application are reduced and written back, and then the application
itself is reduced. -/
theorem reduceSides_inStep (hagain : Tracks s again again') {k : Nat} {f a : Tree}
    (h : Paired base s m c (.app k f a) os e) :
    InStep (Finished base m (Tree.app k f a).objects) (Failed base m (Tree.app k f a).objects)
      ((do
        let fn ← again c.mode f.pointer
        Op.setFn k fn
        let arg ← again c.mode (← Op.node k).arg
        Op.setArg k arg
        Op.reduceApplicationWith again s.execute c.mode k fn arg : Op Pointer) m)
      ((do
        let fn ← again' (c.down (.function a.term)) f.term
        let arg ← again' (c.down (.argument fn.1)) a.term
        reduceApplicationWith again' s c fn.1 arg.1 : Reduce Placed) e) := by
  refine h.bind (hagain (h.next h.rest h.working.fn c.mode)) (Tree.objects_fn_subset k f a) ?_
  rintro _ m₁ ⟨_, place₁⟩ e₁ ⟨f', around₁, rfl, rfl, hbuilt₁, -, hrest₁⟩
  -- the new left side is written before the right side is reduced
  have hfn := h.working.lies.setFn hbuilt₁
  have h₁ := h.written hfn rfl hrest₁
  refine InStep.onward ?_ hfn.touches hfn.origin
    (congrArg (·.written (·.setFn k f'.pointer)) hrest₁)
  rw [Outcome.bind_of_ok (Op.setFn_eq k _ m₁), Op.bind_node h₁.working.lies.stands.1]
  refine h₁.bind (hagain (h₁.next h₁.rest h₁.working.arg c.mode))
    (Tree.objects_arg_subset k f' a) ?_
  rintro _ m₂ ⟨_, place₂⟩ e₂ ⟨a', around₂, rfl, rfl, hbuilt₂, -, hrest₂⟩
  have harg := h₁.working.lies.setArg hbuilt₂
  rw [Outcome.bind_of_ok (Op.setArg_eq k _ m₂)]
  exact (reduceApplicationWith_inStep hagain (h₁.written harg rfl hrest₂)).onward harg.touches
    harg.origin (congrArg (·.written (·.setArg k a'.pointer)) hrest₂)

/-- What is on the trail is reduced in step. -/
theorem reduceWith_inStep (hagain : Tracks s again again')
    (h : Paired base s m (c.within T.term.visit) T os e) :
    InStep (Finished base m T.objects) (Failed base m T.objects)
      (Op.reduceWith again s.execute c.mode T.pointer m) (reduceWith again' s c T.term e) := by
  have hlies := h.working.lies
  cases T with
  | missing => exact h.done
  | foreign => exact h.done
  | lam b x t =>
    show InStep _ _ ((Op.function b >>= _) m)
      ((again' ((c.within (.function b)).down (.body b x)) t.term >>= _) e)
    rw [Op.bind_function hlies.stands.1]
    refine h.bind (hagain (h.next h.rest h.working.body c.mode))
      (Tree.objects_body_subset b x t) ?_
    rintro _ m' ⟨_, place⟩ e' ⟨t', around, rfl, rfl, hbuilt, -, hrest⟩
    have hbody := hlies.setBody hbuilt
    exact (h.written hbody rfl hrest).done.after hbody.touches hbody.origin
      (congrArg (·.written (·.setBody b t'.pointer)) hrest)
  | ref k x l =>
    show InStep _ _ ((Op.node k >>= _) m) _
    rw [Op.bind_node hlies.stands]
    cases l with
    | free =>
      show InStep _ _ (((get : Op Memory) >>= _) m) (reduceVisiting _ again' s c (.ref x .free) e)
      have hlookUp := Place.lookUp_eq c.place (.ref x .free) x
      rw [Outcome.bind_of_ok (show (get : Op Memory) m = .ok m m from rfl), reduceVisiting]
      rcases h.working.keeps.lookUp x with ⟨hnone, hnone'⟩ | ⟨B, hB, hsome, hsome'⟩
      · rw [hnone, hlookUp.trans hnone']
        exact h.done
      · -- the definition is copied, and what is reduced is the copy
        obtain ⟨T', s', hcopy, hbuilt, hterm⟩ := Op.copy_makes hB
        have hnext : m.reading.next = e.next := congrArg (·.reading.next) h.rest
        rw [hsome, hlookUp.trans hsome']
        show InStep _ _ ((Op.copy B.pointer >>= _) m)
          (again' ⟨c.mode, c.place.leave (.ref x .free), _⟩ (B.term.copy e.next).1
            { e with next := (B.term.copy e.next).2 })
        rw [Outcome.bind_of_ok hcopy, ← hnext, ← hterm]
        exact (hagain (h.next (h.grown _ _) (h.working.leave hbuilt rfl) c.mode)).onward
          (hbuilt.touches.mono (List.nil_subset _))
          (hbuilt.mono (List.nil_subset _)).origin (h.grown _ _)
    | _ => exact h.done
  | app k f a =>
    show InStep _ _ ((Op.node k >>= _) m) _
    rw [Op.bind_node hlies.stands.1]
    cases f with
    | missing => exact h.done
    | _ => exact reduceSides_inStep hagain h

/-- The memory with an expression on the trail. -/
def Memory.pushed (m : Memory) (p : Pointer) : Memory :=
  { m with trail := p :: m.trail }

/-- The memory without the innermost expression on the trail. -/
def Memory.popped (m : Memory) : Memory :=
  { m with trail := m.trail.tail }

theorem Paired.pushed (h : Paired base s m c T os e) :
    Paired base s (m.pushed T.pointer) (c.within T.term.visit) T os e where
  working := h.working.congr rfl rfl rfl
  display := h.display
  rounds := h.rounds
  trail := congrArg₂ List.cons T.visit_pointer h.trail
  rest := congrArg (·.pushed T.pointer) h.rest

/-- **Reduction in place is in step with the reduction of terms.** -/
theorem reduceWithin_tracks (s : Setting) (depth : Nat) :
    Tracks s (Op.reduceWithin s.execute depth) (reduce s depth) := by
  induction depth with
  | zero => exact fun h => h.failed .tooDeep
  | succ depth ih =>
    intro base m c T os e h
    have hstep := reduceWith_inStep ih h.pushed
    have hstart : Touches T.objects m (m.pushed T.pointer) := .of_store _ rfl rfl
    show InStep _ _ ((Op.push T.pointer >>= _) m) (reduceWith (reduce s depth) s c T.term e)
    rw [Outcome.bind_of_ok (show Op.push T.pointer m = .ok () (m.pushed T.pointer) from rfl)]
    rcases hstep.ok_or_error with ⟨_, m', r, e', hop, hvalue, T', around, rfl, hterm, hbuilt,
      hworking, hrest⟩ | ⟨err, m', f, e', hop, hvalue, hfailed⟩
    · rw [Outcome.bind_of_ok hop, hvalue]
      have hpop : Built T.objects (m.pushed T.pointer) m'.popped T' :=
        hbuilt.trans (.of_store hbuilt.lies rfl rfl)
      refine ⟨T', around, rfl, hterm, hpop.after hstart fun _ ho => .inl ho,
        hworking.congr rfl rfl rfl, ?_⟩
      exact congrArg Memory.popped hrest
    · rw [Outcome.bind_of_error hop, hvalue]
      exact ⟨hfailed.fault, hfailed.keeps, hfailed.trail,
        hstart.trans hfailed.touches fun _ ho => .inl ho, hfailed.rest⟩

end LambdaScript
