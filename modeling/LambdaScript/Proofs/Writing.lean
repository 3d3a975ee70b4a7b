/-
LambdaScript/Proofs/Writing.lean

What the operations on objects do to trees.

Writing a field keeps the tree around it, with another part in the place of the old one
(`Lies.setFn`, `Lies.setArg`, `Lies.setBody`).  From this follows what the operations on
whole expressions make, object by object:

* copying makes a tree of new objects only (`Op.copy_makes`);
* substitution makes a tree out of the objects of the one it is given and of new ones
  (`Op.substitute_makes`), and keeps its root unless the whole of it is replaced;
* linking writes into references only, and keeps every object where it is
  (`Op.link_built`).

In each case the term of the new tree is what the operation of the same name makes of the
terms, and as many keys have been taken from the supply.
-/
import LambdaScript.Proofs.Trees

namespace LambdaScript

/-! ### Writing a field -/

namespace Memory

/-- The memory with another store and another supply of keys. -/
def grown (m : Memory) (s : Store) (next : Nat) : Memory :=
  { m with store := s, reading := { m.reading with next := next } }

/-- The memory after a write. -/
def written (m : Memory) (f : Store → Store) : Memory :=
  { m with store := f m.store }

variable (m : Memory) (k : Nat) (b : Binder) (p : Pointer)

theorem touches_setNode (n : Node) : Touches [.node k] m (m.written (·.setNode k n)) where
  next_le := Nat.le_refl _
  keys_le := Nat.le_refl _
  same o _ ho := by
    cases o with
    | missing => trivial
    | foreign => trivial
    | function c => rfl
    | node j =>
      have hne : j ≠ k := fun h => ho (h ▸ List.mem_singleton_self _)
      exact Store.node_setNode_of_ne m.store n hne

theorem touches_setFunction (f : FunctionNode) :
    Touches [.function b] m (m.written (·.setFunction b f)) where
  next_le := Nat.le_refl _
  keys_le := Nat.le_refl _
  same o _ ho := by
    cases o with
    | missing => trivial
    | foreign => trivial
    | function c =>
      have hne : c ≠ b := fun h => ho (h ▸ List.mem_singleton_self _)
      exact Store.function_setFunction_of_ne m.store f hne
    | node j => rfl

end Memory

namespace Tree

theorem objects_lam (b : Binder) (x : String) (t : Tree) :
    (lam b x t).objects = .function b :: (t.objects ++ []) :=
  congrArg _ (List.append_nil _).symm

namespace Lies

variable {m m₁ m₂ : Memory} {T part part' f f' a a' t t' : Tree} {k : Nat} {b : Binder}
  {x : String} {root : Pointer} {rest : List Pointer}

/-- A part of a tree is worked on, and then the root is written.  Until the write the root is
as before; the new part and the rest of the tree are there after it, and with them any tree
that consists of the root and of these. -/
theorem replace (h : T.Lies m) (hT : T.objects.Perm (root :: (part.objects ++ rest)))
    (hpart : Built part.objects m m₁ part') (hwrite : Touches [root] m₁ m₂) :
    m.store.SameAt m₁.store root ∧ part'.Stands m₂.store ∧
      (∀ o ∈ rest, m.store.SameAt m₂.store o) ∧
      ∀ T' : Tree, T'.objects.Perm (root :: (part'.objects ++ rest)) → T'.Stands m₂.store →
        Built T.objects m m₂ T' := by
  have hnodup := hT.nodup_iff.mp h.nodup
  rw [List.nodup_cons, List.nodup_append, List.mem_append, not_or] at hnodup
  obtain ⟨⟨hroot, hroot'⟩, -, hrest, hapart⟩ := hnodup
  have hhas : ∀ o ∈ root :: (part.objects ++ rest), m.Has o := fun o ho =>
    h.has o (hT.mem_iff.mpr ho)
  have hhasroot := hhas root List.mem_cons_self
  have hhasrest : ∀ o ∈ rest, m.Has o := fun o ho =>
    hhas o (List.mem_cons_of_mem _ (List.mem_append_right _ ho))
  have hsub : part.objects ⊆ T.objects := fun o ho =>
    hT.mem_iff.mpr (List.mem_cons_of_mem _ (List.mem_append_left _ ho))
  have hmem : root ∈ T.objects := hT.mem_iff.mpr List.mem_cons_self
  have htouches : Touches T.objects m m₂ := (hpart.touches.mono hsub).trans hwrite fun o ho =>
    .inl (List.mem_singleton.mp ho ▸ hmem)
  -- the root had been made before the part was worked on, so it is not one of the new objects
  have hnot : ∀ o ∈ part'.objects, o ∉ [root] := fun o ho ho' =>
    hpart.apart hhasroot hroot (List.mem_singleton.mp ho' ▸ ho)
  refine ⟨hpart.touches.same root hhasroot hroot,
    hwrite.stands hpart.lies.stands hpart.lies.has hnot, ?_, ?_⟩
  · intro o ho
    have htouches' : Touches (root :: part.objects) m m₂ :=
      (hpart.touches.mono (List.subset_cons_self _ _)).trans hwrite fun o ho =>
        .inl (List.mem_singleton.mp ho ▸ List.mem_cons_self)
    refine htouches'.same o (hhasrest o ho) fun hor => ?_
    rcases List.mem_cons.mp hor with rfl | hop
    · exact hroot' ho
    · exact hapart o hop o ho rfl
  · intro T' hT' hstands
    refine ⟨htouches, ⟨hstands, ?_, ?_⟩, ?_⟩
    · rw [hT'.nodup_iff, List.nodup_cons, List.nodup_append, List.mem_append, not_or]
      refine ⟨⟨hpart.apart hhasroot hroot, hroot'⟩, hpart.lies.nodup, hrest, ?_⟩
      rintro o ho _ ho' rfl
      exact hpart.apart (hhasrest o ho') (fun hop => hapart o hop o ho' rfl) ho
    · intro o ho
      rcases List.mem_cons.mp (hT'.mem_iff.mp ho) with rfl | ho
      · exact htouches.has hhasroot
      · rcases List.mem_append.mp ho with ho | ho
        · exact hwrite.has (hpart.lies.has o ho)
        · exact htouches.has (hhasrest o ho)
    · intro o ho
      rcases List.mem_cons.mp (hT'.mem_iff.mp ho) with rfl | ho
      · exact .inl hmem
      · rcases List.mem_append.mp ho with ho | ho
        · exact (hpart.origin o ho).imp_left fun ho' => hsub ho'
        · exact .inl (hT.mem_iff.mpr (List.mem_cons_of_mem _ (List.mem_append_right _ ho)))

/-- The left side of an application is worked on and written back. -/
theorem setFn (h : (app k f a).Lies m) (hf : Built f.objects m m₁ f') :
    Built (app k f a).objects m (m₁.written (·.setFn k f'.pointer)) (app k f' a) := by
  obtain ⟨hroot, hf', hrest, hbuilt⟩ := h.replace (List.Perm.refl _) hf
    (m₁.touches_setNode k ((m₁.store.node k).withFn f'.pointer))
  refine hbuilt _ (List.Perm.refl _) ⟨?_, hf', h.arg.stands.of_same hrest⟩
  have hnode : m₁.store.node k = .app f.pointer a.pointer := Eq.trans hroot h.stands.1
  exact (Store.node_setNode_self _ _).trans (by rw [hnode, Node.withFn])

/-- The right side of an application is worked on and written back. -/
theorem setArg (h : (app k f a).Lies m) (ha : Built a.objects m m₁ a') :
    Built (app k f a).objects m (m₁.written (·.setArg k a'.pointer)) (app k f a') := by
  obtain ⟨hroot, ha', hrest, hbuilt⟩ := h.replace (.cons _ List.perm_append_comm) ha
    (m₁.touches_setNode k ((m₁.store.node k).withArg a'.pointer))
  refine hbuilt _ (.cons _ List.perm_append_comm) ⟨?_, h.fn.stands.of_same hrest, ha'⟩
  have hnode : m₁.store.node k = .app f.pointer a.pointer := Eq.trans hroot h.stands.1
  exact (Store.node_setNode_self _ _).trans (by rw [hnode, Node.withArg])

/-- The body of a function is worked on and written back. -/
theorem setBody (h : (lam b x t).Lies m) (ht : Built t.objects m m₁ t') :
    Built (lam b x t).objects m (m₁.written (·.setBody b t'.pointer)) (lam b x t') := by
  obtain ⟨hroot, ht', -, hbuilt⟩ := h.replace (.of_eq (objects_lam b x t)) ht
    (m₁.touches_setFunction b { m₁.store.function b with body := t'.pointer })
  refine hbuilt _ (.of_eq (objects_lam b x t')) ⟨?_, ht'⟩
  have hfunction : m₁.store.function b = ⟨x, t.pointer⟩ := Eq.trans hroot h.stands.1
  exact (Store.function_setFunction_self _ _).trans (by rw [hfunction])

end Lies

end Tree

/-! ### New objects -/

namespace Memory

variable (m : Memory) {f a : Tree} (x : String) (l : Link) (recursive : Bool)

theorem touches_add (n : Node) : Touches [] m (m.written (·.add n)) where
  next_le := Nat.le_succ _
  keys_le := Nat.le_refl _
  same o ho _ := by
    cases o with
    | missing => trivial
    | foreign => trivial
    | function c => rfl
    | node j => exact Store.node_add_of_ne m.store n (Nat.ne_of_lt ho)

/-- A new reference. -/
theorem built_ref : Built [] m (m.written (·.add (.ref x l))) (.ref m.store.next x l) where
  touches := m.touches_add _
  lies := ⟨Store.node_add_self _ _, List.nodup_singleton _, fun _ ho =>
    List.mem_singleton.mp ho ▸ Nat.lt_succ_self _⟩
  origin _ ho := .inr (List.mem_singleton.mp ho ▸ Nat.lt_irrefl _)

/-- A new application of two trees. -/
theorem built_app (hf : f.Lies m) (ha : a.Lies m) (hapart : ∀ o ∈ f.objects, o ∉ a.objects) :
    Built (f.objects ++ a.objects) m (m.written (·.add (.app f.pointer a.pointer)))
      (.app m.store.next f a) := by
  have hnew : ¬ m.Has (.node m.store.next) := Nat.lt_irrefl _
  have htouches := m.touches_add (.app f.pointer a.pointer)
  have hf' := htouches.lies_of_nil hf
  have ha' := htouches.lies_of_nil ha
  refine ⟨htouches.mono (List.nil_subset _),
    ⟨⟨Store.node_add_self _ _, hf'.stands, ha'.stands⟩, ?_, ?_⟩, ?_⟩
  · rw [Tree.objects, List.nodup_cons, List.nodup_append, List.mem_append, not_or]
    refine ⟨⟨fun h => hnew (hf.has _ h), fun h => hnew (ha.has _ h)⟩, hf.nodup, ha.nodup, ?_⟩
    rintro o ho _ ho' rfl
    exact hapart o ho ho'
  · intro o ho
    rcases List.mem_cons.mp ho with rfl | ho
    · exact Nat.lt_succ_self _
    · exact (List.mem_append.mp ho).elim (hf'.has o) (ha'.has o)
  · intro o ho
    rcases List.mem_cons.mp ho with rfl | ho
    · exact .inr hnew
    · exact .inl ho

/-- The memory with a new function, which has no body yet. -/
def withFunction : Memory :=
  m.grown (m.store.setFunction ⟨m.reading.next, recursive⟩ ⟨x, .missing⟩) (m.reading.next + 1)

/-- A function whose key has been taken is given its name. -/
theorem built_named {m m₁ : Memory} {b : Binder} (h : Touches [] m m₁)
    (hnew : ¬ m.Has (.function b)) (hhas : m₁.Has (.function b)) (x : String) :
    Built [] m (m₁.written (·.setFunction b ⟨x, .missing⟩)) (.lam b x .missing) where
  touches := h.trans (m₁.touches_setFunction b _) fun _ ho =>
    .inr (List.mem_singleton.mp ho ▸ hnew)
  lies := ⟨⟨Store.function_setFunction_self _ _, trivial⟩, List.nodup_singleton _, fun _ ho =>
    List.mem_singleton.mp ho ▸ hhas⟩
  origin _ ho := .inr (List.mem_singleton.mp ho ▸ hnew)

/-- A new function. -/
theorem built_lam :
    Built [] m (m.withFunction x recursive) (.lam ⟨m.reading.next, recursive⟩ x .missing) := by
  have htouches : Touches [] m (m.grown m.store (m.reading.next + 1)) :=
    ⟨Nat.le_refl _, Nat.le_succ _, fun o _ _ => .refl m.store o⟩
  exact built_named htouches (Nat.lt_irrefl _) (Nat.lt_succ_self _) x

end Memory

/-! ### Copies -/

/-- The operation makes the term `out.1` out of the objects of `os` and new ones, and takes
keys up to `out.2`. -/
def Makes (os : List Pointer) (m : Memory) (x : Op Pointer) (out : Term × Nat) : Prop :=
  ∃ (T : Tree) (s : Store), x m = .ok T.pointer (m.grown s out.2) ∧
    Built os m (m.grown s out.2) T ∧ T.term = out.1

namespace Op

open LambdaScript.Tree

/-- The fields of an application or of a reference are looked at. -/
theorem bind_node {α : Type} {m : Memory} {k : Nat} {n : Node} (h : m.store.node k = n)
    (f : Node → Op α) : (node k >>= f) m = f n m :=
  congrArg (fun n => f n m) h

/-- The fields of a function are looked at. -/
theorem bind_function {α : Type} {m : Memory} {b : Binder} {n : FunctionNode}
    (h : m.store.function b = n) (f : FunctionNode → Op α) : (function b >>= f) m = f n m :=
  congrArg (fun n => f n m) h

theorem setFn_eq (k : Nat) (p : Pointer) (m : Memory) :
    setFn k p m = .ok () (m.written (·.setFn k p)) := rfl

theorem setArg_eq (k : Nat) (p : Pointer) (m : Memory) :
    setArg k p m = .ok () (m.written (·.setArg k p)) := rfl

theorem setBody_eq (b : Binder) (p : Pointer) (m : Memory) :
    setBody b p m = .ok () (m.written (·.setBody b p)) := rfl

theorem makeNode_eq (n : Node) (m : Memory) :
    makeNode n m = .ok (.node m.store.next) (m.written (·.add n)) := rfl

theorem makeFunction_eq (recursive : Bool) (x : String) (m : Memory) :
    makeFunction recursive x m = .ok ⟨m.reading.next, recursive⟩ (m.withFunction x recursive) :=
  rfl

variable {m : Memory} {T : Tree}

theorem copyUnder_makes (hT : T.Lies m) (copies : Renaming) {n : Nat} (hn : T.height ≤ n) :
    Makes [] m (copyUnder copies n T.pointer) (T.term.copyUnder copies m.reading.next) := by
  induction T, n, hn using inductionWithin generalizing m copies with
  | missing n => exact ⟨.missing, m.store, rfl, .refl hT, rfl⟩
  | foreign n => exact ⟨.foreign, m.store, rfl, .refl hT, rfl⟩
  | ref n k x l =>
    exact ⟨.ref m.store.next x (l.rename copies), _, bind_node hT.stands _, m.built_ref x _, rfl⟩
  | app n k f a _ _ _ ihf iha =>
    obtain ⟨f', s₁, hcopyf, hf, htermf⟩ := ihf hT.fn copies
    obtain ⟨a', s₂, hcopya, ha, hterma⟩ := iha (hf.touches.lies_of_nil hT.arg) copies
    -- the copy of the left side is there when that of the right side is made
    have hf' := ha.touches.lies_of_nil hf.lies
    have happ := Memory.built_app _ hf' ha.lies fun o ho =>
      ha.apart (hf.lies.has o ho) List.not_mem_nil
    refine ⟨.app _ f' a', _, ?_, happ.after (hf.touches.trans ha.touches ?_) ?_, ?_⟩
    · refine (bind_node hT.stands.1 _).trans ?_
      refine (Outcome.bind_of_ok hcopyf).trans ?_
      exact (Outcome.bind_of_ok hcopya).trans rfl
    · exact fun _ ho => (List.not_mem_nil ho).elim
    · intro o ho
      rcases List.mem_append.mp ho with ho | ho
      · exact hf.origin o ho
      · exact (ha.origin o ho).imp_right fun hnew hhas => hnew (hf.touches.has hhas)
    · exact congrArg₂ Term.app htermf hterma
  | lam n b x t _ _ ih =>
    have hnew := m.built_lam x b.recursive
    obtain ⟨t', s', hcopy, hbuilt, hterm⟩ :=
      ih (hnew.touches.lies_of_nil hT.body) ((b, ⟨m.reading.next, b.recursive⟩) :: copies)
    refine ⟨.lam _ x t', _, ?_, hnew.trans (hnew.lies.setBody hbuilt), ?_⟩
    · refine (bind_function hT.stands.1 _).trans ?_
      refine (Outcome.bind_of_ok (makeFunction_eq b.recursive x m)).trans ?_
      exact (Outcome.bind_of_ok hcopy).trans rfl
    · exact congrArg (Term.lam _ x) hterm

/-- A copy consists of new objects. -/
theorem copy_makes (hT : T.Lies m) : Makes [] m (copy T.pointer) (T.term.copy m.reading.next) :=
  copyUnder_makes hT [] hT.height_le

/-- The identity function consists of new objects. -/
theorem makeIdentity_makes : Makes [] m makeIdentity (Term.identity m.reading.next) := by
  have hnew := m.built_lam "x" false
  have href := (m.withFunction "x" false).built_ref "x" (.binder ⟨m.reading.next, false⟩)
  exact ⟨.lam _ "x" (.ref _ "x" _), _, rfl, hnew.trans (hnew.lies.setBody href), rfl⟩

/-! ### Substitution -/

/-- Substitution writes into the tree it is given and makes copies of the argument.  Only a
tree that is itself the reference to be replaced gets another root. -/
theorem substituteWithin_makes {b : Binder} {A : Tree} (hT : T.Lies m) (hA : A.Lies m)
    (hapart : ∀ o ∈ A.objects, o ∉ T.objects) {n : Nat} (hn : T.height ≤ n) :
    ∃ (T' : Tree) (s : Store),
      substituteWithin b A.pointer n T.pointer m
        = .ok T'.pointer (m.grown s (T.term.subst b A.term m.reading.next).2) ∧
      Built T.objects m (m.grown s (T.term.subst b A.term m.reading.next).2) T' ∧
      T'.term = (T.term.subst b A.term m.reading.next).1 ∧
      (T.term.isArgumentOf b = false → T'.pointer = T.pointer) := by
  induction T, n, hn using inductionWithin generalizing m with
  | missing n => exact ⟨.missing, m.store, rfl, .refl hT, rfl, fun _ => rfl⟩
  | foreign n => exact ⟨.foreign, m.store, rfl, .refl hT, rfl, fun _ => rfl⟩
  | ref n k x l =>
    by_cases hl : l = .binder b
    · obtain ⟨T', s, hcopy, hbuilt, hterm⟩ := copy_makes hA
      have hsubst : (Term.ref x l).subst b A.term m.reading.next = A.term.copy m.reading.next :=
        if_pos hl
      have hop : substituteWithin b A.pointer (n + 1) (.node k) m = copy A.pointer m :=
        (bind_node hT.stands _).trans (congrFun (if_pos hl) m)
      refine ⟨T', s, ?_, ?_, ?_, ?_⟩ <;> simp only [term, hsubst]
      · exact hop.trans hcopy
      · exact hbuilt.mono (List.nil_subset _)
      · exact hterm
      · simp [Term.isArgumentOf, hl]
    · have hsubst : (Term.ref x l).subst b A.term m.reading.next
          = (.ref x l, m.reading.next) := if_neg hl
      refine ⟨.ref k x l, m.store, ?_, ?_, ?_, fun _ => rfl⟩ <;> simp only [term, hsubst]
      · exact (bind_node hT.stands _).trans (congrFun (if_neg hl) m)
      · exact .refl hT
  | app n k f a _ _ _ ihf iha =>
    obtain ⟨f', s₁, hf, hbuiltf, htermf, -⟩ :=
      ihf hT.fn hA fun o ho ho' => hapart o ho (objects_fn_subset k f a ho')
    -- the right side is looked up in the application after the left side has been written
    have hwrite := hT.setFn hbuiltf
    obtain ⟨a', s₂, ha, hbuilta, hterma, -⟩ :=
      iha hwrite.lies.arg (hwrite.touches.lies hA hapart) fun o ho ho' =>
        hapart o ho (objects_arg_subset k f a ho')
    refine ⟨.app k f' a', _, ?_, hwrite.trans (hwrite.lies.setArg hbuilta), ?_, fun _ => rfl⟩
    · refine (bind_node hT.stands.1 _).trans ?_
      refine (Outcome.bind_of_ok hf).trans ?_
      refine (Outcome.bind_of_ok (setFn_eq k _ _)).trans ?_
      refine (bind_node hwrite.lies.stands.1 _).trans ?_
      exact (Outcome.bind_of_ok ha).trans rfl
    · exact congrArg₂ Term.app htermf hterma
  | lam n c x t _ _ ih =>
    obtain ⟨t', s', ht, hbuilt, hterm, -⟩ :=
      ih hT.body hA fun o ho ho' => hapart o ho (objects_body_subset c x t ho')
    refine ⟨.lam c x t', _, ?_, hT.setBody hbuilt, congrArg (Term.lam c x) hterm,
      fun _ => rfl⟩
    refine (bind_function hT.stands.1 _).trans ?_
    exact (Outcome.bind_of_ok ht).trans rfl

theorem substitute_makes {A : Tree} (hT : T.Lies m) (hA : A.Lies m) (b : Binder)
    (hapart : ∀ o ∈ A.objects, o ∉ T.objects) :
    ∃ (T' : Tree) (s : Store),
      substitute b A.pointer T.pointer m
        = .ok T'.pointer (m.grown s (T.term.subst b A.term m.reading.next).2) ∧
      Built T.objects m (m.grown s (T.term.subst b A.term m.reading.next).2) T' ∧
      T'.term = (T.term.subst b A.term m.reading.next).1 ∧
      (T.term.isArgumentOf b = false → T'.pointer = T.pointer) :=
  substituteWithin_makes hT hA hapart hT.height_le

/-- What takes the place of a body that is nothing but the argument is a copy. -/
theorem substitute_argument {b : Binder} (hT : T.Lies m) (harg : T.term.isArgumentOf b = true)
    (p : Pointer) : substitute b p T.pointer m = copy p m := by
  cases T with
  | missing => cases harg
  | foreign => cases harg
  | app k f a => cases harg
  | lam c x t => cases harg
  | ref k x l =>
    show substituteWithin b p (2 * m.reading.next + m.store.next + 1) (.node k) m = _
    exact (bind_node hT.stands _).trans (congrFun (if_pos (of_decide_eq_true harg)) m)

end Op

theorem Term.subst_argument {b : Binder} {t : Term} (harg : t.isArgumentOf b = true)
    (arg : Term) (next : Nat) : t.subst b arg next = arg.copy next := by
  cases t with
  | missing => cases harg
  | foreign => cases harg
  | app f a => cases harg
  | lam c x t => cases harg
  | ref x l => exact if_pos (of_decide_eq_true harg)

/-! ### Linking -/

namespace Tree

/-- The tree in which the free references called `name` are tied to the function `b`. -/
def link (b : Binder) (name : String) : Tree → Tree
  | app k f a => app k (f.link b name) (a.link b name)
  | lam c x t => lam c x (t.link b name)
  | ref k x .free => if x = name then ref k x (.binder b) else ref k x .free
  | T => T

variable (b : Binder) (name : String)

theorem pointer_link (T : Tree) : (T.link b name).pointer = T.pointer := by
  fun_cases link b name T <;> rfl

theorem term_link (T : Tree) : (T.link b name).term = T.term.link b name := by
  induction T with
  | missing => rfl
  | foreign => rfl
  | app k f a ihf iha => exact congrArg₂ Term.app ihf iha
  | lam c x t ih => exact congrArg (Term.lam c x) ih
  | ref k x l =>
    cases l with
    | free => exact apply_ite term _ _ _
    | binder c => rfl
    | reference j own => rfl
    | endless => rfl

namespace Lies

variable {m m₁ : Memory} {f f' a a' t t' : Tree} {k : Nat} {x : String} {b : Binder}

/-- The left side of an application is worked on and keeps its root. -/
theorem inFn (h : (app k f a).Lies m) (hf : Built f.objects m m₁ f')
    (hp : f'.pointer = f.pointer) : Built (app k f a).objects m m₁ (app k f' a) := by
  obtain ⟨hroot, hf', hrest, hbuilt⟩ := h.replace (List.Perm.refl _) hf (.refl _ m₁)
  refine hbuilt _ (List.Perm.refl _) ⟨?_, hf', h.arg.stands.of_same hrest⟩
  rw [hp]
  exact Eq.trans hroot h.stands.1

/-- The right side of an application is worked on and keeps its root. -/
theorem inArg (h : (app k f a).Lies m) (ha : Built a.objects m m₁ a')
    (hp : a'.pointer = a.pointer) : Built (app k f a).objects m m₁ (app k f a') := by
  obtain ⟨hroot, ha', hrest, hbuilt⟩ :=
    h.replace (.cons _ List.perm_append_comm) ha (.refl _ m₁)
  refine hbuilt _ (.cons _ List.perm_append_comm) ⟨?_, h.fn.stands.of_same hrest, ha'⟩
  rw [hp]
  exact Eq.trans hroot h.stands.1

/-- The body of a function is worked on and keeps its root. -/
theorem inBody (h : (lam b x t).Lies m) (ht : Built t.objects m m₁ t')
    (hp : t'.pointer = t.pointer) : Built (lam b x t).objects m m₁ (lam b x t') := by
  obtain ⟨hroot, ht', -, hbuilt⟩ := h.replace (.of_eq (objects_lam b x t)) ht (.refl _ m₁)
  refine hbuilt _ (.of_eq (objects_lam b x t')) ⟨?_, ht'⟩
  rw [hp]
  exact Eq.trans hroot h.stands.1

end Lies

end Tree

namespace Op

open LambdaScript.Tree

variable {m : Memory} {T : Tree} {b : Binder}

theorem linkWithin_built (hT : T.Lies m) (name : String) {n : Nat} (hn : T.height ≤ n) :
    ∃ s, linkWithin b name n T.pointer m = .ok () (m.grown s m.reading.next) ∧
      Built T.objects m (m.grown s m.reading.next) (T.link b name) := by
  induction T, n, hn using inductionWithin generalizing m with
  | missing n => exact ⟨m.store, rfl, .refl hT⟩
  | foreign n => exact ⟨m.store, rfl, .refl hT⟩
  | app n k f a _ _ _ ihf iha =>
    obtain ⟨s₁, hf, hbuiltf⟩ := ihf hT.fn
    have hleft := hT.inFn hbuiltf (pointer_link b name f)
    obtain ⟨s₂, ha, hbuilta⟩ := iha hleft.lies.arg
    refine ⟨s₂, ?_, hleft.trans (hleft.lies.inArg hbuilta (pointer_link b name a))⟩
    refine (bind_node hT.stands.1 _).trans ?_
    exact (Outcome.bind_of_ok hf).trans ha
  | lam n c x t _ _ ih =>
    obtain ⟨s, ht, hbuilt⟩ := ih hT.body
    exact ⟨s, (bind_function hT.stands.1 _).trans ht, hT.inBody hbuilt (pointer_link b name t)⟩
  | ref n k x l =>
    cases l with
    | free =>
      by_cases hx : x = name
      · rw [show (ref k x .free).link b name = ref k x (.binder b) from if_pos hx]
        refine ⟨_, ?_, m.touches_setNode k (.ref x (.binder b)),
          ⟨Store.node_setNode_self _ _, hT.nodup, hT.has⟩, fun _ h => .inl h⟩
        exact (bind_node hT.stands _).trans (congrFun (if_pos hx) m)
      · rw [show (ref k x .free).link b name = ref k x .free from if_neg hx]
        refine ⟨m.store, ?_, .refl hT⟩
        exact (bind_node hT.stands _).trans (congrFun (if_neg hx) m)
    | _ => exact ⟨m.store, bind_node hT.stands _, .refl hT⟩

/-- Linking a function writes into the references of its body. -/
theorem link_built {x : String} {t : Tree} (hT : (lam b x t).Lies m) :
    ∃ s, Op.link b m = .ok () (m.grown s m.reading.next) ∧
      Built (lam b x t).objects m (m.grown s m.reading.next) (lam b x (t.link b x)) := by
  obtain ⟨s, hlink, hbuilt⟩ := linkWithin_built (b := b) hT.body x hT.body.height_le
  exact ⟨s, (bind_function hT.stands.1 _).trans hlink, hT.inBody hbuilt (pointer_link b x t)⟩

end Op

end LambdaScript
