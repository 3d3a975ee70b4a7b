/-
LambdaScript/Proofs/Trees.lean

Expressions in a store, object by object.

A `Tree` is a term together with the keys of its applications and references.  It
`Stands` in a store when each of its objects has the fields that the tree says.  Then
its root is `Tree.pointer`, the objects it is made of are `Tree.objects`, and what is
read from the root is `Tree.term` (`Tree.Lies.read_eq`).

Writing is described by what it may change.  `Touches os m m'` says that from `m` to `m'`
only the objects of the list `os` and new ones have been written.  A tree none of whose
objects is in the list still stands, and that is all that is ever used to see that an
expression has not been changed.
-/
import Mathlib.Data.List.Nodup
import Mathlib.Data.List.Perm.Subperm
import LambdaScript.Objects.Running
import LambdaScript.Proofs.Outcomes

namespace LambdaScript

/-! ### Trees of objects -/

/-- A term with the keys of its applications and references. -/
inductive Tree
  | missing
  | foreign
  | app (key : Nat) (fn arg : Tree)
  | lam (b : Binder) (name : String) (body : Tree)
  | ref (key : Nat) (name : String) (link : Link)

/-- The object has the same fields in both stores. -/
def Store.SameAt (s s' : Store) : Pointer → Prop
  | .function b => s'.function b = s.function b
  | .node k => s'.node k = s.node k
  | _ => True

namespace Store.SameAt

variable {s s₁ s' : Store} {o : Pointer}

theorem refl (s : Store) (o : Pointer) : s.SameAt s o := by
  cases o <;> trivial

theorem trans (h : s.SameAt s₁ o) (h' : s₁.SameAt s' o) : s.SameAt s' o := by
  cases o with
  | missing => trivial
  | foreign => trivial
  | function b => exact Eq.trans h' h
  | node k => exact Eq.trans h' h

end Store.SameAt

namespace Tree

/-- The root of a tree. -/
def pointer : Tree → Pointer
  | missing => .missing
  | foreign => .foreign
  | app k _ _ => .node k
  | lam b _ _ => .function b
  | ref k _ _ => .node k

/-- The term that a tree is made of. -/
def term : Tree → Term
  | missing => .missing
  | foreign => .foreign
  | app _ f a => .app f.term a.term
  | lam b x t => .lam b x t.term
  | ref _ x l => .ref x l

/-- The objects of a tree, an object before its parts. -/
def objects : Tree → List Pointer
  | app k f a => .node k :: (f.objects ++ a.objects)
  | lam b _ t => .function b :: t.objects
  | ref k _ _ => [.node k]
  | _ => []

/-- The number of objects on the longest way through a tree, and one more. -/
def height : Tree → Nat
  | app _ f a => max f.height a.height + 1
  | lam _ _ t => t.height + 1
  | _ => 1

/-- Every object of the tree has the fields that the tree says. -/
def Stands (s : Store) : Tree → Prop
  | app k f a => s.node k = .app f.pointer a.pointer ∧ f.Stands s ∧ a.Stands s
  | lam b x t => s.function b = ⟨x, t.pointer⟩ ∧ t.Stands s
  | ref k x l => s.node k = .ref x l
  | _ => True

theorem objects_fn_subset (k : Nat) (f a : Tree) : f.objects ⊆ (app k f a).objects := fun _ ho =>
  List.mem_cons_of_mem _ (List.mem_append_left _ ho)

theorem objects_arg_subset (k : Nat) (f a : Tree) : a.objects ⊆ (app k f a).objects := fun _ ho =>
  List.mem_cons_of_mem _ (List.mem_append_right _ ho)

theorem objects_body_subset (b : Binder) (x : String) (t : Tree) :
    t.objects ⊆ (lam b x t).objects := List.subset_cons_self _ _

variable {s s' : Store} {T : Tree}

/-- A tree whose objects have not been written still stands. -/
theorem Stands.of_same (h : T.Stands s) (hs : ∀ o ∈ T.objects, s.SameAt s' o) :
    T.Stands s' := by
  induction T with
  | missing => trivial
  | foreign => trivial
  | app k f a ihf iha =>
    obtain ⟨hk, hf, ha⟩ := h
    have hnode : s'.node k = s.node k := hs (.node k) List.mem_cons_self
    exact ⟨hnode.trans hk, ihf hf fun o ho => hs o (objects_fn_subset k f a ho),
      iha ha fun o ho => hs o (objects_arg_subset k f a ho)⟩
  | lam b x t ih =>
    have hfunction : s'.function b = s.function b := hs (.function b) List.mem_cons_self
    exact ⟨hfunction.trans h.1, ih h.2 fun o ho => hs o (objects_body_subset b x t ho)⟩
  | ref k x l =>
    have hnode : s'.node k = s.node k := hs (.node k) List.mem_cons_self
    exact hnode.trans h

/-- The store tells which tree stands behind a pointer. -/
theorem Stands.unique {T' : Tree} (h : T.Stands s) (h' : T'.Stands s)
    (hp : T.pointer = T'.pointer) : T = T' := by
  induction T generalizing T' with
  | missing => cases T' <;> first | rfl | cases hp
  | foreign => cases T' <;> first | rfl | cases hp
  | app k f a ihf iha =>
    cases T' with
    | missing => cases hp
    | foreign => cases hp
    | lam b x t => cases hp
    | app k' f' a' =>
      cases hp
      obtain ⟨hf, ha⟩ := Node.app.inj (h.1.symm.trans h'.1)
      rw [ihf h.2.1 h'.2.1 hf, iha h.2.2 h'.2.2 ha]
    | ref k' x l =>
      cases hp
      cases h.1.symm.trans h'
  | lam b x t ih =>
    cases T' with
    | missing => cases hp
    | foreign => cases hp
    | app k f a => cases hp
    | ref k x l => cases hp
    | lam b' x' t' =>
      cases hp
      obtain ⟨rfl, ht⟩ := FunctionNode.mk.inj (h.1.symm.trans h'.1)
      rw [ih h.2 h'.2 ht]
  | ref k x l =>
    cases T' with
    | missing => cases hp
    | foreign => cases hp
    | lam b x t => cases hp
    | app k' f a =>
      cases hp
      cases h.symm.trans h'.1
    | ref k' x' l' =>
      cases hp
      obtain ⟨rfl, rfl⟩ := Node.ref.inj (h.symm.trans h')
      rfl

/-- Induction on a tree, with a bound on its height that goes down with it. -/
@[elab_as_elim]
theorem inductionWithin {motive : (T : Tree) → (n : Nat) → T.height ≤ n → Prop}
    (missing : ∀ n hn, motive missing (n + 1) hn)
    (foreign : ∀ n hn, motive foreign (n + 1) hn)
    (app : ∀ n k f a hf ha hn, motive f n hf → motive a n ha → motive (app k f a) (n + 1) hn)
    (lam : ∀ n b x t ht hn, motive t n ht → motive (lam b x t) (n + 1) hn)
    (ref : ∀ n k x l hn, motive (ref k x l) (n + 1) hn) (T : Tree) (n : Nat)
    (hn : T.height ≤ n) : motive T n hn := by
  induction T generalizing n with
  | missing =>
    cases n with
    | zero => cases hn
    | succ n => exact missing n hn
  | foreign =>
    cases n with
    | zero => cases hn
    | succ n => exact foreign n hn
  | app k f a ihf iha =>
    cases n with
    | zero => cases hn
    | succ n =>
      have hle : max f.height a.height ≤ n := Nat.le_of_succ_le_succ hn
      exact app n k f a _ _ hn (ihf n (Nat.le_trans (Nat.le_max_left _ _) hle))
        (iha n (Nat.le_trans (Nat.le_max_right _ _) hle))
  | lam b x t ih =>
    cases n with
    | zero => cases hn
    | succ n => exact lam n b x t _ hn (ih n (Nat.le_of_succ_le_succ hn))
  | ref k x l =>
    cases n with
    | zero => cases hn
    | succ n => exact ref n k x l hn

/-- Reading gives the term of the tree that stands behind a pointer. -/
theorem Stands.readWithin_eq (h : T.Stands s) {n : Nat} (hn : T.height ≤ n) :
    s.readWithin n T.pointer = T.term := by
  induction T, n, hn using inductionWithin with
  | missing n => rfl
  | foreign n => rfl
  | app n k f a _ _ _ ihf iha =>
    show s.readWithin (n + 1) (.node k) = .app f.term a.term
    simp only [Store.readWithin, h.1, ihf h.2.1, iha h.2.2]
  | lam n b x t _ _ ih =>
    show s.readWithin (n + 1) (.function b) = .lam b x t.term
    simp only [Store.readWithin, h.1, ih h.2]
  | ref n k x l =>
    have hnode : s.node k = .ref x l := h
    show s.readWithin (n + 1) (.node k) = .ref x l
    simp only [Store.readWithin, hnode]

theorem height_le (T : Tree) : T.height ≤ T.objects.length + 1 := by
  induction T with
  | missing => exact Nat.le_refl 1
  | foreign => exact Nat.le_refl 1
  | app k f a ihf iha =>
    simp only [height, objects, List.length_cons, List.length_append]
    omega
  | lam b x t ih => exact Nat.succ_le_succ ih
  | ref k x l => exact Nat.le_succ 1

theorem visit_pointer (T : Tree) : T.pointer.visit = T.term.visit := by
  cases T <;> rfl

end Tree

/-! ### Objects of a memory -/

namespace Memory

/-- The object has been made. -/
def Has (m : Memory) : Pointer → Prop
  | .function b => b.key < m.reading.next
  | .node k => k < m.store.next
  | _ => False

/-- A number for each object. -/
def serial (m : Memory) : Pointer → Nat
  | .function b => 2 * b.key + (if b.recursive then 1 else 0)
  | .node k => 2 * m.reading.next + k
  | _ => 0

theorem serial_lt {m : Memory} {o : Pointer} (h : m.Has o) : m.serial o + 1 < m.bound := by
  cases o with
  | missing => exact h.elim
  | foreign => exact h.elim
  | function b =>
    have hkey : b.key < m.reading.next := h
    simp only [serial, bound]
    split <;> omega
  | node k =>
    have hkey : k < m.store.next := h
    simp only [serial, bound]
    omega

theorem serial_inj {m : Memory} {o o' : Pointer} (h : m.Has o) (h' : m.Has o')
    (heq : m.serial o = m.serial o') : o = o' := by
  cases o with
  | missing => exact h.elim
  | foreign => exact h.elim
  | function b =>
    have hkey : b.key < m.reading.next := h
    cases o' with
    | missing => exact h'.elim
    | foreign => exact h'.elim
    | function c =>
      obtain ⟨i, r⟩ := b
      obtain ⟨j, r'⟩ := c
      simp only [serial] at heq
      cases r <;> cases r' <;> simp at heq ⊢ <;> omega
    | node k =>
      simp only [serial] at heq
      split at heq <;> omega
  | node k =>
    cases o' with
    | missing => exact h'.elim
    | foreign => exact h'.elim
    | function c =>
      have hkey : c.key < m.reading.next := h'
      simp only [serial] at heq
      split at heq <;> omega
    | node j =>
      simp only [serial] at heq
      rw [show k = j by omega]

/-- There are no more objects than the bound says. -/
theorem length_lt_bound {m : Memory} {os : List Pointer} (hnodup : os.Nodup)
    (hos : ∀ o ∈ os, m.Has o) : os.length < m.bound := by
  have hserials : (os.map m.serial).Nodup :=
    hnodup.map_on fun o ho o' ho' heq => serial_inj (hos o ho) (hos o' ho') heq
  have hsub : os.map m.serial ⊆ List.range (m.bound - 1) := by
    intro i hi
    obtain ⟨o, ho, rfl⟩ := List.mem_map.mp hi
    exact List.mem_range.mpr (Nat.lt_sub_of_add_lt (serial_lt (hos o ho)))
  have hle := (hserials.subperm hsub).length_le
  rw [List.length_map, List.length_range] at hle
  have hpos : 0 < m.bound := Nat.succ_pos _
  omega

end Memory

/-- The tree lies in a memory: it stands there, and no object occurs twice in it. -/
structure Tree.Lies (m : Memory) (T : Tree) : Prop where
  stands : T.Stands m.store
  nodup : T.objects.Nodup
  has : ∀ o ∈ T.objects, m.Has o

namespace Tree

variable {m : Memory} {T f a t : Tree} {k : Nat} {b : Binder} {x : String}

/-- Every tree is lower than the bound. -/
theorem Lies.height_le (h : T.Lies m) : T.height ≤ m.bound :=
  Nat.le_trans T.height_le (Memory.length_lt_bound h.nodup h.has)

/-- What is read from the root of a tree is its term. -/
theorem Lies.read_eq (h : T.Lies m) : m.read T.pointer = T.term :=
  h.stands.readWithin_eq h.height_le

theorem Lies.fn (h : (app k f a).Lies m) : f.Lies m where
  stands := h.stands.2.1
  nodup := (List.nodup_append.mp h.nodup.of_cons).1
  has o ho := h.has o (objects_fn_subset k f a ho)

theorem Lies.arg (h : (app k f a).Lies m) : a.Lies m where
  stands := h.stands.2.2
  nodup := (List.nodup_append.mp h.nodup.of_cons).2.1
  has o ho := h.has o (objects_arg_subset k f a ho)

theorem Lies.body (h : (lam b x t).Lies m) : t.Lies m where
  stands := h.stands.2
  nodup := h.nodup.of_cons
  has o ho := h.has o (objects_body_subset b x t ho)

end Tree

/-! ### What may have been written -/

/-- From `m` to `m'` only the objects of `os` and new ones have been written. -/
structure Touches (os : List Pointer) (m m' : Memory) : Prop where
  next_le : m.store.next ≤ m'.store.next
  keys_le : m.reading.next ≤ m'.reading.next
  same : ∀ o, m.Has o → o ∉ os → m.store.SameAt m'.store o

namespace Touches

variable {os os' : List Pointer} {m m₁ m' : Memory} {T : Tree}

theorem refl (os : List Pointer) (m : Memory) : Touches os m m :=
  ⟨Nat.le_refl _, Nat.le_refl _, fun o _ _ => .refl m.store o⟩

/-- Nothing has been written when the store and the supply are the same. -/
theorem of_store (os : List Pointer) (hstore : m'.store = m.store)
    (hnext : m'.reading.next = m.reading.next) : Touches os m m' :=
  ⟨Nat.le_of_eq (hstore ▸ rfl), Nat.le_of_eq hnext.symm, fun o _ _ => hstore ▸ .refl m.store o⟩

theorem has (h : Touches os m m') {o : Pointer} (ho : m.Has o) : m'.Has o := by
  cases o with
  | missing => exact ho.elim
  | foreign => exact ho.elim
  | function b => exact Nat.lt_of_lt_of_le ho h.keys_le
  | node k => exact Nat.lt_of_lt_of_le ho h.next_le

theorem trans (h : Touches os m m₁) (h' : Touches os' m₁ m')
    (hos : ∀ o ∈ os', o ∈ os ∨ ¬ m.Has o) : Touches os m m' where
  next_le := Nat.le_trans h.next_le h'.next_le
  keys_le := Nat.le_trans h.keys_le h'.keys_le
  same o ho hmem := by
    have h₁ : m.store.SameAt m₁.store o := h.same o ho hmem
    exact h₁.trans (h'.same o (h.has ho) fun ho' => (hos o ho').elim hmem fun hnew => hnew ho)

theorem mono (h : Touches os m m') (hos : os ⊆ os') : Touches os' m m' where
  next_le := h.next_le
  keys_le := h.keys_le
  same o ho hmem := h.same o ho fun ho' => hmem (hos ho')

/-- A tree apart from what may have been written is still there. -/
theorem stands (h : Touches os m m') (hT : T.Stands m.store) (hhas : ∀ o ∈ T.objects, m.Has o)
    (hos : ∀ o ∈ T.objects, o ∉ os) : T.Stands m'.store :=
  hT.of_same fun o ho => h.same o (hhas o ho) (hos o ho)

theorem lies (h : Touches os m m') (hT : T.Lies m) (hos : ∀ o ∈ T.objects, o ∉ os) :
    T.Lies m' where
  stands := h.stands hT.stands hT.has hos
  nodup := hT.nodup
  has o ho := h.has (hT.has o ho)

/-- Where only new objects have been written, every tree is still there. -/
theorem lies_of_nil (h : Touches [] m m') (hT : T.Lies m) : T.Lies m' :=
  h.lies hT fun _ _ => List.not_mem_nil

end Touches

/-- From `m` to `m'` the tree has been made, out of the objects of `os` and new ones, and
nothing else has been written. -/
structure Built (os : List Pointer) (m m' : Memory) (T : Tree) : Prop where
  touches : Touches os m m'
  lies : T.Lies m'
  origin : ∀ o ∈ T.objects, o ∈ os ∨ ¬ m.Has o

namespace Built

variable {os os' : List Pointer} {m m₁ m' : Memory} {T T' : Tree}

theorem refl (hT : T.Lies m) : Built T.objects m m T where
  touches := .refl _ m
  lies := hT
  origin _ ho := .inl ho

/-- A tree stays where it is when nothing is written. -/
theorem of_store (hT : T.Lies m) (hstore : m'.store = m.store)
    (hnext : m'.reading.next = m.reading.next) : Built T.objects m m' T where
  touches := .of_store _ hstore hnext
  lies := (Touches.of_store [] hstore hnext).lies_of_nil hT
  origin _ ho := .inl ho

theorem mono (h : Built os m m' T) (hos : os ⊆ os') : Built os' m m' T where
  touches := h.touches.mono hos
  lies := h.lies
  origin o ho := (h.origin o ho).imp_left fun ho' => hos ho'

/-- What has been done before may be counted in. -/
theorem after (h : Built os' m₁ m' T) (ht : Touches os m m₁)
    (hos : ∀ o ∈ os', o ∈ os ∨ ¬ m.Has o) : Built os m m' T where
  touches := ht.trans h.touches hos
  lies := h.lies
  origin o ho := by
    rcases h.origin o ho with ho' | hnew
    · exact hos o ho'
    · exact .inr fun hhas => hnew (ht.has hhas)

theorem trans (h : Built os m m₁ T) (h' : Built T.objects m₁ m' T') : Built os m m' T' :=
  h'.after h.touches h.origin

/-- A tree apart from what may have been written has nothing in common with what has been
made. -/
theorem apart (h : Built os m m' T) {o : Pointer} (ho : m.Has o) (hos : o ∉ os) :
    o ∉ T.objects :=
  fun hmem => (h.origin o hmem).elim hos fun hnew => hnew ho

end Built

end LambdaScript
