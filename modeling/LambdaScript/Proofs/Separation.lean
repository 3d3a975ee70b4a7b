/-
LambdaScript/Proofs/Separation.lean

Definitions that have no object in common.

The definitions of a memory are separate when they are a `Forest`: a tree for each name,
and no object twice in a tree or in two of them.  `Memory.Keeps m d` says so, and that the
terms of the trees are those of the table `d`.

While an expression is reduced it may lie inside a definition, and then the definitions
are trees only together with it.  `Surrounds` says what they lack: whatever tree of other
objects stands behind the pointer, the definitions are separate with this tree in its
place.  `Working` puts the two together.  It holds of each side of an application and of
the body of a function, at the place inside (`Working.fn`, `Working.arg`, `Working.body`),
of a new tree that is part of no definition (`Working.leave`), and after anything has been
written into the tree as long as its root stays (`Working.rewrite`).
-/
import Mathlib.Data.List.Flatten
import LambdaScript.Place
import LambdaScript.Proofs.Trees

namespace LambdaScript

/-! ### Separate definitions -/

/-- A tree for each name. -/
abbrev Forest := List (String × Tree)

namespace Forest

/-- The pointers to the trees. -/
def roots (F : Forest) : List Root := F.map fun e => ⟨e.1, e.2.pointer⟩

/-- The terms of the trees. -/
def table (F : Forest) : Table := ⟨F.map fun e => ⟨e.1, e.2.term⟩⟩

/-- The objects of all trees. -/
def objects (F : Forest) : List Pointer := F.flatMap fun e => e.2.objects

/-- The trees stand in a store behind the given pointers, and no object occurs twice. -/
structure Stands (roots : List Root) (s : Store) (F : Forest) : Prop where
  roots_eq : F.roots = roots
  trees : ∀ e ∈ F, e.2.Stands s
  nodup : F.objects.Nodup

variable {roots : List Root} {s s' : Store} {F : Forest}

theorem mem_objects {e : String × Tree} (he : e ∈ F) {o : Pointer} (ho : o ∈ e.2.objects) :
    o ∈ F.objects :=
  List.mem_flatMap.mpr ⟨e, he, ho⟩

theorem Stands.of_same (h : F.Stands roots s) (hs : ∀ o ∈ F.objects, s.SameAt s' o) :
    F.Stands roots s' where
  roots_eq := h.roots_eq
  trees e he := (h.trees e he).of_same fun o ho => hs o (mem_objects he ho)
  nodup := h.nodup

/-- The tree of a name. -/
def find? (F : Forest) (name : String) : Option Tree :=
  (List.find? (fun e => e.1 = name) F).map (·.2)

theorem find?_roots (F : Forest) (name : String) :
    (F.roots.find? (·.name = name)).map (·.body) = (F.find? name).map Tree.pointer := by
  simp only [roots, find?, List.find?_map, Option.map_map]
  rfl

theorem find?_table (F : Forest) (name : String) :
    (F.table.find? name).map (·.body) = (F.find? name).map Tree.term := by
  simp only [table, Table.find?, find?, List.find?_map, Option.map_map]
  rfl

theorem find?_of_nodup (h : (F.map (·.1)).Nodup) {e : String × Tree} (he : e ∈ F) :
    F.find? e.1 = some e.2 := by
  refine Option.map_eq_some_iff.mpr ⟨e, ?_, rfl⟩
  induction F with
  | nil => cases he
  | cons e' rest ih =>
    rw [List.map_cons, List.nodup_cons] at h
    rcases List.mem_cons.mp he with rfl | hrest
    · exact List.find?_cons_of_pos (by simp)
    · have hne : e'.1 ≠ e.1 := fun heq => h.1 (heq ▸ List.mem_map_of_mem hrest)
      rw [List.find?_cons_of_neg (by simpa using hne)]
      exact ih h.2 hrest

theorem mem_of_find? {name : String} {T : Tree} (h : F.find? name = some T) :
    ∃ e ∈ F, e.2 = T := by
  obtain ⟨e, he, rfl⟩ := Option.map_eq_some_iff.mp h
  exact ⟨e, List.mem_of_find?_eq_some he, rfl⟩

end Forest

/-- The trees are the definitions of a memory, and no object occurs twice in them. -/
structure Forest.Lies (m : Memory) (F : Forest) : Prop where
  stands : F.Stands m.roots m.store
  has : ∀ o ∈ F.objects, m.Has o

namespace Forest

variable {m m' : Memory} {F : Forest}

theorem Lies.tree (h : F.Lies m) {e : String × Tree} (he : e ∈ F) : e.2.Lies m where
  stands := h.stands.trees e he
  nodup := (List.nodup_flatMap.mp h.stands.nodup).1 e he
  has o ho := h.has o (mem_objects he ho)

theorem Lies.lookUp_eq (h : F.Lies m) (name : String) :
    m.lookUp name = (F.find? name).map Tree.pointer := by
  rw [Memory.lookUp, ← h.stands.roots_eq, F.find?_roots]

/-- Reading the definitions gives the terms of the trees. -/
theorem Lies.definitions_eq (h : F.Lies m) : m.definitions = F.table := by
  simp only [Memory.definitions, table, ← h.stands.roots_eq, roots, List.map_map]
  refine congrArg Table.mk (List.map_congr_left fun e he => ?_)
  exact congrArg (Definition.mk e.1) (h.tree he).read_eq

/-- Definitions apart from what may have been written are still there. -/
theorem Lies.touched {os : List Pointer} (h : F.Lies m) (ht : Touches os m m')
    (hos : ∀ o ∈ F.objects, o ∉ os) (hroots : m'.roots = m.roots) : F.Lies m' where
  stands := hroots ▸ h.stands.of_same fun o ho => ht.same o (h.has o ho) (hos o ho)
  has o ho := ht.has (h.has o ho)

/-- Where only new objects have been written, the definitions are still there. -/
theorem Lies.kept (h : F.Lies m) (ht : Touches [] m m') (hroots : m'.roots = m.roots) :
    F.Lies m' :=
  h.touched ht (fun _ _ => List.not_mem_nil) hroots

end Forest

/-- The definitions are separate, and their terms are those of the table. -/
def Memory.Keeps (m : Memory) (d : Table) : Prop :=
  ∃ F : Forest, F.Lies m ∧ F.table = d

namespace Memory.Keeps

variable {m : Memory} {d : Table}

/-- Reading the definitions gives their terms. -/
theorem definitions_eq (h : m.Keeps d) : m.definitions = d := by
  obtain ⟨F, hF, rfl⟩ := h
  exact hF.definitions_eq

/-- A name is looked up where its tree stands. -/
theorem lookUp (h : m.Keeps d) (name : String) :
    m.lookUp name = none ∧ (d.find? name).map (·.body) = none ∨
      ∃ T : Tree, T.Lies m ∧ m.lookUp name = some T.pointer ∧
        (d.find? name).map (·.body) = some T.term := by
  obtain ⟨F, hF, rfl⟩ := h
  rw [hF.lookUp_eq, F.find?_table]
  cases hfind : F.find? name with
  | none => exact .inl ⟨rfl, rfl⟩
  | some T =>
    obtain ⟨e, he, rfl⟩ := Forest.mem_of_find? hfind
    exact .inr ⟨e.2, hF.tree he, rfl, rfl⟩

end Memory.Keeps

/-! ### An expression at its place -/

/-- With any tree behind `p` that stands apart from the objects of `os`, the definitions are
separate, and they are those of the place. -/
def Surrounds (roots : List Root) (s : Store) (place : Place) (p : Pointer)
    (os : List Pointer) : Prop :=
  ∀ (s' : Store) (T : Tree), (∀ o ∈ os, s.SameAt s' o) → T.Stands s' → T.pointer = p →
    (T.objects ++ os).Nodup →
    ∃ F : Forest, F.Stands roots s' ∧ F.table = place.definitions T.term ∧
      F.objects ⊆ T.objects ++ os

/-- The tree stands at a place, with the objects of `os` around it. -/
structure Working (m : Memory) (place : Place) (T : Tree) (os : List Pointer) : Prop where
  stands : T.Stands m.store
  around : Surrounds m.roots m.store place T.pointer os
  nodup : (T.objects ++ os).Nodup
  has : ∀ o ∈ T.objects ++ os, m.Has o

namespace Working

variable {m m' : Memory} {place : Place} {T T' f a t : Tree} {os : List Pointer} {k : Nat}
  {b : Binder} {x : String}

theorem lies (h : Working m place T os) : T.Lies m where
  stands := h.stands
  nodup := (List.nodup_append.mp h.nodup).1
  has o ho := h.has o (List.mem_append_left _ ho)

/-- The definitions are separate. -/
theorem keeps (h : Working m place T os) : m.Keeps (place.definitions T.term) := by
  obtain ⟨F, hF, htable, hsub⟩ := h.around m.store T
    (fun o _ => .refl m.store o) h.stands rfl h.nodup
  exact ⟨F, ⟨hF, fun o ho => h.has o (hsub ho)⟩, htable⟩

/-- Only the objects and the roots matter. -/
theorem congr (h : Working m place T os) (hstore : m'.store = m.store)
    (hroots : m'.roots = m.roots) (hnext : m'.reading.next = m.reading.next) :
    Working m' place T os := by
  refine ⟨hstore ▸ h.stands, hroots ▸ hstore ▸ h.around, h.nodup, fun o ho => ?_⟩
  exact (Touches.of_store [] hstore hnext).has (h.has o ho)

/-- A part of the tree stands at the place inside, surrounded by the rest as well. -/
theorem part {part : Tree} {g : Tree → Tree} {frame : Frame} {rest : List Pointer}
    (h : Working m place (g part) os) (hpart : part.Stands m.store)
    (hobjects : ∀ P, (g P).objects.Perm (P.objects ++ rest))
    (hterm : ∀ P, (g P).term = frame.plug P.term)
    (hpointer : ∀ P, (g P).pointer = (g part).pointer)
    (hstands : ∀ s' P, (∀ o ∈ rest, m.store.SameAt s' o) → P.Stands s' →
      P.pointer = part.pointer → (g P).Stands s') :
    Working m (place.down frame) part (rest ++ os) := by
  -- what is left of the tree joins what was around it
  have hperm : ∀ P, (P.objects ++ (rest ++ os)).Perm ((g P).objects ++ os) := by
    intro P
    rw [← List.append_assoc]
    exact ((hobjects P).append_right os).symm
  refine ⟨hpart, ?_, ?_, ?_⟩
  · intro s' P hsame hP hp hnodup
    obtain ⟨F, hF, htable, hsub⟩ := h.around s' (g P)
      (fun o ho => hsame o (List.mem_append_right _ ho))
      (hstands s' P (fun o ho => hsame o (List.mem_append_left _ ho)) hP hp)
      (hpointer P) ((hperm P).nodup_iff.mp hnodup)
    refine ⟨F, hF, ?_, fun o ho => (hperm P).mem_iff.mpr (hsub ho)⟩
    rw [htable, hterm, Place.definitions_down]
  · exact (hperm part).nodup_iff.mpr h.nodup
  · exact fun o ho => h.has o ((hperm part).mem_iff.mp ho)

/-- The left side of an application stands at the place inside. -/
theorem fn (h : Working m place (.app k f a) os) :
    Working m (place.down (.function a.term)) f ((.node k :: a.objects) ++ os) := by
  refine h.part (g := fun P => .app k P a) h.stands.2.1
    (fun P => List.perm_middle.symm) (fun _ => rfl) (fun _ => rfl) ?_
  intro s' P hsame hP hp
  refine ⟨?_, hP, h.stands.2.2.of_same fun o ho => hsame o (List.mem_cons_of_mem _ ho)⟩
  have hnode : s'.node k = m.store.node k := hsame (.node k) List.mem_cons_self
  rw [hnode, h.stands.1, hp]

/-- The right side of an application stands at the place inside. -/
theorem arg (h : Working m place (.app k f a) os) :
    Working m (place.down (.argument f.term)) a ((.node k :: f.objects) ++ os) := by
  refine h.part (g := fun P => .app k f P) h.stands.2.2
    (fun P => (List.perm_append_comm.cons _).trans List.perm_middle.symm)
    (fun _ => rfl) (fun _ => rfl) ?_
  intro s' P hsame hP hp
  refine ⟨?_, h.stands.2.1.of_same fun o ho => hsame o (List.mem_cons_of_mem _ ho), hP⟩
  have hnode : s'.node k = m.store.node k := hsame (.node k) List.mem_cons_self
  rw [hnode, h.stands.1, hp]

/-- The body of a function stands at the place inside. -/
theorem body (h : Working m place (.lam b x t) os) :
    Working m (place.down (.body b x)) t ([.function b] ++ os) := by
  refine h.part (g := fun P => .lam b x P) h.stands.2
    (fun P => (List.perm_append_singleton _ _).symm) (fun _ => rfl) (fun _ => rfl) ?_
  intro s' P hsame hP hp
  have hfunction : s'.function b = m.store.function b :=
    hsame (.function b) (List.mem_singleton_self _)
  exact ⟨by rw [hfunction, h.stands.1, hp], hP⟩

/-- What is around an expression stays there when the expression is written into. -/
theorem rewrite (h : Working m place T os) (hT : Built T.objects m m' T')
    (hp : T'.pointer = T.pointer) (hroots : m'.roots = m.roots) : Working m' place T' os := by
  obtain ⟨hnodup, hos, hapart⟩ := List.nodup_append.mp h.nodup
  have hhas : ∀ o ∈ os, m.Has o := fun o ho => h.has o (List.mem_append_right _ ho)
  have hnot : ∀ o ∈ os, o ∉ T.objects := fun o ho ho' => hapart o ho' o ho rfl
  refine ⟨hT.lies.stands, ?_, ?_, ?_⟩
  · rw [hroots, hp]
    intro s' P hsame
    exact h.around s' P fun o ho =>
      (hT.touches.same o (hhas o ho) (hnot o ho)).trans (hsame o ho)
  · refine List.nodup_append.mpr ⟨hT.lies.nodup, hos, ?_⟩
    rintro o ho _ ho' rfl
    exact hT.apart (hhas o ho') (hnot o ho') ho
  · intro o ho
    rcases List.mem_append.mp ho with ho | ho
    · exact hT.lies.has o ho
    · exact hT.touches.has (hhas o ho)

/-- A new tree is part of no definition; the one it has been made for stays where it is. -/
theorem leave (h : Working m place T os) (hT : Built [] m m' T') (hroots : m'.roots = m.roots) :
    Working m' (place.leave T.term) T' (T.objects ++ os) := by
  refine ⟨hT.lies.stands, ?_, ?_, ?_⟩
  · rw [hroots]
    intro s' P hsame hP hp hnodup
    -- the old tree counts as surroundings now: it is not written any more
    have hsame' : ∀ o ∈ T.objects ++ os, m.store.SameAt s' o := fun o ho =>
      (hT.touches.same o (h.has o ho) List.not_mem_nil).trans (hsame o ho)
    obtain ⟨F, hF, htable, hsub⟩ := h.around s' T
      (fun o ho => hsame' o (List.mem_append_right _ ho))
      (h.stands.of_same fun o ho => hsame' o (List.mem_append_left _ ho)) rfl h.nodup
    exact ⟨F, hF, htable, fun o ho => List.mem_append_right _ (hsub ho)⟩
  · refine List.nodup_append.mpr ⟨hT.lies.nodup, h.nodup, ?_⟩
    rintro o ho _ ho' rfl
    exact hT.apart (h.has o ho') List.not_mem_nil ho
  · intro o ho
    rcases List.mem_append.mp ho with ho | ho
    · exact hT.lies.has o ho
    · exact hT.touches.has (h.has o ho)

end Working

/-! ### Binding a name -/

namespace Forest

/-- The forest with another tree for a name. -/
def bind (a : String) (T : Tree) : Forest → Forest
  | [] => [(a, T)]
  | e :: rest => if e.1 = a then (a, T) :: rest else e :: bind a T rest

/-- The forest without the tree of a name. -/
def others (a : String) (F : Forest) : Forest := F.eraseP fun e => e.1 = a

variable (a : String) (T : Tree) (F : Forest)

theorem roots_bind : (F.bind a T).roots = Root.bindIn a T.pointer F.roots := by
  induction F with
  | nil => rfl
  | cons e rest ih =>
    by_cases h : e.1 = a
    · simp [bind, roots, Root.bindIn, h]
    · simpa [bind, roots, Root.bindIn, h] using ih

theorem table_bind : (F.bind a T).table = F.table.bind a T.term := by
  refine congrArg Table.mk ?_
  induction F with
  | nil => rfl
  | cons e rest ih =>
    by_cases h : e.1 = a
    · simp [bind, table, Table.bindIn, h]
    · simpa [bind, table, Table.bindIn, h] using ih

theorem bind_perm : (F.bind a T).Perm ((a, T) :: F.others a) := by
  induction F with
  | nil => exact .refl _
  | cons e rest ih =>
    by_cases h : e.1 = a
    · simp [bind, others, h]
    · simpa [bind, others, h] using (ih.cons e).trans (.swap _ _ _)

theorem objects_bind : (F.bind a T).objects.Perm (T.objects ++ (F.others a).objects) :=
  (bind_perm a T F).flatMap_right _

theorem objects_others : (F.others a).objects.Sublist F.objects :=
  List.eraseP_sublist.flatMap _

variable {a T F}

/-- The definitions with another tree for a name stand where the other trees do. -/
theorem Stands.bind {roots roots' : List Root} {s s' : Store} (h : F.Stands roots s)
    (hsame : ∀ o ∈ (F.others a).objects, s.SameAt s' o) (hT : T.Stands s')
    (hnodup : (T.objects ++ (F.others a).objects).Nodup)
    (hroots : roots' = Root.bindIn a T.pointer roots) : (F.bind a T).Stands roots' s' where
  roots_eq := by rw [roots_bind, h.roots_eq, hroots]
  trees e he := by
    rcases List.mem_cons.mp ((bind_perm a T F).mem_iff.mp he) with rfl | he
    · exact hT
    · exact (h.trees e (List.mem_of_mem_eraseP he)).of_same fun o ho =>
        hsame o (mem_objects he ho)
  nodup := (objects_bind a T F).nodup_iff.mpr hnodup

theorem roots_eq_cons {x : String} {p : Pointer} {l : List Root} (h : F.roots = ⟨x, p⟩ :: l) :
    ∃ (T : Tree) (rest : Forest), F = (x, T) :: rest ∧ T.pointer = p ∧ rest.roots = l := by
  cases F with
  | nil => cases h
  | cons e rest =>
    obtain ⟨hhead, htail⟩ := List.cons.inj h
    obtain ⟨rfl, hp⟩ := Root.mk.inj hhead
    exact ⟨e.2, rest, rfl, hp, htail⟩

/-- Trees behind the same pointers are the same. -/
theorem eq_of_roots {F' : Forest} {s : Store} (hF : ∀ e ∈ F, e.2.Stands s)
    (hF' : ∀ e ∈ F', e.2.Stands s) (hroots : F'.roots = F.roots) : F' = F := by
  induction F generalizing F' with
  | nil => exact List.map_eq_nil_iff.mp hroots
  | cons e rest ih =>
    obtain ⟨T', rest', rfl, hp, htail⟩ := roots_eq_cons hroots
    have htree : T' = e.2 := (hF' _ List.mem_cons_self).unique (hF e List.mem_cons_self) hp
    have hrest := ih (fun e he => hF e (List.mem_cons_of_mem _ he))
      (fun e he => hF' e (List.mem_cons_of_mem _ he)) htail
    rw [htree, hrest]

/-- Where only the tree of a name may be another one, that tree is bound to the name. -/
theorem eq_bind_of_roots {F' : Forest} {s : Store} {p : Pointer}
    (hF : ∀ e ∈ F.others a, e.2.Stands s) (hF' : ∀ e ∈ F', e.2.Stands s)
    (hroots : F'.roots = Root.bindIn a p F.roots) : ∃ T, F' = F.bind a T := by
  induction F generalizing F' with
  | nil =>
    obtain ⟨T', rest', rfl, -, htail⟩ := roots_eq_cons hroots
    exact ⟨T', congrArg ((a, T') :: ·) (List.map_eq_nil_iff.mp htail)⟩
  | cons e rest ih =>
    by_cases h : e.1 = a
    · have hothers : others a (e :: rest) = rest := List.eraseP_cons_of_pos (by simpa using h)
      rw [hothers] at hF
      obtain ⟨T', rest', rfl, -, htail⟩ := roots_eq_cons (hroots.trans (if_pos h))
      have hrest := eq_of_roots hF (fun e he => hF' e (List.mem_cons_of_mem _ he)) htail
      exact ⟨T', by rw [hrest, bind, if_pos h]⟩
    · have hothers : others a (e :: rest) = e :: others a rest :=
        List.eraseP_cons_of_neg (by simpa using h)
      rw [hothers] at hF
      obtain ⟨T', rest', rfl, hp, htail⟩ := roots_eq_cons (hroots.trans (if_neg h))
      have htree : T' = e.2 := (hF' _ List.mem_cons_self).unique (hF e List.mem_cons_self) hp
      obtain ⟨T, hrest⟩ := ih (fun e he => hF e (List.mem_cons_of_mem _ he))
        (fun e he => hF' e (List.mem_cons_of_mem _ he)) htail
      exact ⟨T, by rw [htree, hrest, bind, if_neg h]⟩

end Forest

namespace Working

variable {m : Memory} {T : Tree} {F : Forest}

/-- An expression that is part of no definition. -/
theorem outside (hF : F.Lies m) (hT : T.Lies m) (hapart : ∀ o ∈ T.objects, o ∉ F.objects) :
    Working m (.outside F.table) T F.objects where
  stands := hT.stands
  around _ _ hsame _ _ _ :=
    ⟨F, hF.stands.of_same hsame, rfl, fun _ ho => List.mem_append_right _ ho⟩
  nodup := List.nodup_append.mpr ⟨hT.nodup, hF.stands.nodup, fun o ho _ ho' h =>
    hapart o ho (h ▸ ho')⟩
  has o ho := (List.mem_append.mp ho).elim (hT.has o) (hF.has o)

/-- An expression that has just been bound to a name. -/
theorem whole {m' : Memory} {a : String} (hF : F.Lies m) (hT : T.Lies m)
    (hapart : ∀ o ∈ T.objects, o ∉ F.objects) (hstore : m'.store = m.store)
    (hnext : m'.reading.next = m.reading.next)
    (hroots : m'.roots = Root.bindIn a T.pointer m.roots) :
    Working m' (.whole (F.table.bind a T.term) a) T (F.others a).objects := by
  have hsub := (F.objects_others a).subset
  have htouches : Touches [] m m' := .of_store [] hstore hnext
  refine ⟨hstore ▸ hT.stands, ?_, List.nodup_append.mpr ⟨hT.nodup, ?_, ?_⟩, ?_⟩
  · rw [hstore, hroots]
    intro s' P hsame hP hp hnodup
    refine ⟨F.bind a P, hF.stands.bind hsame hP hnodup (by rw [hp]), ?_, ?_⟩
    · rw [Forest.table_bind, Place.definitions_whole, Table.bind_bind]
    · exact (F.objects_bind a P).subset
  · exact hF.stands.nodup.sublist (F.objects_others a)
  · rintro o ho _ ho' rfl
    exact hapart o ho (hsub ho')
  · exact fun o ho => htouches.has
      ((List.mem_append.mp ho).elim (hT.has o) fun ho' => hF.has o (hsub ho'))

end Working

end LambdaScript
