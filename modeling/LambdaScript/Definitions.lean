/-
LambdaScript/Definitions.lean

Definitions: names bound to expressions, in the order in which the names were
first bound.  Binding a name again replaces its expression and keeps its place.
-/
import LambdaScript.Term.Comparison

namespace LambdaScript

/-- A name bound to an expression. -/
structure Definition where
  name : String
  body : Term
  deriving DecidableEq

/-- Definitions in the order of their names' first binding. -/
structure Table where
  toList : List Definition
  deriving DecidableEq

namespace Table

/-- No definitions. -/
def empty : Table := ⟨[]⟩

/-- The definition of a name. -/
def find? (d : Table) (name : String) : Option Definition :=
  d.toList.find? (·.name = name)

/-- The names in order. -/
def names (d : Table) : List String :=
  d.toList.map (·.name)

/-- Binds a name in a list of definitions. -/
def bindIn (name : String) (body : Term) : List Definition → List Definition
  | [] => [⟨name, body⟩]
  | e :: rest => if e.name = name then ⟨name, body⟩ :: rest else e :: bindIn name body rest

/-- Binds a name to an expression. -/
def bind (d : Table) (name : String) (body : Term) : Table :=
  ⟨bindIn name body d.toList⟩

/-- The definitions of a list whose bodies are the same as `t` up to the names of
arguments, in order.  The first body that cannot be compared is a fault. -/
def identicalIn (t : Term) : List Definition → Except Fault (List Definition)
  | [] => .ok []
  | e :: rest => do
    let same ← t.identical e.body
    let found ← identicalIn t rest
    return if same then e :: found else found

/-- The definitions whose bodies are the same as `t`. -/
def identicalTo (d : Table) (t : Term) : Except Fault (List Definition) :=
  identicalIn t d.toList

theorem find?_bindIn_self (name : String) (body : Term) (l : List Definition) :
    (bindIn name body l).find? (·.name = name) = some ⟨name, body⟩ := by
  induction l with
  | nil => simp [bindIn]
  | cons e rest ih => by_cases h : e.name = name <;> simp [bindIn, h, ih]

/-- A name just bound is found. -/
@[simp] theorem find?_bind_self (d : Table) (name : String) (body : Term) :
    (d.bind name body).find? name = some ⟨name, body⟩ :=
  find?_bindIn_self name body d.toList

theorem find?_bindIn_of_ne {name other : String} (h : other ≠ name) (body : Term)
    (l : List Definition) :
    (bindIn name body l).find? (·.name = other) = l.find? (·.name = other) := by
  induction l with
  | nil => simp [bindIn, Ne.symm h]
  | cons e rest ih =>
    by_cases he : e.name = name
    · have hn : ¬ e.name = other := fun h' => h (h'.symm.trans he)
      simp [bindIn, he, Ne.symm h]
    · by_cases ho : e.name = other
      · simp [bindIn, ho, h]
      · simp [bindIn, he, ho, ih]

/-- Binding a name leaves every other definition alone. -/
theorem find?_bind_of_ne {name other : String} (h : other ≠ name) (d : Table) (body : Term) :
    (d.bind name body).find? other = d.find? other :=
  find?_bindIn_of_ne h body d.toList

theorem map_name_bindIn (name : String) (body : Term) (l : List Definition) :
    (bindIn name body l).map (·.name)
      = if name ∈ l.map (·.name) then l.map (·.name) else l.map (·.name) ++ [name] := by
  induction l with
  | nil => simp [bindIn]
  | cons e rest ih =>
    by_cases he : e.name = name
    · simp [bindIn, he]
    · have hn : ¬ name = e.name := fun h => he h.symm
      simp only [bindIn, he, if_false, List.map_cons, ih, List.mem_cons, hn, false_or]
      split <;> rfl

/-- Binding a name keeps the order of the names; a new name comes last. -/
theorem names_bind (d : Table) (name : String) (body : Term) :
    (d.bind name body).names = if name ∈ d.names then d.names else d.names ++ [name] :=
  map_name_bindIn name body d.toList

theorem bindIn_bindIn (name : String) (body new : Term) (l : List Definition) :
    bindIn name new (bindIn name body l) = bindIn name new l := by
  induction l with
  | nil => simp [bindIn]
  | cons e rest ih => by_cases h : e.name = name <;> simp [bindIn, h, ih]

/-- Only the last binding of a name counts. -/
theorem bind_bind (d : Table) (name : String) (body new : Term) :
    (d.bind name body).bind name new = d.bind name new :=
  congrArg Table.mk (bindIn_bindIn name body new d.toList)

theorem mem_bindIn {name : String} {body : Term} {l : List Definition} {e : Definition}
    (h : e ∈ bindIn name body l) : e = ⟨name, body⟩ ∨ e ∈ l := by
  induction l with
  | nil => exact .inl (List.mem_singleton.mp h)
  | cons e' rest ih =>
    rw [bindIn] at h
    split at h
    · exact (List.mem_cons.mp h).imp_right (List.mem_cons_of_mem _)
    · rcases List.mem_cons.mp h with rfl | h
      · exact .inr List.mem_cons_self
      · exact (ih h).imp_right (List.mem_cons_of_mem _)

end Table

end LambdaScript
