/-
LambdaScript/Place.lean

Where an expression under reduction lies.

A definition is bound before its expression is reduced, and it is reduced inside
the table: at every moment the table holds the expression as far as it has been
worked on.  A `Site` is a spot inside the body of such a definition, given by the
name and by what surrounds the spot.  A `Place` is a table with such a site, or
with none when the expression at hand is part of no definition, as a copy is.

`Place.definitions` is the table as it stands when the spot holds a given
expression; it is what a reference is looked up in, and what remains when the
reduction fails.
-/
import LambdaScript.Definitions

namespace LambdaScript

/-- What lies directly around a spot. -/
inductive Frame
  /-- The spot is applied to `arg`. -/
  | function (arg : Term)
  /-- The function `fn` is applied to the spot. -/
  | argument (fn : Term)
  /-- The spot is the body of a function. -/
  | body (b : Binder) (name : String)
  deriving DecidableEq

namespace Frame

/-- The frame around an expression. -/
def plug : Frame → Term → Term
  | function arg, t => .app t arg
  | argument fn, t => .app fn t
  | body b name, t => .lam b name t

end Frame

/-- A spot in the body of a definition; `path` leads out of it, innermost frame
first. -/
structure Site where
  name : String
  path : List Frame
  deriving DecidableEq

namespace Site

/-- The whole body when the spot holds `here`. -/
def plug (s : Site) (here : Term) : Term :=
  s.path.foldl (fun t f => f.plug t) here

/-- The spot inside a frame. -/
def down (s : Site) (f : Frame) : Site :=
  ⟨s.name, f :: s.path⟩

end Site

/-- A table, and the spot in it at which an expression lies, if any. -/
structure Place where
  table : Table
  site : Option Site
  deriving DecidableEq

namespace Place

/-- The place of an expression that is part of no definition. -/
def outside (d : Table) : Place := ⟨d, none⟩

/-- The place of the whole body of a definition. -/
def whole (d : Table) (name : String) : Place := ⟨d, some ⟨name, []⟩⟩

/-- The definitions when the place holds `here`. -/
def definitions (p : Place) (here : Term) : Table :=
  match p.site with
  | none => p.table
  | some s => p.table.bind s.name (s.plug here)

/-- The body of a name's definition when the place holds `here`. -/
def lookUp (p : Place) (here : Term) (name : String) : Option Term :=
  match p.site with
  | none => (p.table.find? name).map (·.body)
  | some s => if name = s.name then some (s.plug here) else (p.table.find? name).map (·.body)

/-- The place inside a frame. -/
def down (p : Place) (f : Frame) : Place :=
  ⟨p.table, p.site.map (·.down f)⟩

/-- The place of a new expression that is part of no definition, made while
`here` lies at the place. -/
def leave (p : Place) (here : Term) : Place :=
  outside (p.definitions here)

@[simp] theorem definitions_outside (d : Table) (here : Term) :
    (outside d).definitions here = d := rfl

@[simp] theorem definitions_whole (d : Table) (name : String) (here : Term) :
    (whole d name).definitions here = d.bind name here := rfl

/-- Going down changes nothing as long as the same expression is there. -/
@[simp] theorem definitions_down (p : Place) (f : Frame) (here : Term) :
    (p.down f).definitions here = p.definitions (f.plug here) := by
  obtain ⟨d, - | s⟩ := p <;> rfl

@[simp] theorem definitions_leave (p : Place) (here t : Term) :
    (p.leave here).definitions t = p.definitions here := rfl

/-- Looking up a name is looking it up in the definitions. -/
theorem lookUp_eq (p : Place) (here : Term) (name : String) :
    p.lookUp here name = ((p.definitions here).find? name).map (·.body) := by
  obtain ⟨d, - | s⟩ := p
  · rfl
  · by_cases h : name = s.name
    · subst h
      simp [lookUp, definitions]
    · simp [lookUp, definitions, h, Table.find?_bind_of_ne h]

end Place

end LambdaScript
