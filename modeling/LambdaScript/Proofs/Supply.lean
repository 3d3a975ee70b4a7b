/-
LambdaScript/Proofs/Supply.lean

Reading does not depend on the supply of keys.

The functions of an expression that is read have keys from the supply, so the same text
read with another supply gives another expression.  It differs in nothing but the keys:
when the supply begins higher by `k`, every key is higher by `k` (`Term.raise`), and
reading gets on in the text and fails just the same.  The argument goes through the
parser routine by routine; a routine that is the sequence of two raises if both do
(`Parse.Raises.bind`).

The keys of an expression that has been read are consecutive, in the order in which a
copy takes them.  So to raise such an expression is to copy it, and an entry can be read
once and for all, with keys from 0 on, and copied wherever it is wanted.

Main results: `Parse.entry_of_ok` and `Parse.entry_of_error`.
-/
import LambdaScript.Proofs.Reading

namespace LambdaScript

/-! ### Higher keys -/

/-- The function whose key is higher by `k`. -/
def Binder.raise (k : Nat) (b : Binder) : Binder := ⟨b.key + k, b.recursive⟩

/-- The link to the function whose key is higher by `k`. -/
def Link.raise (k : Nat) : Link → Link
  | binder b => binder (b.raise k)
  | l => l

/-- The reading whose supply begins higher by `k`. -/
def Reading.raise (k : Nat) (r : Reading) : Reading := { r with next := r.next + k }

namespace Term

/-- The expression whose keys are higher by `k`. -/
def raise (k : Nat) : Term → Term
  | app f a => app (f.raise k) (a.raise k)
  | lam b x t => lam (b.raise k) x (t.raise k)
  | ref x l => ref x (l.raise k)
  | t => t

theorem raise_link (k : Nat) (b : Binder) (x : String) (t : Term) :
    (t.link b x).raise k = (t.raise k).link (b.raise k) x := by
  induction t with
  | missing => rfl
  | foreign => rfl
  | app f a ihf iha => rw [link_app, raise, ihf, iha, raise, link_app]
  | lam c y t ih => rw [link_lam, raise, ih, raise, link_lam]
  | ref y l =>
    cases l with
    | free => by_cases hy : y = x <;> simp [link, linkAs, raise, Link.raise, hy]
    | binder c => rfl
    | reference key own => rfl
    | endless => rfl

theorem raise_lams (k : Nat) (args : List (Binder × String)) (t : Term) :
    (lams args t).raise k = lams (args.map fun a => (a.1.raise k, a.2)) (t.raise k) := by
  induction args with
  | nil => rfl
  | cons a args ih => rw [lams_cons, raise, raise_link, ih, List.map_cons, lams_cons]

theorem lookup_raise {Γ : List Binder} {b : Binder} (hb : b ∈ Γ) (k : Nat) :
    (Γ.map fun c => (c, c.raise k)).lookup b = some (b.raise k) := by
  induction Γ with
  | nil => cases hb
  | cons c Γ ih =>
    rw [List.map_cons, List.lookup_cons]
    by_cases hbc : b = c
    · subst hbc
      rw [beq_self_eq_true]
    · rw [beq_eq_false_iff_ne.mpr hbc]
      exact ih ((List.mem_cons.mp hb).resolve_left hbc)

/-- Where the keys of an expression are consecutive, its copy from a supply that begins higher
by `k` is the expression itself with keys higher by `k`. -/
theorem copyUnder_eq_raise {t : Term} {Γ : List Binder} {next : Nat} (ht : t.Scoped Γ)
    (hkeys : t.binders.map (·.key) = List.range' next t.binders.length) (k : Nat) :
    t.copyUnder (Γ.map fun b => (b, b.raise k)) (next + k)
      = (t.raise k, next + t.binders.length + k) := by
  induction t generalizing Γ next with
  | missing => exact ht.elim
  | foreign => exact ht.elim
  | app f a ihf iha =>
    rw [binders, List.map_append, List.length_append, ← List.range'_append_1] at hkeys
    obtain ⟨hf, ha⟩ := List.append_inj hkeys (by rw [List.length_map, List.length_range'])
    simp only [copyUnder, ihf ht.1 hf, iha ht.2 ha, raise, binders, List.length_append]
    rw [Nat.add_assoc next]
  | lam b x t ih =>
    rw [binders, List.map_cons, List.length_cons, List.range'_succ] at hkeys
    obtain ⟨hb, htail⟩ := List.cons.inj hkeys
    have hbinder : (⟨next + k, b.recursive⟩ : Binder) = b.raise k := by rw [Binder.raise, hb]
    have hbody := ih (Γ := b :: Γ) ht htail
    rw [List.map_cons, Nat.add_right_comm] at hbody
    simp only [copyUnder, hbinder, hbody, raise, binders, List.length_cons]
    congr 1
    omega
  | ref x l =>
    cases l with
    | free => rfl
    | reference key own => exact ht.elim
    | endless => exact ht.elim
    | binder b =>
      rw [copyUnder, Link.rename, lookup_raise ht]
      rfl

end Term

/-- A copy of an expression that has been read with keys from 0 on. -/
theorem Read.copy_eq_raise {t : Term} {next : Nat} (h : Read 0 t next) (k : Nat) :
    t.copy k = (t.raise k, next + k) := by
  have hcopy := Term.copyUnder_eq_raise h.lexical.scoped h.keys k
  rw [← h.supply, Nat.zero_add] at hcopy
  exact hcopy

/-! ### Reading with a higher supply -/

namespace Parse

variable {k : Nat} {α β : Type} {g : α → α} {g' : β → β}

/-- The outcome of reading with a higher supply: what is given is changed by `g`. -/
def raised (k : Nat) (g : α → α) : EStateM.Result Halt Reading α → EStateM.Result Halt Reading α
  | .ok a r => .ok (g a) (r.raise k)
  | .error halt r => .error halt (r.raise k)

/-- With a supply that begins higher by `k`, reading by `q` goes as reading by `p` does, and
what is given is changed by `g`. -/
def Raises (k : Nat) (g : α → α) (p q : Parse α) : Prop :=
  ∀ r, q (r.raise k) = raised k g (p r)

namespace Raises

theorem bind {p q : Parse α} {f f' : α → Parse β} (hp : Raises k g p q)
    (hf : ∀ a, Raises k g' (f a) (f' (g a))) : Raises k g' (p >>= f) (q >>= f') := by
  intro r
  rcases h : p r with ⟨a, r₁⟩ | ⟨halt, r₁⟩
  · have hq : q (r.raise k) = .ok (g a) (r₁.raise k) := by
      rw [hp r, h]
      rfl
    rw [Outcome.bind_of_ok h, Outcome.bind_of_ok hq]
    exact hf a r₁
  · have hq : q (r.raise k) = .error halt (r₁.raise k) := by
      rw [hp r, h]
      rfl
    rw [Outcome.bind_of_error h, Outcome.bind_of_error hq]
    rfl

theorem ite {c : Prop} [Decidable c] {p p' q q' : Parse α} (hp : Raises k g p q)
    (hp' : Raises k g p' q') : Raises k g (if c then p else p') (if c then q else q') := by
  split
  · exact hp
  · exact hp'

theorem pure (a : α) : Raises k g (pure a) (pure (g a)) := fun _ => rfl

theorem current : Raises k id current current := fun _ => rfl

theorem scan (f : Scanner → α × Scanner) : Raises k id (scan f) (scan f) := fun _ => rfl

theorem reject (p : Problem) : Raises k g (reject p) (reject p) := fun _ => rfl

theorem endless : Raises k g (throw .endless) (throw .endless) := fun _ => rfl

theorem newBinder (recursive : Bool) :
    Raises k (Binder.raise k) (newBinder recursive) (newBinder recursive) := fun r =>
  congrArg (fun n => EStateM.Result.ok (Binder.mk (r.next + k) recursive) (Reading.mk r.scanner n))
    (Nat.add_right_comm r.next k 1)

theorem identity : Raises k (Term.raise k) (make Term.identity) (make Term.identity) := fun r =>
  congrArg (fun n => EStateM.Result.ok (Term.identity (r.next + k)).1 (Reading.mk r.scanner n))
    (Nat.add_right_comm r.next k 1)

/-! Characters and names are read without a look at the supply. -/

theorem takeAll (text : String) (l : List Char) :
    Raises k id (takeAll text l) (takeAll text l) := by
  induction l with
  | nil => exact .pure ()
  | cons c rest ih => exact .bind .current fun _ => .ite (.bind (.scan _) fun _ => ih) (.reject _)

theorem expect (text : String) : Raises k id (expect text) (expect text) :=
  .bind (.takeAll text text.toList) fun _ => .scan _

theorem expectUnlessAtEnd (text : String) :
    Raises k id (expectUnlessAtEnd text) (expectUnlessAtEnd text) :=
  .bind .current fun _ => .ite (.bind (.expect text) fun _ => .pure ()) (.pure ())

theorem identifier : Raises k id identifier identifier := by
  refine .bind .current fun c => .ite ?_ (.reject _)
  exact .bind (.scan _) fun _ => .bind (.scan _) fun tail => .bind (.scan _) fun _ => .pure _

theorem keyword : Raises k id keyword keyword := by
  refine .bind .identifier fun x => ?_
  rw [id]
  cases Keyword.ofName? x with
  | none => exact .reject _
  | some w => exact .pure w

theorem name : Raises k id name name :=
  .bind .identifier fun _ => .ite (.reject _) (.pure _)

theorem argumentName : Raises k id argumentName argumentName :=
  .bind .name fun _ => .ite (.reject _) (.pure _)

theorem definitionName : Raises k id definitionName definitionName :=
  .bind .identifier fun _ => .ite (.reject _) (.ite (.reject _) (.pure _))

/-! Expressions. -/

theorem argument : Raises k (fun a => (a.1.raise k, a.2)) argument argument := by
  have hrest : ∀ marked, Raises k (fun a => (a.1.raise k, a.2))
      (do
        let x ← Parse.argumentName
        return (← Parse.newBinder marked, x))
      (do
        let x ← Parse.argumentName
        return (← Parse.newBinder marked, x)) := fun marked =>
    .bind .argumentName fun x => .bind (.newBinder marked) fun b => .pure (b, x)
  exact .bind .current fun _ => .ite (.bind (.expect "$") fun _ => hrest _) (hrest _)

theorem arguments (rounds : Nat) :
    Raises k (List.map fun a => (a.1.raise k, a.2)) (arguments rounds) (arguments rounds) := by
  induction rounds with
  | zero => exact .endless
  | succ rounds ih =>
    refine .bind .current fun _ => .ite (.pure []) ?_
    exact .bind .argument fun a => .bind ih fun rest => .pure (a :: rest)

section Series

variable {item : Parse Term} (hitem : Raises k (Term.raise k) item item)

include hitem

theorem seriesFrom (rounds : Nat) (t : Term) :
    Raises k (Term.raise k) (seriesFrom item rounds t) (seriesFrom item rounds (t.raise k)) := by
  induction rounds generalizing t with
  | zero => exact .endless
  | succ rounds ih =>
    exact .bind .current fun _ => .ite (.pure t) (.bind hitem fun a => ih (.app t a))

theorem seriesOf (rounds : Nat) :
    Raises k (Term.raise k) (seriesOf item rounds) (seriesOf item rounds) :=
  .bind .current fun _ => .ite .identity (.bind hitem fun t => .seriesFrom hitem rounds t)

theorem bracketOf (rounds : Nat) :
    Raises k (Term.raise k) (bracketOf item rounds) (bracketOf item rounds) :=
  .bind (.expect "(") fun _ => .bind (.seriesOf hitem rounds) fun t =>
    .bind (.expectUnlessAtEnd ")") fun _ => .pure t

theorem functionOf (rounds : Nat) :
    Raises k (Term.raise k) (functionOf item rounds) (functionOf item rounds) := by
  refine .bind (.expect "[") fun _ => .bind .argument fun a => .bind (.arguments rounds) fun more =>
    .bind (.expectUnlessAtEnd ".") fun _ => .bind (.seriesOf hitem rounds) fun body =>
      .bind (.expectUnlessAtEnd "]") fun _ => ?_
  have hlams := Term.raise_lams k (a :: more) body
  rw [List.map_cons] at hlams
  rw [← hlams]
  exact .pure _

end Series

theorem expressionWithin (depth : Nat) :
    Raises k (Term.raise k) (expressionWithin depth) (expressionWithin depth) := by
  induction depth with
  | zero => exact .endless
  | succ depth ih =>
    refine .bind .current fun _ => .ite (.bracketOf ih depth) (.ite (.functionOf ih depth) ?_)
    exact .ite (.bind .name fun x => .pure (Term.ref x .free)) (.pure Term.missing)

theorem expression : Raises k (Term.raise k) expression expression :=
  .bind (g := id) (fun _ => rfl) fun n => .expressionWithin n

end Raises

end Parse

/-! ### Entries -/

/-- The entry with another expression. -/
def Entry.withBody (t : Term) : Entry → Entry
  | define a _ reduced => define a t reduced
  | execute _ => execute t

namespace Parse

variable {k : Nat}

theorem Raises.definition (reduced : Bool) :
    Raises k (fun en => en.withBody (en.body.raise k)) (definition reduced) (definition reduced) :=
  .bind .definitionName fun x => .bind .expression fun t => .pure (Entry.define x t reduced)

theorem Raises.entry :
    Raises k (fun en => en.withBody (en.body.raise k)) Parse.entry Parse.entry := by
  refine .bind .keyword fun w => ?_
  cases w with
  | define => exact .definition true
  | defineAsIs => exact .definition false
  | execute => exact .bind .expression fun t => .pure (Entry.execute t)

variable {sc : Scanner} {r : Reading}

/-- An entry that can be read can be read with any supply, and what is read is a copy. -/
theorem entry_of_ok {en : Entry} (h : Parse.entry ⟨sc, 0⟩ = .ok en r) (next : Nat) :
    Parse.entry ⟨sc, next⟩
      = .ok (en.withBody (en.body.copy next).1) ⟨r.scanner, (en.body.copy next).2⟩ := by
  have hraised := Raises.entry (k := next) ⟨sc, 0⟩
  rw [h, Reading.raise, Nat.zero_add] at hraised
  have hcopy : en.body.copy next = (en.body.raise next, r.next + next) := by
    rcases (entry_eq_ok h).body with ⟨hmissing, hnext⟩ | hread
    · rw [hmissing, hnext, Nat.zero_add]
      rfl
    · exact hread.copy_eq_raise next
  rw [hraised, hcopy]
  rfl

/-- What cannot be read cannot be read with any supply, for the same reason. -/
theorem entry_of_error {halt : Halt} (h : Parse.entry ⟨sc, 0⟩ = .error halt r) (next : Nat) :
    Parse.entry ⟨sc, next⟩ = .error halt (r.raise next) := by
  have hraised := Raises.entry (k := next) ⟨sc, 0⟩
  rw [h, Reading.raise, Nat.zero_add] at hraised
  exact hraised

end Parse

end LambdaScript
