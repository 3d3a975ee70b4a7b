/-
LambdaScript/Proofs/Copies.lean

A copy is the same expression with other functions.

While an expression is copied, the functions being copied are kept with their copies, and
a pair is dropped when the walk leaves its function; a reference is turned by what is there
when it is reached.  Here copying is said without that list: `Term.relabel` exchanges all
functions of an expression at once, and a copy is the expression relabelled by the function
that sends the `i`-th function to the `i`-th key of the supply (`copy_eq_relabel`).  What
the list has to hold while the walk is under way is in `copyUnder_eq_relabel`.

Expressions may have leaves that are no expressions, and references may lead out
(`Term.Anchored`).

Main result: `copy_isomorphic`.
-/
import LambdaScript.Proofs.Agreement
import LambdaScript.Proofs.AlphaEquivalence
import LambdaScript.Proofs.Linking
import LambdaScript.Workbench

namespace LambdaScript

/-! ### Exchanging the functions -/

/-- The link when the functions are exchanged. -/
def Link.relabel (ρ : Binder → Binder) : Link → Link
  | binder b => binder (ρ b)
  | l => l

namespace Term

/-- The expression when the functions are exchanged, in it and in its links. -/
def relabel (ρ : Binder → Binder) : Term → Term
  | app f a => app (f.relabel ρ) (a.relabel ρ)
  | lam b x t => lam (ρ b) x (t.relabel ρ)
  | ref x l => ref x (l.relabel ρ)
  | t => t

/-- Each reference is free, belongs to a function around it, or leads to a function that is
none of `F` and older than the supply.  The leaves that are no expressions may be there. -/
def Anchored (F : List Binder) (next : Nat) (Γ : List Binder) : Term → Prop
  | app f a => f.Anchored F next Γ ∧ a.Anchored F next Γ
  | lam b _ t => t.Anchored F next (b :: Γ)
  | ref _ .free => True
  | ref _ (.binder b) => b ∈ Γ ∨ b ∉ F ∧ b.key < next
  | ref _ _ => False
  | _ => True

/-- Each reference belongs to a function around it, and every other leaf is a missing
expression. -/
def Closed (Γ : List Binder) : Term → Prop
  | app f a => f.Closed Γ ∧ a.Closed Γ
  | lam b _ t => t.Closed (b :: Γ)
  | ref _ (.binder b) => b ∈ Γ
  | missing => True
  | _ => False

instance decidableAnchored (F : List Binder) (next : Nat) (Γ : List Binder) :
    (t : Term) → Decidable (t.Anchored F next Γ)
  | missing => isTrue trivial
  | foreign => isTrue trivial
  | app f a =>
    have := decidableAnchored F next Γ f
    have := decidableAnchored F next Γ a
    inferInstanceAs (Decidable (f.Anchored F next Γ ∧ a.Anchored F next Γ))
  | lam b _ t => decidableAnchored F next (b :: Γ) t
  | ref _ .free => isTrue trivial
  | ref _ (.binder b) => inferInstanceAs (Decidable (b ∈ Γ ∨ b ∉ F ∧ b.key < next))
  | ref _ (.reference _ _) => isFalse id
  | ref _ .endless => isFalse id

instance decidableClosed (Γ : List Binder) : (t : Term) → Decidable (t.Closed Γ)
  | missing => isTrue trivial
  | foreign => isFalse id
  | app f a =>
    have := decidableClosed Γ f
    have := decidableClosed Γ a
    inferInstanceAs (Decidable (f.Closed Γ ∧ a.Closed Γ))
  | lam b _ t => decidableClosed (b :: Γ) t
  | ref _ .free => isFalse id
  | ref _ (.binder b) => inferInstanceAs (Decidable (b ∈ Γ))
  | ref _ (.reference _ _) => isFalse id
  | ref _ .endless => isFalse id

section Relabel

variable {ρ : Binder → Binder} {F G Γ : List Binder} {next : Nat} {t : Term}

theorem binders_relabel (ρ : Binder → Binder) (t : Term) :
    (t.relabel ρ).binders = t.binders.map ρ := by
  induction t with
  | missing => rfl
  | foreign => rfl
  | app f a ihf iha => rw [relabel, binders, binders, ihf, iha, List.map_append]
  | lam b x t ih => rw [relabel, binders, binders, ih, List.map_cons]
  | ref x l => rfl

theorem references_relabel (ρ : Binder → Binder) (t : Term) (Γ : List (Binder × String)) :
    (t.relabel ρ).references (Γ.map fun p => (ρ p.1, p.2))
      = (t.references Γ).map fun o =>
        ⟨o.around.map fun p => (ρ p.1, p.2), o.name, o.link.relabel ρ⟩ := by
  induction t generalizing Γ with
  | missing => rfl
  | foreign => rfl
  | app f a ihf iha =>
    rw [relabel, references, references, ihf, iha, List.map_append]
  | lam b x t ih => exact ih ((b, x) :: Γ)
  | ref x l => rfl

/-- The outline stays when the exchange keeps the marks and the numbers of the functions. -/
theorem outlineIn_relabel (ht : t.Anchored F next Γ) (hΓ : Γ ⊆ F) (hF : t.binders ⊆ F)
    (hmark : ∀ b ∈ F, (ρ b).recursive = b.recursive)
    (hnumber : ∀ b, b ∈ F ∨ b ∉ F ∧ b.key < next → G.idxOf? (ρ b) = F.idxOf? b) :
    (t.relabel ρ).outlineIn G = t.outlineIn F := by
  induction t generalizing Γ with
  | missing => rfl
  | foreign => rfl
  | app f a ihf iha =>
    rw [binders, List.append_subset] at hF
    rw [relabel, outlineIn, outlineIn, ihf ht.1 hΓ hF.1, iha ht.2 hΓ hF.2]
  | lam b x t ih =>
    rw [binders, List.cons_subset] at hF
    rw [relabel, outlineIn, outlineIn, hmark b hF.1,
      Link.outline_binder_eq (hnumber b (.inl hF.1)),
      ih (Γ := b :: Γ) ht (List.cons_subset.mpr ⟨hF.1, hΓ⟩) hF.2]
  | ref x l =>
    cases l with
    | free => rfl
    | binder b =>
      have hb : b ∈ F ∨ b ∉ F ∧ b.key < next := ht.imp_left fun h => hΓ h
      rw [relabel, Link.relabel, outlineIn, outlineIn, Link.outline_binder_eq (hnumber b hb)]
    | reference k own => exact ht.elim
    | endless => exact ht.elim

/-- A closed expression compares as the same as itself with other functions: each pair of
functions around a reference has met. -/
theorem compare_relabel {met : Meetings} (ht : t.Closed Γ) (hmet : ∀ b ∈ Γ, (b, ρ b) ∈ met) :
    ∃ met', t.compare met (t.relabel ρ) = .ok (true, met') ∧ met ⊆ met' := by
  induction t generalizing Γ met with
  | missing => exact ⟨met, rfl, List.Subset.refl met⟩
  | foreign => exact ht.elim
  | app f a ihf iha =>
    obtain ⟨met₁, hf, hsub₁⟩ := ihf ht.1 hmet
    obtain ⟨met₂, ha, hsub₂⟩ := iha ht.2 fun b hb => hsub₁ (hmet b hb)
    refine ⟨met₂, ?_, List.Subset.trans hsub₁ hsub₂⟩
    rw [relabel, compare, hf]
    exact ha
  | lam b x t ih =>
    have hmet' : ∀ c ∈ b :: Γ, (c, ρ c) ∈ (b, ρ b) :: met := by
      intro c hc
      rcases List.mem_cons.mp hc with rfl | hc
      · exact List.mem_cons_self
      · exact List.mem_cons_of_mem _ (hmet c hc)
    obtain ⟨met', h, hsub⟩ := ih (Γ := b :: Γ) ht hmet'
    exact ⟨met', h, fun p hp => hsub (List.mem_cons_of_mem _ hp)⟩
  | ref x l =>
    cases l with
    | free => exact ht.elim
    | binder b =>
      refine ⟨met, ?_, List.Subset.refl met⟩
      rw [relabel, Link.relabel, compare, Meetings.agree_binder.mpr (.inl (hmet b ht))]
    | reference k own => exact ht.elim
    | endless => exact ht.elim

end Relabel

/-! ### Copying exchanges the functions -/

/-- The functions that the copy of an expression has in the place of its own; all others
stay. -/
def copyOf (t : Term) (next : Nat) (b : Binder) : Binder :=
  if b ∈ t.binders then ⟨next + t.binders.idxOf b, b.recursive⟩ else b

/-- What is found in the list of the functions being copied is what the exchange says, for a
function of the list and for one that stays. -/
theorem lookup_getD_eq {copies : Renaming} {ρ : Binder → Binder} {b : Binder}
    (hcopies : ∀ p ∈ copies, p.2 = ρ p.1) (hb : b ∈ copies.map (·.1) ∨ ρ b = b) :
    (copies.lookup b).getD b = ρ b := by
  rcases hfound : copies.lookup b with - | c
  · rw [List.lookup_eq_none_iff] at hfound
    rcases hb with hb | hb
    · obtain ⟨p, hp, rfl⟩ := List.mem_map.mp hb
      simpa using hfound p hp
    · exact hb.symm
  · obtain ⟨l₁, l₂, rfl, -⟩ := List.lookup_eq_some_iff.mp hfound
    exact hcopies (b, c) (List.mem_append_right _ List.mem_cons_self)

/-- The walk of copying, below the functions of `copies`: as long as these have the copies
that the exchange gives them, so has everything below. -/
theorem copyUnder_eq_relabel {ρ : Binder → Binder} {F : List Binder} {limit : Nat} {t : Term}
    {copies : Renaming} {next : Nat} (houter : ∀ b, b ∉ F → ρ b = b)
    (ht : t.Anchored F limit (copies.map (·.1))) (hnodup : t.binders.Nodup)
    (hρ : ∀ b ∈ t.binders, ρ b = ⟨next + t.binders.idxOf b, b.recursive⟩)
    (hcopies : ∀ p ∈ copies, p.2 = ρ p.1) :
    (t.copyUnder copies next).1 = t.relabel ρ := by
  induction t generalizing copies next with
  | missing => rfl
  | foreign => rfl
  | app f a ihf iha =>
    obtain ⟨hf, ha, hdisjoint⟩ := List.nodup_append.mp hnodup
    have hρf : ∀ b ∈ f.binders, ρ b = ⟨next + f.binders.idxOf b, b.recursive⟩ := by
      intro b hb
      rw [hρ b (List.mem_append_left _ hb), binders, List.idxOf_append_of_mem hb]
    -- the functions of the right side come after those of the left
    have hρa : ∀ b ∈ a.binders,
        ρ b = ⟨next + f.binders.length + a.binders.idxOf b, b.recursive⟩ := by
      intro b hb
      have hbf : b ∉ f.binders := fun h => hdisjoint b h b hb rfl
      rw [hρ b (List.mem_append_right _ hb), binders, List.idxOf_append_of_notMem hbf,
        Nat.add_assoc]
    rw [copyUnder, relabel, copyUnder_snd, ihf ht.1 hf hρf hcopies, iha ht.2 ha hρa hcopies]
  | lam b x t ih =>
    obtain ⟨hb, hnodup⟩ := List.nodup_cons.mp hnodup
    have hρb : ρ b = ⟨next, b.recursive⟩ := by
      rw [hρ b List.mem_cons_self, binders, List.idxOf_cons_self, Nat.add_zero]
    have hρt : ∀ c ∈ t.binders, ρ c = ⟨next + 1 + t.binders.idxOf c, c.recursive⟩ := by
      intro c hc
      have hne : b ≠ c := fun h => hb (h ▸ hc)
      rw [hρ c (List.mem_cons_of_mem _ hc), binders, List.idxOf_cons_ne _ hne, Nat.add_assoc,
        Nat.add_comm 1]
    have hcopies' : ∀ p ∈ ((b, ⟨next, b.recursive⟩) :: copies : Renaming), p.2 = ρ p.1 := by
      intro p hp
      rcases List.mem_cons.mp hp with rfl | hp
      · exact hρb.symm
      · exact hcopies p hp
    rw [copyUnder, relabel, hρb, ih ht hnodup hρt hcopies']
  | ref x l =>
    cases l with
    | free => rfl
    | binder b =>
      have hb : b ∈ copies.map (·.1) ∨ ρ b = b := ht.imp_right fun h => houter b h.1
      rw [copyUnder, relabel, Link.rename, Link.relabel, lookup_getD_eq hcopies hb]
    | reference k own => rfl
    | endless => rfl

section Copy

variable {t : Term} {next : Nat}

theorem copy_eq_relabel (hnodup : t.binders.Nodup) (ht : t.Anchored t.binders next []) :
    (t.copy next).1 = t.relabel (t.copyOf next) :=
  copyUnder_eq_relabel (fun _ hb => if_neg hb) ht hnodup (fun _ hb => if_pos hb)
    fun _ hp => absurd hp List.not_mem_nil

theorem key_of_mem_copy {b : Binder} (hb : b ∈ (t.copy next).1.binders) : next ≤ b.key :=
  (((grown_copy missing t next).old_or_new b hb).resolve_left List.not_mem_nil).1

/-- A function and its copy have the same number, and so have functions outside, which have
none. -/
theorem idxOf?_copyOf (hnodup : t.binders.Nodup) (ht : t.Anchored t.binders next []) {b : Binder}
    (hb : b ∈ t.binders ∨ b ∉ t.binders ∧ b.key < next) :
    (t.copy next).1.binders.idxOf? (t.copyOf next b) = t.binders.idxOf? b := by
  have hbinders : (t.copy next).1.binders = t.binders.map (t.copyOf next) := by
    rw [copy_eq_relabel hnodup ht, binders_relabel]
  rcases hb with hb | ⟨hout, hkey⟩
  · have hcopy := map_idxOf?_self (grown_copy missing t next).nodup
    rw [hbinders, List.length_map, ← map_idxOf?_self hnodup, List.map_map] at hcopy
    rw [hbinders]
    exact List.map_inj_left.mp hcopy b hb
  · have hnew : b ∉ (t.copy next).1.binders := fun h =>
      absurd (key_of_mem_copy h) (Nat.not_le.mpr hkey)
    rw [copyOf, if_neg hout, List.idxOf?_eq_none_iff.mpr hnew, List.idxOf?_eq_none_iff.mpr hout]

theorem outline_copy (hnodup : t.binders.Nodup) (ht : t.Anchored t.binders next []) :
    (t.copy next).1.outline = t.outline := by
  have hout := outlineIn_relabel (ρ := t.copyOf next) (G := (t.copy next).1.binders) ht
    (List.nil_subset _) (List.Subset.refl _) (fun b hb => by rw [copyOf, if_pos hb])
    fun b hb => idxOf?_copyOf hnodup ht hb
  rw [← copy_eq_relabel hnodup ht] at hout
  exact hout

theorem identical_copy (hnodup : t.binders.Nodup) (ht : t.Anchored t.binders next [])
    (hclosed : t.Closed []) : t.identical (t.copy next).1 = .ok true := by
  have hmet : ∀ b ∈ ([] : List Binder), (b, t.copyOf next b) ∈ ([] : Meetings) := fun _ hb =>
    absurd hb List.not_mem_nil
  obtain ⟨met, hcompare, -⟩ := compare_relabel hclosed hmet
  rw [identical, copy_eq_relabel hnodup ht, hcompare]
  rfl

end Copy

end Term

/-! ### The references of a copy -/

/-- Of two references, in expressions with the functions `F` and `G`, the second answers to
the first: it bears the same name, it is linked to the `i`-th function of `G` if the first is
linked to the `i`-th of `F`, and otherwise it has the same link. -/
structure Occurrence.Answers (F G : List Binder) (o o' : Occurrence) : Prop where
  name : o'.name = o.name
  inner : ∀ (i : Nat) (b : Binder), F[i]? = some b → o.link = .binder b →
    ∃ b', G[i]? = some b' ∧ o'.link = .binder b'
  outer : (∀ b ∈ F, o.link ≠ .binder b) → o'.link = o.link

theorem Term.answers_copy {t : Term} {next : Nat} (hnodup : t.binders.Nodup)
    (ht : t.Anchored t.binders next []) :
    List.Forall₂ (Occurrence.Answers t.binders (t.copy next).1.binders) (t.references [])
      ((t.copy next).1.references []) := by
  have hrefs := references_relabel (t.copyOf next) t []
  rw [List.map_nil] at hrefs
  rw [copy_eq_relabel hnodup ht, hrefs, List.forall₂_map_right_iff, List.forall₂_same]
  refine fun o _ => ⟨rfl, fun i b hi hlink => ⟨t.copyOf next b, ?_, ?_⟩, fun hout => ?_⟩
  · rw [binders_relabel, List.getElem?_map, hi, Option.map_some]
  · rw [hlink, Link.relabel]
  · cases hlink : o.link with
    | binder b =>
      have hb : b ∉ t.binders := fun hb => hout b hb hlink
      simp only [Link.relabel, Term.copyOf, if_neg hb]
    | _ => rfl

/-! ### Copies on the workbench -/

namespace Work

variable {w : Workbench} {source name : String} {s : Slot}

theorem slot_eq (hsource : w.slots.lookup source = some s) : slot source w = .ok s w := by
  have hget : (get : Work Workbench) w = .ok w w := rfl
  rw [slot, Outcome.bind_of_ok hget, hsource]
  rfl

/-- What copying does to a workbench. -/
theorem copy_eq (hsource : w.slots.lookup source = some s) :
    copy source name w =
      let c := s.term.copy w.session.reading.next
      .ok c.1 { w with
        session := { w.session with reading := { w.session.reading with next := c.2 + 1 } }
        slots := (name, ⟨c.2, c.1⟩) :: w.slots.filter (·.1 ≠ name) } := by
  have hterm : term source w = .ok s.term w := by
    rw [term, Outcome.bind_of_ok (slot_eq hsource)]
    rfl
  rw [copy, Outcome.bind_of_ok hterm]
  rfl

/-- Clearing a slot leaves the others. -/
theorem lookup_filter {slots : List (String × Slot)} {x : String} (hx : x ≠ name) :
    (slots.filter (·.1 ≠ name)).lookup x = slots.lookup x := by
  induction slots with
  | nil => rfl
  | cons p rest ih =>
    obtain ⟨y, s⟩ := p
    by_cases hy : y = name
    · subst hy
      rw [List.filter_cons_of_neg (by simp), ih, List.lookup_cons, beq_false_of_ne hx]
    · rw [List.filter_cons_of_pos (by simpa using hy), List.lookup_cons, List.lookup_cons, ih]

end Work

/-- **A copy is an independent isomorphic expression.**  Take an expression on a workbench in
which no function occurs twice and each reference is free, belongs to a function around it or
leads to a function outside, while the supply is above all these functions.  Copying it gives
an expression with the same outline, whose functions are all different and all new.  The
references of the copy answer to those of the expression one by one: one that belonged to the
`i`-th function belongs to the `i`-th function of the copy, and any other has the link it had.
The expression and everything else on the workbench stay as they were, and if the expression
is closed and has no leaf of another kind, it is found to be the same as its copy. -/
theorem copy_isomorphic {w : Workbench} {source : String} {s : Slot}
    (hsource : w.slots.lookup source = some s) (name : String)
    (htidy : s.term.Tidy w.session.reading.next)
    (hlinks : s.term.Anchored s.term.binders w.session.reading.next []) :
    ∃ c w', Work.copy source name w = .ok c w' ∧
      c.outline = s.term.outline ∧
      c.Tidy w'.session.reading.next ∧ (∀ b ∈ c.binders, w.session.reading.next ≤ b.key) ∧
      List.Forall₂ (Occurrence.Answers s.term.binders c.binders) (s.term.references [])
        (c.references []) ∧
      (w'.slots.lookup name).map (·.term) = some c ∧
      (∀ x, x ≠ name → w'.slots.lookup x = w.slots.lookup x) ∧
      w'.session.table = w.session.table ∧
      (s.term.Closed [] → s.term.identical c = .ok true) := by
  have hnodup := htidy.nodup
  have hgrown := Term.grown_copy .missing s.term w.session.reading.next
  refine ⟨_, _, Work.copy_eq hsource, Term.outline_copy hnodup hlinks, ?_, ?_,
    Term.answers_copy hnodup hlinks, ?_, ?_, rfl, Term.identical_copy hnodup hlinks⟩
  · have hmissing : Term.missing.Tidy w.session.reading.next :=
      ⟨List.nodup_nil, fun _ hb => absurd hb List.not_mem_nil⟩
    exact (hgrown.tidy hmissing).mono (Nat.le_succ _)
  · exact fun b hb => Term.key_of_mem_copy hb
  · rw [List.lookup_cons_self, Option.map_some]
  · intro x hx
    rw [List.lookup_cons, beq_false_of_ne hx, Work.lookup_filter hx]

/-- `[x. ([x. x] [x. x z]) %] ([y. x] ~)` has a leaf of another kind and a missing one, all its
inner functions are called `x`, and the last reference to `x` leads out, to the function with
the key 9; the closed expression `[$f. f [f. f ~]]` is the same as its copy. -/
theorem copy_isomorphic_leaves :
    let b (n : Nat) : Binder := ⟨n, false⟩
    let x (n : Nat) : Term := .ref "x" (.binder (b n))
    let t : Term := .app
      (.lam (b 1) "x" (.app (.app (.lam (b 2) "x" (x 2))
        (.lam (b 3) "x" (.app (x 1) (.ref "z" .free)))) .foreign))
      (.app (.lam (b 4) "y" (x 9)) .missing)
    let f (r : Bool) (n : Nat) : Term := .ref "f" (.binder ⟨n, r⟩)
    let u : Term := .lam ⟨5, true⟩ "f"
      (.app (f true 5) (.lam (b 6) "f" (.app (f false 6) .missing)))
    let w : Workbench := { Workbench.fresh with
      session := { Session.fresh with reading := { Session.fresh.reading with next := 10 } }
      slots := [("a", ⟨7, t⟩), ("b", ⟨8, u⟩)] }
    (∃ c w', Work.copy "a" "b" w = .ok c w' ∧ c.outline = t.outline ∧
      w'.slots.lookup "a" = some ⟨7, t⟩ ∧
      List.Forall₂ (Occurrence.Answers t.binders c.binders) (t.references []) (c.references [])) ∧
    ∃ c w', Work.copy "b" "c" w = .ok c w' ∧ c.outline = u.outline ∧
      w'.slots.lookup "b" = some ⟨8, u⟩ ∧ u.identical c = .ok true := by
  intro b x t f u w
  have htidy (v : Term) (h : v.binders.Nodup ∧ ∀ b ∈ v.binders, b.key < 10) : v.Tidy 10 :=
    ⟨h.1, h.2⟩
  have ht : w.slots.lookup "a" = some ⟨7, t⟩ := rfl
  have hu : w.slots.lookup "b" = some ⟨8, u⟩ := rfl
  obtain ⟨c, w', hcopy, hout, -, -, hrefs, -, hslots, -⟩ :=
    copy_isomorphic ht "b" (htidy t (by decide)) (by decide)
  obtain ⟨c', w'', hcopy', hout', -, -, -, -, hslots', -, hidentical⟩ :=
    copy_isomorphic hu "c" (htidy u (by decide)) (by decide)
  exact ⟨⟨c, w', hcopy, hout, hslots "a" (by decide), hrefs⟩,
    c', w'', hcopy', hout', hslots' "b" (by decide), hidentical (by decide)⟩

end LambdaScript
