/-
LambdaScript/Proofs/Levels.lean

The text that shows levels only is a canonical form.

A closed expression can be printed with nothing shown of an argument but the level of
its function.  Such a text looks like the text of another expression, the one whose
arguments have numerals for names (`Nameless.levelled`), and this expression is made
from the numbers of the first one alone.  So expressions that read the same have the
same text.

Conversely the text determines the numbers.  Numerals are names that can be written, so
what has been printed can be read back (`Term.Writable.read_gives`), and reading the
same text twice gives the same phrase.  No parsing argument of its own is needed for
this, however many digits the numerals have and however functions and applications are
nested.  In a phrase the numeral of a reference and the number of functions around it
give back how far away its function is.

With names and marks shown as well, expressions that read the same still have the same
text (`Term.print_eq_of_nameless_eq`).

Main result: `print_eq_iff_identical`.
-/
import LambdaScript.Proofs.AlphaEquivalence
import LambdaScript.Proofs.Printing

namespace LambdaScript

/-! ### Numerals as names -/

theorem toString_nat_inj {m n : Nat} (h : toString m = toString n) : m = n := by
  have hdigits : Nat.toDigits 10 m = Nat.toDigits 10 n := by
    rw [← Nat.toList_repr, ← Nat.toList_repr]
    exact congrArg String.toList h
  have hvalue := congrArg (Nat.ofDigitChars 10 · 0) hdigits
  simpa only [Nat.ofDigitChars_ten_toDigits] using hvalue

theorem isDigit_of_mem_toString {n : Nat} {c : Char} (h : c ∈ (toString n).toList) :
    c.isDigit = true := by
  change c ∈ n.repr.toList at h
  rw [Nat.toList_repr] at h
  exact Nat.isDigit_of_mem_toDigits (by decide) (Nat.le_refl 10) h

/-- A reserved name has a character that is no digit. -/
theorem exists_not_isDigit_of_isReserved {x : String} (h : isReserved x = true) :
    ∃ c ∈ x.toList, c.isDigit = false := by
  rcases Bool.or_eq_true_iff.mp h with h | h
  · obtain ⟨k, -, hk⟩ := List.find?_isSome.mp h
    obtain rfl := of_decide_eq_true hk
    cases k <;> exact ⟨'d', List.mem_cons_self, by decide⟩
  · obtain ⟨k, -, hk⟩ := List.find?_isSome.mp h
    obtain rfl := of_decide_eq_true hk
    cases k <;> exact ⟨'p', List.mem_cons_self, by decide⟩

/-- A numeral can stand in a header. -/
theorem argumentName_toString (n : Nat) : ArgumentName (toString n) := by
  have hdigit : ∀ c ∈ (toString n).toList, c.isDigit = true := fun c => isDigit_of_mem_toString
  refine ⟨?_, ?_, ?_, ?_⟩
  · intro hempty
    have hnil : n.repr.toList = [] := congrArg String.toList hempty
    rw [Nat.toList_repr] at hnil
    exact Nat.toDigits_ne_nil hnil
  · intro c hc
    have hc' := hdigit c hc
    refine ⟨isNameChar_iff.mpr fun hend => ?_, ?_⟩
    · have hends : CharClass.nameEnds.all (fun d => !d.isDigit) = true := by decide
      have hnot := List.all_eq_true.mp hends c hend
      rw [hc'] at hnot
      cases hnot
    · rintro rfl
      cases hc'
  · intro hhead
    cases hdigit '$' (List.mem_of_head? hhead)
  · refine eq_false_of_ne_true fun hreserved => ?_
    obtain ⟨c, hc, hnot⟩ := exists_not_isDigit_of_isReserved hreserved
    rw [hdigit c hc] at hnot
    cases hnot

/-! ### Levels as names -/

namespace Nameless

variable {ν : Type}

/-- Every reference belongs to one of the functions of the expression or to one of the `n`
nearest functions around it, and none is free. -/
def BoundAt (n : Nat) : Nameless ν → Prop
  | bound i _ => i < n
  | free _ => False
  | app f a => f.BoundAt n ∧ a.BoundAt n
  | lam _ _ t => t.BoundAt (n + 1)

/-- The expression inside `n` functions, where the level of each function is the name of its
argument. -/
def levelled (n : Nat) : Nameless ν → Term
  | bound i _ => .ref (toString (n - 1 - i)) (.binder ⟨n - 1 - i, false⟩)
  | free x => .ref x .free
  | app f a => .app (f.levelled n) (a.levelled n)
  | lam _ _ t => .lam ⟨n, false⟩ (toString n) (t.levelled (n + 1))

/-- The phrase of an expression whose arguments are named by levels. -/
def levelPhrase (n : Nat) : Nameless ν → Phrase
  | bound i _ => .name (toString (n - 1 - i))
  | free x => .name x
  | app f a => .app (f.levelPhrase n) (a.levelPhrase n)
  | lam _ _ t => .function false (toString n) (t.levelPhrase (n + 1))

theorem levelled_form (n : Nat) (t : Nameless ν) : t.form.levelled n = t.levelled n := by
  induction t generalizing n with
  | bound i x => rfl
  | free x => rfl
  | app f a ihf iha => rw [form, levelled, ihf, iha, levelled]
  | lam r x t ih => rw [form, levelled, ih, levelled]

theorem phrase?_levelled (n : Nat) (t : Nameless ν) :
    (t.levelled n).phrase? = some (t.levelPhrase n) := by
  induction t generalizing n with
  | bound i x => rfl
  | free x => rfl
  | app f a ihf iha => exact Term.phrase?_app (ihf n) (iha n)
  | lam r x t ih => exact Term.phrase?_lam ⟨n, false⟩ (toString n) (ih (n + 1))

variable {n : Nat} {t u : Nameless ν}

theorem BoundAt.writable_levelled (h : t.BoundAt n) : (t.levelled n).Writable := by
  induction t generalizing n with
  | bound i x => exact ⟨argumentName_toString _, _, rfl, rfl⟩
  | free x => exact h.elim
  | app f a ihf iha => exact ⟨ihf h.1, iha h.2⟩
  | lam r x t ih => exact ⟨rfl, argumentName_toString n, ih (n := n + 1) h⟩

/-- The phrase determines how far away the function of each reference is. -/
theorem form_eq_of_levelPhrase_eq (ht : t.BoundAt n) (hu : u.BoundAt n)
    (h : t.levelPhrase n = u.levelPhrase n) : t.form = u.form := by
  induction t generalizing n u with
  | free x => exact ht.elim
  | bound i x =>
    cases u with
    | free y => exact hu.elim
    | app g b => cases h
    | lam r y u => cases h
    | bound j y =>
      have hlevel : n - 1 - i = n - 1 - j := toString_nat_inj (Phrase.name.inj h)
      have hi : i < n := ht
      have hj : j < n := hu
      have hij : i = j := by omega
      rw [form, form, hij]
  | app f a ihf iha =>
    cases u with
    | free y => exact hu.elim
    | bound j y => cases h
    | lam r y u => cases h
    | app g b =>
      obtain ⟨hf, ha⟩ := Phrase.app.inj h
      rw [form, form, ihf ht.1 hu.1 hf, iha ht.2 hu.2 ha]
  | lam r x t ih =>
    cases u with
    | free y => exact hu.elim
    | bound j y => cases h
    | app g b => cases h
    | lam r' y u =>
      obtain ⟨-, -, hbody⟩ := Phrase.function.inj h
      rw [form, form, ih (n := n + 1) ht hu hbody]

end Nameless

theorem Term.Bound.boundAt {t : Term} {Γ : List Binder} (h : t.Bound Γ) :
    (t.nameless Γ).BoundAt Γ.length := by
  induction t generalizing Γ with
  | missing => exact h.elim
  | foreign => exact h.elim
  | app f a ihf iha => exact ⟨ihf h.1, iha h.2⟩
  | lam b x t ih => exact ih (Γ := b :: Γ) h
  | ref x l =>
    cases l with
    | binder b => exact List.idxOf_lt_length_of_mem h
    | free => exact h.elim
    | reference k own => exact h.elim
    | endless => exact h.elim

/-! ### The text -/

/-- Levels alone. -/
def Display.byLevel : Display := .ofFlags 1

namespace Term

theorem map_fst_levelsFrom (n : Nat) (t : Term) : (t.levelsFrom n).map (·.1) = t.binders := by
  induction t generalizing n with
  | missing => rfl
  | foreign => rfl
  | ref x l => rfl
  | app f a ihf iha => rw [levelsFrom, List.map_append, ihf, iha, binders]
  | lam b x t ih => rw [levelsFrom, List.map_cons, ih, binders]

/-- Where no function occurs twice, every function is found with its level. -/
theorem lookup_levelsFrom {t : Term} (h : t.binders.Nodup) {n : Nat} {p : Binder × Nat}
    (hp : p ∈ t.levelsFrom n) : (t.levelsFrom n).lookup p.1 = some p.2 := by
  obtain ⟨l₁, l₂, hl⟩ := List.append_of_mem hp
  rw [← map_fst_levelsFrom n, hl, List.map_append, List.nodup_append] at h
  refine List.lookup_eq_some_iff.mpr ⟨l₁, l₂, hl, fun q hq => bne_iff_ne.mpr fun heq => ?_⟩
  exact h.2.2 q.1 (List.mem_map_of_mem hq) p.1 List.mem_cons_self heq.symm

theorem isApp_levelled (t : Term) (Γ : List Binder) (n : Nat) :
    ((t.nameless Γ).levelled n).isApp = t.isApp := by
  cases t with
  | ref x l => cases l <;> rfl
  | _ => rfl

theorem argument_byLevel {levels : Levels} {b : Binder} {n : Nat} (h : levels.lookup b = some n)
    (x : String) : Display.byLevel.argument levels (.binder b) x
      = Display.standard.argument [] (.binder ⟨n, false⟩) (toString n) := by
  have hdisplay : Display.byLevel = ⟨true, false, false⟩ := by decide
  rw [argument_eq rfl, hdisplay]
  simp [Display.argument, Display.mark, Display.level, h]

/-- A closed expression, printed by level, has the text of the expression that has levels for
names.  The levels of the functions around it are counted from the outside. -/
theorem printWith_byLevel {t : Term} {Γ : List Binder} {levels : Levels} (ht : t.Bound Γ)
    (hΓ : ∀ b ∈ Γ, levels.lookup b = some (Γ.length - 1 - Γ.idxOf b))
    (hlevels : ∀ p ∈ t.levelsFrom Γ.length, levels.lookup p.1 = some p.2) (inHeader : Bool) :
    t.printWith .byLevel levels inHeader
      = ((t.nameless Γ).levelled Γ.length).printWith .standard [] inHeader := by
  induction t generalizing Γ inHeader with
  | missing => exact ht.elim
  | foreign => exact ht.elim
  | ref x l =>
    cases l with
    | free => exact ht.elim
    | reference k own => exact ht.elim
    | endless => exact ht.elim
    | binder b => rw [printWith, argument_byLevel (hΓ b ht), nameless, Nameless.levelled, printWith]
  | app f a ihf iha =>
    have hf := ihf ht.1 hΓ (fun p hp => hlevels p (List.mem_append_left _ hp)) false
    have ha := iha ht.2 hΓ (fun p hp => hlevels p (List.mem_append_right _ hp)) false
    rw [printWith, hf, ha, nameless, Nameless.levelled, printWith, isApp_levelled]
  | lam b x t ih =>
    have hb : levels.lookup b = some Γ.length := hlevels (b, Γ.length) List.mem_cons_self
    have hΓ' : ∀ c ∈ b :: Γ, levels.lookup c = some ((b :: Γ).length - 1 - (b :: Γ).idxOf c) := by
      intro c hc
      by_cases hcb : b = c
      · subst hcb
        rw [hb, List.idxOf_cons_self]
        rfl
      · -- one function more lies around, and one more lies between
        have hcΓ : c ∈ Γ := (List.mem_cons.mp hc).resolve_left (Ne.symm hcb)
        rw [hΓ c hcΓ, List.idxOf_cons_ne _ hcb, List.length_cons]
        congr 1
        omega
    have hbody := ih (Γ := b :: Γ) ht hΓ' (fun p hp => hlevels p (List.mem_cons_of_mem _ hp)) true
    rw [printWith, argument_byLevel hb, hbody, nameless, Nameless.levelled, printWith]
    rfl

theorem print_byLevel {t : Term} (ht : t.Bound []) (hn : t.binders.Nodup) :
    t.print .byLevel = ((t.nameless []).levelled 0).print .standard := by
  have htext := printWith_byLevel ht (fun _ hb => absurd hb List.not_mem_nil)
    (fun _ hp => lookup_levelsFrom hn hp) false
  have hleft : t.print .byLevel = t.printWith .byLevel (t.levelsFrom 0) false := by
    cases t <;> rfl
  have hright (u : Term) : u.print .standard = u.printWith .standard [] false := by
    cases u <;> rfl
  rw [hleft, hright]
  exact htext

/-- The text of an expression that can be read back determines its phrase. -/
theorem Writable.phrase?_eq_of_print_eq {t u : Term} (ht : t.Writable) (hu : u.Writable)
    (h : t.print .standard = u.print .standard) : t.phrase? = u.phrase? := by
  obtain ⟨v, r, hv, hvt, -⟩ := ht.read_gives .fresh ""
  obtain ⟨w, r', hw, hwu, -⟩ := hu.read_gives .fresh ""
  rw [h, hw] at hv
  cases hv
  exact hvt.symm.trans hwu

/-- Closed expressions have the same text by level exactly if they are alpha-equivalent. -/
theorem print_byLevel_eq_iff {s t : Term} (hs : s.Bound []) (hsn : s.binders.Nodup)
    (ht : t.Bound []) (htn : t.binders.Nodup) :
    s.print .byLevel = t.print .byLevel ↔ s.AlphaEquiv t := by
  rw [print_byLevel hs hsn, print_byLevel ht htn]
  constructor
  · intro h
    have hphrase := hs.boundAt.writable_levelled.phrase?_eq_of_print_eq
      ht.boundAt.writable_levelled h
    rw [List.length_nil, Nameless.phrase?_levelled, Nameless.phrase?_levelled] at hphrase
    exact ⟨hs, ht, Nameless.form_eq_of_levelPhrase_eq hs.boundAt ht.boundAt
      (Option.some.inj hphrase)⟩
  · rintro ⟨-, -, hform⟩
    rw [← Nameless.levelled_form, hform, Nameless.levelled_form]

end Term

/-! ### Expressions that read the same -/

theorem Display.argument_binder_eq (d : Display) {L M : Levels} {b c : Binder}
    (h : (b.recursive, L.lookup b) = (c.recursive, M.lookup c)) (x : String) :
    d.argument L (.binder b) x = d.argument M (.binder c) x := by
  obtain ⟨hmark, hlevel⟩ := Prod.mk.inj h
  rw [argument, argument, mark, mark, level, level, hmark, hlevel]

namespace Term

/-- Where levels are not shown, it does not matter what they are. -/
theorem printWith_of_levels_eq_false {d : Display} (hd : d.levels = false) (t : Term)
    (L M : Levels) (inHeader : Bool) : t.printWith d L inHeader = t.printWith d M inHeader := by
  have hargument : ∀ l x, d.argument L l x = d.argument M l x := by
    intro l x
    cases l <;> simp [Display.argument, Display.level, hd]
  induction t generalizing inHeader with
  | missing => rfl
  | foreign => rfl
  | ref x l => rw [printWith, printWith, hargument]
  | lam b x t ih => rw [printWith, printWith, hargument, ih]
  | app f a ihf iha => rw [printWith, printWith, ihf, iha]

theorem print_eq_printWith (d : Display) (t : Term) :
    t.print d = t.printWith d (t.levelsFrom 0) false := by
  have hlevels : t.print d = t.printWith d (if d.levels then t.levelsFrom 0 else []) false := by
    cases t <;> rfl
  rw [hlevels]
  cases hd : d.levels with
  | true => rfl
  | false => exact printWith_of_levels_eq_false hd t _ _ false

theorem isApp_eq_of_nameless_eq {t u : Term} {Γ Δ : List Binder}
    (h : t.nameless Γ = u.nameless Δ) : t.isApp = u.isApp := by
  rw [← isApp_levelled t Γ 0, h, isApp_levelled]

/-- Two expressions that read the same have the same text, if the functions around them are
shown in the same way. -/
theorem printWith_eq_of_nameless_eq {d : Display} {t u : Term} {Γ Δ : List Binder}
    {L M : Levels} {n : Nat} (ht : t.Scoped Γ) (hu : u.Scoped Δ)
    (h : t.nameless Γ = u.nameless Δ)
    (hΓ : Γ.map (fun b => (b.recursive, L.lookup b)) = Δ.map fun b => (b.recursive, M.lookup b))
    (hL : ∀ p ∈ t.levelsFrom n, L.lookup p.1 = some p.2)
    (hM : ∀ p ∈ u.levelsFrom n, M.lookup p.1 = some p.2) (inHeader : Bool) :
    t.printWith d L inHeader = u.printWith d M inHeader := by
  induction t generalizing u Γ Δ n inHeader with
  | missing => exact ht.elim
  | foreign => exact ht.elim
  | app f a ihf iha =>
    obtain ⟨g, b, rfl, hf, ha⟩ := eq_of_nameless_eq_app hu h.symm
    have hleft := ihf ht.1 hu.1 hf.symm hΓ (fun p hp => hL p (List.mem_append_left _ hp))
      (fun p hp => hM p (List.mem_append_left _ hp)) false
    have hright := iha ht.2 hu.2 ha.symm hΓ (fun p hp => hL p (List.mem_append_right _ hp))
      (fun p hp => hM p (List.mem_append_right _ hp)) false
    rw [printWith, printWith, hleft, hright, isApp_eq_of_nameless_eq ha.symm]
  | lam b x t ih =>
    obtain ⟨c, u, rfl, hmark, hbody⟩ := eq_of_nameless_eq_lam hu h.symm
    have hb : L.lookup b = some n := hL (b, n) List.mem_cons_self
    have hc : M.lookup c = some n := hM (c, n) List.mem_cons_self
    have hshown : (b.recursive, L.lookup b) = (c.recursive, M.lookup c) := by
      rw [hb, hc, hmark]
    have htext := ih (Γ := b :: Γ) (Δ := c :: Δ) ht hu hbody.symm
      (congrArg₂ List.cons hshown hΓ) (fun p hp => hL p (List.mem_cons_of_mem _ hp))
      (fun p hp => hM p (List.mem_cons_of_mem _ hp)) true
    rw [printWith, printWith, d.argument_binder_eq hshown, htext]
  | ref x l =>
    cases l with
    | reference k own => exact ht.elim
    | endless => exact ht.elim
    | free =>
      rw [eq_of_nameless_eq_free hu h.symm]
      rfl
    | binder b =>
      obtain ⟨c, rfl⟩ := eq_of_nameless_eq_bound hu h.symm
      have hindex := (Nameless.bound.inj h).1
      -- the two functions are at the same position, so they are shown in the same way
      have hshown := congrArg (·[Γ.idxOf b]?) hΓ
      simp only [List.getElem?_map] at hshown
      rw [List.getElem?_idxOf ht, hindex, List.getElem?_idxOf hu] at hshown
      rw [printWith, printWith, d.argument_binder_eq (Option.some.inj hshown)]

/-- Well-scoped expressions that read the same have the same text. -/
theorem print_eq_of_nameless_eq {t u : Term} (ht : t.WellScoped) (hu : u.WellScoped)
    (h : t.nameless [] = u.nameless []) (d : Display) : t.print d = u.print d := by
  rw [print_eq_printWith, print_eq_printWith]
  exact printWith_eq_of_nameless_eq (L := t.levelsFrom 0) (M := u.levelsFrom 0) ht.links
    hu.links h rfl (fun _ hp => lookup_levelsFrom ht.nodup hp)
    (fun _ hp => lookup_levelsFrom hu.nodup hp) false

end Term

/-! ### Comparison by text -/

/-- **The text by level is a canonical form that agrees with comparison.**  Two expressions
that share no function, in each of which no function occurs twice and every reference belongs
to a function around it, can be printed with levels only, and their texts are equal exactly if
comparing them finds them to be the same. -/
theorem print_eq_iff_identical {s t : Term} (hs : s.Bound []) (hsn : s.binders.Nodup)
    (ht : t.Bound []) (htn : t.binders.Nodup) (hapart : s.binders.Disjoint t.binders) :
    ∃ text text', s.print? .byLevel = .ok text ∧ t.print? .byLevel = .ok text' ∧
      (text = text' ↔ s.identical t = .ok true) := by
  have hprint : ∀ {u : Term}, u.Bound [] → u.print? .byLevel = .ok (u.print .byLevel) := by
    intro u hu
    rw [Term.print?, Term.printIn?, (hu.ranging []).plain.hasKnot_eq_false, if_neg (by decide)]
    rfl
  have hcomparable : s.Comparable t := ⟨hs.ranging _, ht.ranging _, hsn, htn, .inl hapart⟩
  refine ⟨_, _, hprint hs, hprint ht, ?_⟩
  rw [Term.print_byLevel_eq_iff hs hsn ht htn, hcomparable.identical_eq]
  exact ⟨fun h => congrArg Except.ok (decide_eq_true h),
    fun h => of_decide_eq_true (Except.ok.inj h)⟩

/-- Eleven functions, one in another, so that a level has two digits.  The second expression
has other functions with other names and marks. -/
theorem print_eq_iff_identical_eleven :
    let s := (List.range 11).foldr (fun k u => Term.lam ⟨k, false⟩ "x" u)
      (.app (.ref "x" (.binder ⟨10, false⟩)) (.ref "x" (.binder ⟨1, false⟩)))
    let t := (List.range 11).foldr (fun k u => Term.lam ⟨k + 11, true⟩ "y" u)
      (.app (.ref "y" (.binder ⟨21, true⟩)) (.ref "y" (.binder ⟨12, true⟩)))
    s.print? .byLevel = .ok "[0 1 2 3 4 5 6 7 8 9 10. 10 1]" ∧
      t.print? .byLevel = s.print? .byLevel ∧ s.identical t = .ok true := by
  intro s t
  have hs : s.print? .byLevel = .ok "[0 1 2 3 4 5 6 7 8 9 10. 10 1]" := by decide +kernel
  have ht : t.print? .byLevel = .ok "[0 1 2 3 4 5 6 7 8 9 10. 10 1]" := by decide +kernel
  obtain ⟨text, text', htext, htext', hiff⟩ := print_eq_iff_identical (s := s) (t := t)
    (by decide) (by decide) (by decide) (by decide)
    (by unfold List.Disjoint; decide)
  refine ⟨hs, ht.trans hs.symm, hiff.mp ?_⟩
  rw [hs] at htext
  rw [ht] at htext'
  exact (Except.ok.inj htext).symm.trans (Except.ok.inj htext')

end LambdaScript
