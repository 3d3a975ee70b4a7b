/-
LambdaScript/Proofs/Printing.lean

Reading back what has been printed.

The printer leaves out what the grammar makes up for: an application has no
brackets on its left, functions directly inside one another share a header, and
there is no blank before an opening bracket.  Still the text of an expression is a
form of the grammar, and it denotes the expression's phrase.  The induction on the
expression carries three facts (`Printed`), one for each place where a text can
stand: in a series, as a single expression, and as the rest of a header.

What is read from the text has the same phrase.  The links are not in the text, but
in both expressions they are lexical, so the phrase determines them.

Main result: `outline_eq_of_read_print`.
-/
import LambdaScript.Proofs.Agreement
import LambdaScript.Proofs.Grammar
import LambdaScript.Proofs.Linking

namespace LambdaScript

open Grammar

/-! ### Outlines of lexical expressions -/

namespace Link

theorem lexical_cons (b : Binder) (y x : String) (Γ : List (Binder × String)) :
    lexical ((b, y) :: Γ) x = if y = x then .binder b else lexical Γ x := by
  by_cases h : y = x <;> simp [lexical, h]

/-- A name leads to functions with the same number, where the functions around it have the
same numbers and names. -/
theorem outline_lexical_eq {Γ Δ : List (Binder × String)} {F G : List Binder}
    (h : Γ.map (fun p => (F.idxOf? p.1, p.2)) = Δ.map fun p => (G.idxOf? p.1, p.2)) (x : String) :
    (lexical Γ x).outline F = (lexical Δ x).outline G := by
  induction Γ generalizing Δ with
  | nil =>
    obtain rfl : Δ = [] := List.map_eq_nil_iff.mp h.symm
    rfl
  | cons p Γ ih =>
    obtain ⟨b, y⟩ := p
    rcases Δ with - | ⟨⟨c, z⟩, Δ⟩
    · cases h
    · simp only [List.map_cons, List.cons.injEq, Prod.mk.injEq] at h
      obtain ⟨⟨hnumber, rfl⟩, hrest⟩ := h
      rw [lexical_cons, lexical_cons]
      split
      · exact outline_binder_eq hnumber
      · exact ih hrest

end Link

namespace Term

theorem eq_ref_of_phrase? {t : Term} {x : String} (h : t.phrase? = some (.name x)) :
    ∃ l, t = ref x l := by
  cases t with
  | ref y l =>
    cases h
    exact ⟨l, rfl⟩
  | app f a => simp [phrase?, Option.bind_eq_some_iff] at h
  | lam b y t => simp [phrase?, Option.bind_eq_some_iff] at h
  | missing => cases h
  | foreign => cases h

theorem eq_app_of_phrase? {t : Term} {v w : Phrase} (h : t.phrase? = some (.app v w)) :
    ∃ f a, t = app f a ∧ f.phrase? = some v ∧ a.phrase? = some w := by
  cases t with
  | app f a =>
    simp only [phrase?, Option.bind_eq_bind, Option.bind_eq_some_iff, Option.pure_def,
      Option.some.injEq, Phrase.app.injEq] at h
    obtain ⟨v', hv, w', hw, rfl, rfl⟩ := h
    exact ⟨f, a, rfl, hv, hw⟩
  | lam b y t => simp [phrase?, Option.bind_eq_some_iff] at h
  | ref y l => cases h
  | missing => cases h
  | foreign => cases h

theorem eq_lam_of_phrase? {t : Term} {marked : Bool} {x : String} {w : Phrase}
    (h : t.phrase? = some (.function marked x w)) :
    ∃ b body, t = lam b x body ∧ b.recursive = marked ∧ body.phrase? = some w := by
  cases t with
  | lam b y body =>
    simp only [phrase?, Option.bind_eq_bind, Option.bind_eq_some_iff, Option.pure_def,
      Option.some.injEq, Phrase.function.injEq] at h
    obtain ⟨w', hw, rfl, rfl, rfl⟩ := h
    exact ⟨b, body, rfl, rfl, hw⟩
  | app f a => simp [phrase?, Option.bind_eq_some_iff] at h
  | ref y l => cases h
  | missing => cases h
  | foreign => cases h

/-- Two lexical expressions of one phrase have the same outline within lists of functions
that number their functions, and those around them, in the same way. -/
theorem outlineIn_eq_of_phrase_eq {t u : Term} {w : Phrase} {Γ Δ : List (Binder × String)}
    (ht : t.Lexical Γ) (hu : u.Lexical Δ) (htw : t.phrase? = some w) (huw : u.phrase? = some w) :
    t.binders.length = u.binders.length ∧ ∀ F G : List Binder,
      Γ.map (fun p => (F.idxOf? p.1, p.2)) = Δ.map (fun p => (G.idxOf? p.1, p.2)) →
      t.binders.map (F.idxOf? ·) = u.binders.map (G.idxOf? ·) →
      t.outlineIn F = u.outlineIn G := by
  induction w generalizing t u Γ Δ with
  | name x =>
    obtain ⟨k, rfl⟩ := eq_ref_of_phrase? htw
    obtain ⟨l, rfl⟩ := eq_ref_of_phrase? huw
    obtain rfl : k = .lexical Γ x := ht
    obtain rfl : l = .lexical Δ x := hu
    refine ⟨rfl, fun F G haround _ => ?_⟩
    rw [outlineIn, outlineIn, Link.outline_lexical_eq haround]
  | app v w ihv ihw =>
    obtain ⟨f, a, rfl, hf, ha⟩ := eq_app_of_phrase? htw
    obtain ⟨f', a', rfl, hf', ha'⟩ := eq_app_of_phrase? huw
    obtain ⟨hlength, hfn⟩ := ihv ht.1 hu.1 hf hf'
    obtain ⟨hlength', harg⟩ := ihw ht.2 hu.2 ha ha'
    refine ⟨by rw [binders, binders, List.length_append, List.length_append, hlength, hlength'],
      fun F G haround hnumbers => ?_⟩
    rw [binders, binders, List.map_append, List.map_append] at hnumbers
    obtain ⟨hnumbers, hnumbers'⟩ :=
      List.append_inj hnumbers (by rw [List.length_map, List.length_map, hlength])
    rw [outlineIn, outlineIn, hfn F G haround hnumbers, harg F G haround hnumbers']
  | function marked x w ih =>
    obtain ⟨b, body, rfl, hb, hbody⟩ := eq_lam_of_phrase? htw
    obtain ⟨c, body', rfl, hc, hbody'⟩ := eq_lam_of_phrase? huw
    have hbodies : body.Lexical ((b, x) :: Γ) ∧ body'.Lexical ((c, x) :: Δ) := ⟨ht, hu⟩
    obtain ⟨hlength, hin⟩ := ih hbodies.1 hbodies.2 hbody hbody'
    refine ⟨by rw [binders, binders, List.length_cons, List.length_cons, hlength],
      fun F G haround hnumbers => ?_⟩
    rw [binders, binders, List.map_cons, List.map_cons] at hnumbers
    obtain ⟨hnumber, hnumbers⟩ := List.cons.inj hnumbers
    have haround' : ((b, x) :: Γ).map (fun p => (F.idxOf? p.1, p.2))
        = ((c, x) :: Δ).map fun p => (G.idxOf? p.1, p.2) := by
      rw [List.map_cons, List.map_cons, hnumber, haround]
    rw [outlineIn, outlineIn, hin F G haround' hnumbers, Link.outline_binder_eq hnumber, hb, hc]

theorem outline_eq_of_phrase_eq {t u : Term} {w : Phrase} (ht : t.Lexical []) (hu : u.Lexical [])
    (htw : t.phrase? = some w) (huw : u.phrase? = some w) (htn : t.binders.Nodup)
    (hun : u.binders.Nodup) : t.outline = u.outline := by
  obtain ⟨hlength, hin⟩ := outlineIn_eq_of_phrase_eq ht hu htw huw
  refine hin t.binders u.binders rfl ?_
  rw [map_idxOf?_self htn, map_idxOf?_self hun, hlength]

end Term

/-! ### Expressions that can be written -/

/-- A name that can stand in a header as it is: a plain run of characters of names, without
the mark and not reserved. -/
structure ArgumentName (x : String) : Prop where
  ne_empty : x ≠ ""
  chars : ∀ c ∈ x.toList, isNameChar c = true ∧ c ≠ '/'
  unmarked : x.toList.head? ≠ some '$'
  unreserved : isReserved x = false

theorem ArgumentName.named {x : String} (hx : ArgumentName x) {rest : List Char}
    (hrest : ∀ c ∈ rest.head?, isNameChar c = false) : Named x (x.toList ++ rest) rest :=
  ⟨rfl, hx.ne_empty, fun c hc => (hx.chars c hc).1, hrest⟩

namespace Term

/-- Nothing but names that can stand in a header, applications and functions without the
mark, and no free reference. -/
def Writable : Term → Prop
  | app f a => f.Writable ∧ a.Writable
  | lam b x t => b.recursive = false ∧ ArgumentName x ∧ t.Writable
  | ref x l => ArgumentName x ∧ ∃ b, l = .binder b ∧ b.recursive = false
  | _ => False

/-- In a lexical expression every name is the name of an argument, if no reference is
free. -/
theorem Lexical.writable {t : Term} {Γ : List (Binder × String)} (h : t.Lexical Γ)
    (hΓ : ∀ p ∈ Γ, p.1.recursive = false ∧ ArgumentName p.2)
    (hbound : ∀ o ∈ t.references Γ, o.link ≠ .free) (hunmarked : t.Unmarked)
    (hnames : ∀ x ∈ t.argumentNames, ArgumentName x) : t.Writable := by
  induction t generalizing Γ with
  | missing => exact h
  | foreign => exact h
  | app f a ihf iha =>
    refine ⟨ihf h.1 hΓ ?_ ?_ ?_, iha h.2 hΓ ?_ ?_ ?_⟩
    · exact fun o ho => hbound o (List.mem_append_left _ ho)
    · exact fun b hb => hunmarked b (List.mem_append_left _ hb)
    · exact fun x hx => hnames x (List.mem_append_left _ hx)
    · exact fun o ho => hbound o (List.mem_append_right _ ho)
    · exact fun b hb => hunmarked b (List.mem_append_right _ hb)
    · exact fun x hx => hnames x (List.mem_append_right _ hx)
  | lam b x t ih =>
    have hb : b.recursive = false := hunmarked b List.mem_cons_self
    have hx : ArgumentName x := hnames x List.mem_cons_self
    refine ⟨hb, hx, ih (Γ := (b, x) :: Γ) h ?_ hbound ?_ ?_⟩
    · intro p hp
      rcases List.mem_cons.mp hp with rfl | hp
      · exact ⟨hb, hx⟩
      · exact hΓ p hp
    · exact fun c hc => hunmarked c (List.mem_cons_of_mem b hc)
    · exact fun y hy => hnames y (List.mem_cons_of_mem x hy)
  | ref x l =>
    have hfree : l ≠ .free := hbound ⟨Γ, x, l⟩ List.mem_cons_self
    obtain rfl : l = .lexical Γ x := h
    rcases hfind : Γ.find? (·.2 = x) with - | p
    · exact absurd (by rw [Link.lexical, hfind]) hfree
    · obtain ⟨hp, hname⟩ := hΓ p (List.mem_of_find?_eq_some hfind)
      have hx : p.2 = x := by simpa using List.find?_some hfind
      exact ⟨hx ▸ hname, p.1, by rw [Link.lexical, hfind], hp⟩

/-! ### The text of an expression -/

/-- The characters of an expression as it is printed, `inHeader` when it is the body of a
function. -/
def chars (inHeader : Bool) (t : Term) : List Char :=
  (t.printWith .standard [] inHeader).toList

theorem argument_eq {b : Binder} (hb : b.recursive = false) (x : String) :
    Display.standard.argument [] (.binder b) x = x := by
  simp [Display.argument, Display.mark, Display.level, Display.standard, hb]

variable {f a t : Term} {b : Binder} {x : String}

theorem chars_closeHeader (text : String) :
    (closeHeader true text).toList = '.' :: ' ' :: (text.toList ++ [']']) := by
  rw [closeHeader, if_pos rfl, String.toList_append, String.toList_append]
  rfl

theorem chars_ref (hb : b.recursive = false) : (ref x (.binder b)).chars false = x.toList := by
  rw [chars, printWith, argument_eq hb]
  rfl

theorem chars_ref_header (l : Link) :
    (ref x l).chars true = '.' :: ' ' :: ((ref x l).chars false ++ [']']) :=
  chars_closeHeader _

theorem chars_app_header : (app f a).chars true = '.' :: ' ' :: ((app f a).chars false ++ [']']) :=
  chars_closeHeader _

theorem chars_app : (app f a).chars false = f.chars false ++
    if a.isApp then '(' :: (a.chars false ++ [')']) else ' ' :: a.chars false := by
  rw [chars, printWith, closeHeader, if_neg (by decide), String.toList_append]
  split <;> simp [chars, String.toList_append]

theorem chars_lam : (lam b x t).chars false
    = '[' :: ((Display.standard.argument [] (.binder b) x).toList ++ t.chars true) := by
  simp [chars, printWith, String.toList_append]

theorem chars_lam_header : (lam b x t).chars true
    = ' ' :: ((Display.standard.argument [] (.binder b) x).toList ++ t.chars true) := by
  simp [chars, printWith, String.toList_append]

/-- What follows a name in a header ends it. -/
theorem ends_chars_header (t : Term) (rest : List Char) :
    ∀ c ∈ (t.chars true ++ rest).head?, isNameChar c = false := by
  cases t with
  | lam b x t =>
    rw [chars_lam_header]
    exact ends_cons (by decide) _
  | missing =>
    rw [chars, printWith, chars_closeHeader]
    exact ends_cons (by decide) _
  | foreign =>
    rw [chars, printWith, chars_closeHeader]
    exact ends_cons (by decide) _
  | ref x l =>
    rw [chars_ref_header]
    exact ends_cons (by decide) _
  | app f a =>
    rw [chars_app_header]
    exact ends_cons (by decide) _

end Term

/-! ### The text is a form of the grammar -/

/-- The text begins with a series that denotes the phrase. -/
def InSeries (w : Phrase) (text rest : List Char) : Prop :=
  ∃ v vs, w = .series (v :: vs) ∧ Derives (.series (v :: vs)) text rest

/-- The text is the rest of a header, the body that the header belongs to and the closing
bracket, which together denote the phrase. -/
def InHeader (w : Phrase) (text rest : List Char) : Prop :=
  ∃ args ws t₁ t₂ t₃, w = .functions args (.series ws) ∧ Arguments args text t₁ ∧
    Blanks t₁ ('.' :: t₂) ∧ Derives (.series ws) t₂ t₃ ∧ Closed ']' t₃ rest

section Forms

variable {v w : Phrase} {x : String} {text mid rest : List Char}

theorem derives_append {ws vs : List Phrase} (hws : Derives (.series ws) text mid)
    (hvs : Derives (.series vs) mid rest) : Derives (.series (ws ++ vs)) text rest := by
  induction ws generalizing text with
  | nil =>
    cases hws
    exact hvs
  | cons w ws ih =>
    cases hws with
    | item hblanks hw hws => exact .item hblanks hw (ih hws)

theorem InSeries.of_expression (h : Derives (.expression w) text rest) : InSeries w text rest :=
  ⟨w, [], rfl, .item (.refl text) h .empty⟩

theorem InSeries.app {t₁ : List Char} (hv : InSeries v text mid) (hblanks : Blanks mid t₁)
    (hw : Derives (.expression w) t₁ rest) : InSeries (.app v w) text rest := by
  obtain ⟨u, us, rfl, hus⟩ := hv
  refine ⟨u, us ++ [w], ?_, derives_append hus (.item hblanks hw .empty)⟩
  rw [Phrase.series, Phrase.series, List.foldl_append]
  rfl

theorem InSeries.bracket (h : InSeries w text (')' :: rest)) :
    Derives (.expression w) ('(' :: text) rest := by
  obtain ⟨v, vs, rfl, hvs⟩ := h
  exact .bracket hvs (.refl _) (.inl rfl)

/-- A body that is no function closes the header. -/
theorem InSeries.inHeader (h : InSeries w text (']' :: rest)) :
    InHeader w ('.' :: ' ' :: text) rest := by
  obtain ⟨v, vs, rfl, hvs⟩ := h
  cases hvs with
  | item hblanks hv hvs =>
    exact ⟨[], v :: vs, _, _, _, rfl, .nil, .refl _,
      .item ((blanks_space text).trans hblanks) hv hvs, .inl rfl⟩

theorem InHeader.cons (hx : Argument (false, x) text mid) (h : InHeader w mid rest) :
    InHeader (.function false x w) (' ' :: text) rest := by
  obtain ⟨args, ws, t₁, t₂, t₃, rfl, hargs, hstop, hws, hclosed⟩ := h
  exact ⟨(false, x) :: args, ws, t₁, t₂, t₃, rfl, .cons (blanks_space text) hx hargs, hstop, hws,
    hclosed⟩

theorem InHeader.function (hx : Argument (false, x) text mid) (h : InHeader w mid rest) :
    Derives (.expression (.function false x w)) ('[' :: text) rest := by
  obtain ⟨args, ws, t₁, t₂, t₃, rfl, hargs, hstop, hws, hclosed⟩ := h
  exact .function (List.cons_ne_nil (false, x) args) (.cons (.refl text) hx hargs) hstop hws
    (.refl t₃) hclosed

end Forms

/-- The text of the expression is a form of the phrase, wherever it stands.  A name must not
go on behind it. -/
structure Printed (t : Term) (w : Phrase) : Prop where
  series : ∀ {rest : List Char}, (∀ c ∈ rest.head?, isNameChar c = false) →
    InSeries w (t.chars false ++ rest) rest
  expression : t.isApp = false → ∀ {rest : List Char},
    (∀ c ∈ rest.head?, isNameChar c = false) → Derives (.expression w) (t.chars false ++ rest) rest
  header : ∀ rest : List Char, InHeader w (t.chars true ++ rest) rest

namespace Printed

variable {f a t : Term} {v w : Phrase} {b : Binder} {x : String}

theorem ref (hx : ArgumentName x) (hb : b.recursive = false) :
    Printed (.ref x (.binder b)) (.name x) := by
  have hkeyword : (Keyword.ofName? x).isSome = false :=
    (Bool.or_eq_false_iff.mp hx.unreserved).1
  have hname : ∀ {rest : List Char}, (∀ c ∈ rest.head?, isNameChar c = false) →
      Derives (.expression (.name x)) ((Term.ref x (.binder b)).chars false ++ rest) rest := by
    intro rest hrest
    rw [Term.chars_ref hb]
    exact .name (hx.named hrest) hkeyword
  refine ⟨fun hrest => .of_expression (hname hrest), fun _ _ hrest => hname hrest, fun rest => ?_⟩
  rw [Term.chars_ref_header, List.cons_append, List.cons_append, List.append_assoc]
  exact (InSeries.of_expression (hname (ends_cons (by decide) rest))).inHeader

theorem lam (hx : ArgumentName x) (hb : b.recursive = false) (ht : Printed t w) :
    Printed (.lam b x t) (.function false x w) := by
  have hargument : ∀ rest : List Char,
      Argument (false, x) (x.toList ++ (t.chars true ++ rest)) (t.chars true ++ rest) := fun rest =>
    .plain (hx.named (t.ends_chars_header rest)) hx.unmarked hx.unreserved
  have hfunction : ∀ rest : List Char,
      Derives (.expression (.function false x w)) ((Term.lam b x t).chars false ++ rest) rest := by
    intro rest
    rw [Term.chars_lam, Term.argument_eq hb, List.cons_append, List.append_assoc]
    exact (ht.header rest).function (hargument rest)
  refine ⟨fun _ => .of_expression (hfunction _), fun _ _ _ => hfunction _, fun rest => ?_⟩
  rw [Term.chars_lam_header, Term.argument_eq hb, List.cons_append, List.append_assoc]
  exact (ht.header rest).cons (hargument rest)

theorem app (hf : Printed f v) (ha : Printed a w) : Printed (.app f a) (.app v w) := by
  have hseries : ∀ {rest : List Char}, (∀ c ∈ rest.head?, isNameChar c = false) →
      InSeries (.app v w) ((Term.app f a).chars false ++ rest) rest := by
    intro rest hrest
    rw [Term.chars_app, List.append_assoc]
    cases hfa : a.isApp with
    | true =>
      rw [if_pos rfl, List.cons_append, List.append_assoc]
      exact (hf.series (ends_cons (by decide) _)).app (.refl _)
        (ha.series (ends_cons (by decide) rest)).bracket
    | false =>
      rw [if_neg (by decide), List.cons_append]
      exact (hf.series (ends_cons (by decide) _)).app (blanks_space _) (ha.expression hfa hrest)
  refine ⟨hseries, nofun, fun rest => ?_⟩
  rw [Term.chars_app_header, List.cons_append, List.cons_append, List.append_assoc]
  exact (hseries (ends_cons (by decide) rest)).inHeader

end Printed

theorem Term.Writable.printed {t : Term} (h : t.Writable) :
    ∃ w, t.phrase? = some w ∧ Printed t w := by
  induction t with
  | missing => exact h.elim
  | foreign => exact h.elim
  | app f a ihf iha =>
    obtain ⟨v, hv, hf⟩ := ihf h.1
    obtain ⟨w, hw, ha⟩ := iha h.2
    exact ⟨.app v w, phrase?_app hv hw, hf.app ha⟩
  | lam b x t ih =>
    obtain ⟨hb, hx, ht⟩ := h
    obtain ⟨w, hw, hprinted⟩ := ih ht
    exact ⟨.function false x w, hb ▸ phrase?_lam b x hw, hprinted.lam hx hb⟩
  | ref x l =>
    obtain ⟨hx, b, rfl, hb⟩ := h
    exact ⟨.name x, rfl, .ref hx hb⟩

/-! ### Nothing in the text is a comment or a line end -/

/-- No character of the text starts a comment or is a carriage return. -/
def PlainText (text : List Char) : Prop :=
  ∀ c ∈ text, c ≠ '/' ∧ c ≠ '\r'

namespace PlainText

variable {c : Char} {l m : List Char}

theorem append (hl : PlainText l) (hm : PlainText m) : PlainText (l ++ m) :=
  List.forall_mem_append.mpr ⟨hl, hm⟩

theorem cons (hc : c ≠ '/' ∧ c ≠ '\r') (hl : PlainText l) : PlainText (c :: l) :=
  List.forall_mem_cons.mpr ⟨hc, hl⟩

theorem single (hc : c ≠ '/' ∧ c ≠ '\r') : PlainText [c] :=
  List.forall_mem_singleton.mpr hc

theorem unifyLineEnds_eq (h : PlainText l) : unifyLineEnds l = l := by
  have hreturn : '\r' ∉ l := fun hc => (h _ hc).2 rfl
  clear h
  fun_induction unifyLineEnds l with
  | case1 rest ih => exact absurd List.mem_cons_self hreturn
  | case2 rest _ ih => exact absurd List.mem_cons_self hreturn
  | case3 c rest _ _ ih => rw [ih fun hc => hreturn (List.mem_cons_of_mem c hc)]
  | case4 => rfl

end PlainText

theorem ArgumentName.plainText {x : String} (hx : ArgumentName x) : PlainText x.toList :=
  fun c hc => ⟨(hx.chars c hc).2, fun h => isNameChar_iff.mp (hx.chars c hc).1 (h ▸ by decide)⟩

theorem Term.Writable.plainText {t : Term} (h : t.Writable) (inHeader : Bool) :
    PlainText (t.chars inHeader) := by
  have hclose : ∀ {l : List Char}, PlainText l → PlainText ('.' :: ' ' :: (l ++ [']'])) :=
    fun hl => .cons (by decide) (.cons (by decide) (hl.append (.single (by decide))))
  induction t generalizing inHeader with
  | missing => exact h.elim
  | foreign => exact h.elim
  | ref x l =>
    obtain ⟨hx, b, rfl, hb⟩ := h
    have hname : PlainText ((ref x (.binder b)).chars false) := by
      rw [chars_ref hb]
      exact hx.plainText
    cases inHeader with
    | false => exact hname
    | true =>
      rw [chars_ref_header]
      exact hclose hname
  | lam b x t ih =>
    obtain ⟨hb, hx, ht⟩ := h
    have htail : PlainText (x.toList ++ t.chars true) := hx.plainText.append (ih ht true)
    cases inHeader with
    | false =>
      rw [chars_lam, argument_eq hb]
      exact .cons (by decide) htail
    | true =>
      rw [chars_lam_header, argument_eq hb]
      exact .cons (by decide) htail
  | app f a ihf iha =>
    have happ : PlainText ((app f a).chars false) := by
      rw [chars_app]
      refine (ihf h.1 false).append ?_
      split
      · exact .cons (by decide) ((iha h.2 false).append (.single (by decide)))
      · exact .cons (by decide) (iha h.2 false)
    cases inHeader with
    | false => exact happ
    | true =>
      rw [chars_app_header]
      exact hclose happ

/-! ### Reading back -/

theorem Term.toList_print (t : Term) : (t.print .standard).toList = t.chars false := by
  cases t <;> rfl

/-- The text of an expression, in a file of its own, is read as an expression with the same
phrase. -/
theorem Term.Writable.read_gives {t : Term} (h : t.Writable) (s : Session) (path : String) :
    Parse.Gives (do Parse.advance; let _ ← Parse.skip; Parse.series)
      (s.opened path (t.print .standard)).reading (·.phrase? = t.phrase?) [] := by
  obtain ⟨w, hw, hprinted⟩ := h.printed
  have hend : ∀ c ∈ ([] : List Char).head?, isNameChar c = false := nofun
  obtain ⟨v, vs, rfl, hvs⟩ := hprinted.series hend
  rw [List.append_nil] at hvs
  have hplain := h.plainText false
  -- the first character comes into the hand, and there is no blank to skip
  let r := (s.opened path (t.print .standard)).reading
  let r₁ : Reading := { r with scanner := r.scanner.advance }
  have hadvance : Parse.advance r = .ok () r₁ := rfl
  have hshows : r₁.scanner.Shows (t.chars false) := by
    have htext : unifyLineEnds (t.print .standard).toList = t.chars false := by
      rw [t.toList_print, hplain.unifyLineEnds_eq]
    exact ⟨congrArg List.head? htext, congrArg List.tail htext⟩
  obtain ⟨_, r₂, hskip, -, hr₂⟩ := Parse.skip_gives hshows fun hc => (hplain _ hc).1 rfl
  obtain ⟨u, r₃, hseries, hu, hr₃⟩ := Parse.series_gives hr₂ hvs rfl
  refine ⟨u, r₃, ?_, hu.trans hw.symm, hr₃⟩
  rw [Outcome.bind_of_ok hadvance, Outcome.bind_of_ok hskip]
  exact hseries

/-- **What is printed can be read back.**  Take an expression without marked functions and
free references, in which every reference belongs to the innermost function around it that
bears its name, all functions are different, and every argument has a name that can stand in a
header.  It can be printed, its text is read to the end, and what is read has the same
outline. -/
theorem outline_eq_of_read_print (s : Session) (path : String) {t : Term}
    (hlexical : t.Lexical []) (hbound : ∀ o ∈ t.references [], o.link ≠ .free)
    (hunmarked : t.Unmarked) (hdistinct : t.binders.Nodup)
    (hnames : ∀ x ∈ t.argumentNames, ArgumentName x) :
    ∃ text u r', t.print? .standard = .ok text ∧
      (do Parse.advance; let _ ← Parse.skip; Parse.series) (s.opened path text).reading
        = .ok u r' ∧
      r'.scanner.Shows [] ∧ u.outline = t.outline := by
  have hprint : t.print? .standard = .ok (t.print .standard) := by
    rw [Term.print?, Term.printIn?, hlexical.scoped.plain_true.hasKnot_eq_false, if_neg (by decide)]
    rfl
  have hwritable : t.Writable :=
    hlexical.writable (fun _ hp => absurd hp List.not_mem_nil) hbound hunmarked hnames
  obtain ⟨w, hw, -⟩ := hwritable.printed
  obtain ⟨u, r', hok, hu, hr'⟩ := hwritable.read_gives s path
  refine ⟨t.print .standard, u, r', hprint, hok, hr'.shows, ?_⟩
  obtain ⟨_, r₁, -, h₁⟩ := Outcome.bind_eq_ok hok
  obtain ⟨_, r₂, -, h₂⟩ := Outcome.bind_eq_ok h₁
  have hread := Parse.read_of_series h₂
  exact Term.outline_eq_of_phrase_eq hread.lexical hlexical (hu.trans hw) hw
    (hread.grown .missing).nodup hdistinct

/-- A shared header, an application on the right and an argument that hides another one. -/
theorem outline_eq_of_read_print_hidden :
    let b (n : Nat) : Binder := ⟨n, false⟩
    let t : Term := .lam (b 4) "x" (.lam (b 2) "y" (.app (.ref "x" (.binder (b 4)))
      (.app (.ref "y" (.binder (b 2))) (.lam (b 7) "x" (.ref "x" (.binder (b 7)))))))
    t.print .standard = "[x y. x(y [x. x])]" ∧
    t.outline = "\x7b0 x \x7b1 y (x@0 (y@1 \x7b2 x x@2\x7d))\x7d\x7d" ∧
    ∃ text u r', t.print? .standard = .ok text ∧
      (do Parse.advance; let _ ← Parse.skip; Parse.series)
        ((Session.starting ⟨50, 50⟩).opened "p" text).reading = .ok u r' ∧
      r'.scanner.Shows [] ∧ u.outline = t.outline := by
  intro b t
  have hx : ArgumentName "x" :=
    ⟨by decide, List.forall_mem_singleton.mpr (by decide), by decide, by decide⟩
  have hy : ArgumentName "y" :=
    ⟨by decide, List.forall_mem_singleton.mpr (by decide), by decide, by decide⟩
  have hnames : ∀ z ∈ t.argumentNames, ArgumentName z := by
    simp [t, Term.argumentNames, hx, hy]
  have hlexical : t.Lexical [] := ⟨rfl, rfl, rfl⟩
  exact ⟨by decide +kernel, by decide +kernel,
    outline_eq_of_read_print _ "p" hlexical (by decide) (by decide) (by decide) hnames⟩

end LambdaScript
