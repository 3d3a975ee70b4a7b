/-
LambdaScript/Proofs/Programs.lean

What the names stand for that a program defines.

A program is a series of pieces of text, one for each entry; a piece may have blanks and
comments behind its entry.  `Defines R text x v` says of a piece that it defines `x`, and that
`R` leads from what is written to `v`.  It is about the piece alone: reading does not look
ahead, and the keys of functions do not matter.

`Program G texts G'` puts pieces together.  Each takes effect before the next is read, so `G'`
is `G` with a name more for each piece.  A session that knows `G` and has enough depth runs
through the pieces and knows `G'` afterwards (`Program.passes`, `Program.runText_eq_ok`).
Before the first piece there may be a gap, in which comments are not next to each other.

Whether closed pieces are a program is found by `glossary?`.

Main results: `Program.runText_eq_ok`, `Program.mono` and `program_of_glossary?`.
-/
import LambdaScript.Proofs.Gaps
import LambdaScript.Proofs.Lookahead
import LambdaScript.Proofs.Numerals
import LambdaScript.Proofs.Recursion
import LambdaScript.Proofs.Supply

namespace LambdaScript

open Nameless (Reduces unmarked evaluate)

/-! ### Pieces of a program -/

/-- The reading of a text whose first character is in hand, with an unused supply. -/
def Reading.begin (text : List Char) : Reading :=
  ⟨⟨text.head?, text.tail, .start⟩, 0⟩

theorem Reading.shows_begin (text : List Char) : (Reading.begin text).scanner.Shows text :=
  ⟨rfl, rfl⟩

/-- A text that is read as a definition of `x` where `stop` follows.  What is written is reduced to
`v` in the sense of `R`, or it is `v` and not to be reduced. -/
def DefinesBefore (R : Nameless String → Nameless String → Prop) (stop text : List Char)
    (x : String) (v : Nameless String) : Prop :=
  ∃ body reduced r, Parse.entry (.begin (text ++ stop)) = .ok (.define x body reduced) r ∧
    r.scanner.Shows stop ∧ body ≠ .missing ∧
    if reduced then R (body.nameless []) v else body.nameless [] = v

/-- A piece that defines `x`, after which the text ends or another entry begins. -/
structure Defines (R : Nameless String → Nameless String → Prop) (text : List Char) (x : String)
    (v : Nameless String) : Prop where
  starts : text.head? = some 'd'
  last : DefinesBefore R [] text x v
  next : DefinesBefore R ['d'] text x v

/-- Pieces that are read one after the other.  None defines a name that is known already. -/
inductive Program : Glossary → List (List Char) → Glossary → Prop
  | nil {G} : Program G [] G
  | cons {G text x v texts G'} : x ∉ G.map Prod.fst →
      Defines (Reduces G .normal unmarked) text x v → Program ((x, v) :: G) texts G' →
      Program G (text :: texts) G'

variable {R S : Nameless String → Nameless String → Prop} {G G' G'' H : Glossary}
  {text tail : List Char} {texts texts' : List (List Char)} {x : String} {v : Nameless String}

theorem DefinesBefore.imp {stop : List Char} (h : DefinesBefore R stop text x v)
    (hS : ∀ {u}, R u v → S u v) : DefinesBefore S stop text x v := by
  obtain ⟨body, reduced, r, hread, hr, hbody, hv⟩ := h
  refine ⟨body, reduced, r, hread, hr, hbody, ?_⟩
  cases reduced with
  | true => exact hS hv
  | false => exact hv

theorem Defines.imp (h : Defines R text x v) (hS : ∀ {u}, R u v → S u v) :
    Defines S text x v :=
  ⟨h.starts, h.last.imp hS, h.next.imp hS⟩

/-- If `R` leads on to all but finitely many of the relations `S`, so does a definition. -/
theorem DefinesBefore.eventually {S : Nat → Nameless String → Nameless String → Prop}
    {stop : List Char} (h : DefinesBefore R stop text x v)
    (hS : ∀ {u}, R u v → ∀ᶠ n in Filter.atTop, S n u v) :
    ∀ᶠ n in Filter.atTop, DefinesBefore (S n) stop text x v := by
  obtain ⟨body, reduced, r, hread, hr, hbody, hv⟩ := h
  cases reduced with
  | true =>
    filter_upwards [hS hv] with n hn
    exact ⟨body, true, r, hread, hr, hbody, hn⟩
  | false => exact .of_forall fun n => ⟨body, false, r, hread, hr, hbody, hv⟩

theorem Defines.eventually {S : Nat → Nameless String → Nameless String → Prop}
    (h : Defines R text x v) (hS : ∀ {u}, R u v → ∀ᶠ n in Filter.atTop, S n u v) :
    ∀ᶠ n in Filter.atTop, Defines (S n) text x v := by
  filter_upwards [h.last.eventually hS, h.next.eventually hS] with n hlast hnext
  exact ⟨h.starts, hlast, hnext⟩

namespace Program

theorem subset (h : Program G texts G') : G ⊆ G' := by
  induction h with
  | nil => exact List.Subset.refl _
  | cons _ _ _ ih => exact List.Subset.trans (List.subset_cons_self _ _) ih

theorem append (h : Program G texts G') (h' : Program G' texts' G'') :
    Program G (texts ++ texts') G'' := by
  induction h with
  | nil => exact h'
  | cons hx hdefines _ ih => exact .cons hx hdefines (ih h')

/-- A program does the same where more names are known, if it defines none of these. -/
theorem mono (h : Program G texts G') (hG : G ⊆ H)
    (hnew : ∀ y ∈ H.map Prod.fst, y ∈ G'.map Prod.fst → y ∈ G.map Prod.fst) :
    ∃ H', Program H texts H' ∧ G' ⊆ H' ∧ H ⊆ H' := by
  induction h generalizing H with
  | nil => exact ⟨H, .nil, hG, List.Subset.refl H⟩
  | @cons G text x v texts G' hx hdefines hprogram ih =>
    have hxG' : x ∈ G'.map Prod.fst := List.mem_map_of_mem (hprogram.subset List.mem_cons_self)
    have hxH : x ∉ H.map Prod.fst := fun hxH => hx (hnew x hxH hxG')
    obtain ⟨H', hH', hG', hsub⟩ := ih (H := (x, v) :: H) (List.cons_subset_cons _ hG)
      (by
        intro y hy hyG'
        rcases List.mem_cons.mp hy with rfl | hy
        · exact List.mem_cons_self
        · exact List.mem_cons_of_mem _ (hnew y hy hyG'))
    exact ⟨H', .cons hxH (hdefines.imp fun h => h.mono hG) hH', hG',
      List.Subset.trans (List.subset_cons_self _ _) hsub⟩

end Program

/-! ### Reading a piece -/

/-- The text ends, or another entry begins. -/
def EndsPiece (tail : List Char) : Prop :=
  tail = [] ∨ tail.head? = some 'd'

theorem EndsPiece.exists_stop (h : EndsPiece tail) :
    ∃ stop rest, tail = stop ++ rest ∧ (stop = [] ∧ rest = [] ∨ stop = ['d']) := by
  rcases h with rfl | h
  · exact ⟨[], [], rfl, .inl ⟨rfl, rfl⟩⟩
  · obtain ⟨rest, rfl⟩ := List.head?_eq_some_iff.mp h
    exact ⟨['d'], rest, rfl, .inr rfl⟩

/-- A piece is read in the same way wherever it stands. -/
theorem Defines.entry_eq_ok (h : Defines R text x v) (htail : EndsPiece tail) {r : Reading}
    (hr : r.scanner.Shows (text ++ tail)) :
    ∃ body reduced r', Parse.entry r = .ok (.define x body reduced) r' ∧
      r'.scanner.Shows tail ∧ body.Scoped [] ∧ body.Tidy r'.next ∧
      if reduced then R (body.nameless []) v else body.nameless [] = v := by
  obtain ⟨stop, rest, rfl, hstop⟩ := htail.exists_stop
  have hdefines : DefinesBefore R stop text x v := by
    rcases hstop with ⟨rfl, -⟩ | rfl
    · exact h.last
    · exact h.next
  obtain ⟨body, reduced, r₀, hread, hshows, hbody, hv⟩ := hdefines
  have hscoped : body.Scoped [] :=
    ((Parse.entry_eq_ok hread).body.resolve_left fun hmissing => hbody hmissing.1).lexical.scoped
  -- with another supply, a copy of the same body is read
  obtain ⟨hcopy, hreads⟩ : (body.copy r.next).1.Scoped [] ∧
      (body.copy r.next).1.nameless [] = body.nameless [] :=
    Term.nameless_copy hscoped fun _ hc => absurd hc List.not_mem_nil
  have htidy := (Term.grown_copy .missing body r.next).tidy
    ⟨List.nodup_nil, fun _ hb => absurd hb List.not_mem_nil⟩
  have hsupply := Parse.entry_of_ok hread r.next
  -- what follows the stop is not seen
  obtain ⟨text, rfl⟩ := List.head?_eq_some_iff.mp h.starts
  have hext : Reading.Extends rest ⟨(Reading.begin ('d' :: text ++ stop)).scanner, r.next⟩ r := by
    refine ⟨⟨hr.current, ?_⟩, rfl⟩
    rw [hr.rest]
    exact (List.append_assoc text stop rest).symm
  have hbefore : r₀.scanner.Before rest := by
    rcases hstop with ⟨-, rfl⟩ | rfl
    · exact .inr rfl
    · exact .inl (by rw [hshows.current]; nofun)
  obtain ⟨r', hr', hext'⟩ := (Parse.unseeing_entry _ _ _ hsupply hbefore).2 r hext
  refine ⟨(body.copy r.next).1, reduced, r', hr', ?_, hcopy, hext'.next ▸ htidy, hreads ▸ hv⟩
  refine ⟨?_, ?_⟩
  · rw [hext'.scanner.current, hshows.current]
    rcases hstop with ⟨rfl, rfl⟩ | rfl <;> rfl
  · rw [hext'.scanner.rest, hshows.rest]
    rcases hstop with ⟨rfl, rfl⟩ | rfl <;> rfl

/-! ### Running the pieces -/

/-- A session with these limits and this way of printing has come to `text`, in which the names
of `G` stand for what `G` says. -/
structure Session.Stands (l : Limits) (d : Display) (G : Glossary) (text : List Char)
    (σ : Session) : Prop where
  limits : σ.limits = l
  display : σ.display = d
  trail : σ.trail = []
  table : σ.table.Provides G
  shows : σ.reading.scanner.Shows text

variable {l : Limits} {d : Display} {σ : Session} {t body : Term} {u : Nameless String}

theorem Session.Stands.supplied (h : σ.Stands l d G text) (next : Nat) :
    (σ.supplied next).Stands l d G text :=
  ⟨h.limits, h.display, h.trail, h.table, h.shows⟩

theorem Session.Stands.of_subset (h : σ.Stands l d G text) (hsub : H ⊆ G) : σ.Stands l d H text :=
  ⟨h.limits, h.display, h.trail, fun p hp => h.table p (hsub hp), h.shows⟩

theorem Table.Provides.bind {D : Table} (h : D.Provides G) (hx : x ∉ G.map Prod.fst)
    (body : Term) : (D.bind x body).Provides G := by
  intro p hp
  have hne : p.1 ≠ x := fun heq => hx (heq ▸ List.mem_map_of_mem hp)
  rw [Table.find?_bind_of_ne hne]
  exact h p hp

theorem Table.Provides.define {D : Table} (h : D.Provides G) (hx : x ∉ G.map Prod.fst)
    (hbody : body.Scoped []) : (D.bind x body).Provides ((x, body.nameless []) :: G) := by
  intro p hp
  rcases List.mem_cons.mp hp with rfl | hp
  · exact ⟨_, D.find?_bind_self x body, hbody, rfl⟩
  · exact h.bind hx body p hp

/-- A session reduces an expression as the rules say, and only its supply of keys changes. -/
theorem Act.reduce_of_attained {place : Place}
    (h : Attained G .normal unmarked (t.nameless []) v σ.limits.depth) (hr : 2 ≤ σ.limits.rounds)
    (htrail : σ.trail = []) (hplace : place.Provides G) (ht : t.Scoped [])
    (htidy : t.Tidy σ.reading.next) :
    ∃ r next, Act.reduce false .normal place t σ = .ok r (σ.supplied next) ∧ r.Scoped [] ∧
      r.Tidy next ∧ r.nameless [] = v := by
  have hvisits : ∀ w ∈ σ.trail, w = .other ∨ ∃ b ∈ ([] : List Binder), w = .function b := by
    rw [htrail]
    exact fun _ hw => absurd hw List.not_mem_nil
  have hprepared : Prepared G unmarked [] ⟨.normal, place, σ.trail⟩ σ.reading.next t :=
    ⟨hplace, rfl, fun _ hb => absurd hb List.not_mem_nil, ht, htidy,
      fun _ hb => absurd hb List.not_mem_nil, hvisits⟩
  obtain ⟨r, p, next, hreduce, hlinks, hreads⟩ :=
    h.reach (s := ⟨false, σ.display, σ.limits.rounds⟩) (e := ⟨σ.reading.next, []⟩) rfl hr
      hprepared rfl rfl
  refine ⟨r, next, ?_, hlinks, ((runs_of_reduce hreduce).grown htidy).tidy htidy, hreads⟩
  rw [Act.reduce, Act.reduceAs, reduceAs_visit, hreduce]
  show EStateM.Result.ok r (Act.settle σ ⟨next, []⟩) = _
  simp [Act.settle, Session.supplied]

/-- A definition is performed. -/
theorem Act.perform_define {reduced : Bool} (hσ : σ.Stands l d G text) (hr : 2 ≤ l.rounds)
    (hx : x ∉ G.map Prod.fst) (hbody : body.Scoped []) (htidy : body.Tidy σ.reading.next)
    (hv : if reduced then Attained G .normal unmarked (body.nameless []) v l.depth
      else body.nameless [] = v) :
    ∃ σ', perform (.define x body reduced) σ = .ok () σ' ∧ σ'.Stands l d ((x, v) :: G) text := by
  obtain ⟨rfl, hdisplay, htrail, htable, hshows⟩ := hσ
  cases reduced with
  | false =>
    refine ⟨{ σ with table := σ.table.bind x body }, rfl, rfl, hdisplay, htrail, ?_, hshows⟩
    obtain rfl : body.nameless [] = v := hv
    exact htable.define hx hbody
  | true =>
    -- `x` is bound already while its body is reduced, but it is not a name of `G`
    have hplace : (Place.whole (σ.table.bind x body) x).Provides G := by
      intro here
      rw [Place.definitions_whole]
      exact (htable.bind hx body).bind hx here
    obtain ⟨r, next, hreduce, hlinks, -, rfl⟩ := Act.reduce_of_attained
      (σ := { σ with table := σ.table.bind x body }) hv hr htrail hplace hbody htidy
    refine ⟨{ σ.supplied next with table := (σ.table.bind x body).bind x r }, ?_, rfl, hdisplay,
      htrail, (htable.bind hx body).define hx hlinks, hshows⟩
    exact Outcome.bind_of_ok hreduce

/-- With so many reductions inside one another, every session that knows `G` performs one entry
for each piece and knows `G'` then. -/
def Passes (depth : Nat) (G : Glossary) (texts : List (List Char)) (G' : Glossary) : Prop :=
  ∀ {l : Limits} {d : Display} {tail : List Char} {σ : Session}, l.depth = depth →
    2 ≤ l.rounds → EndsPiece tail → σ.Stands l d G (texts.flatten ++ tail) →
    ∃ σ', (∀ n, Act.entries (texts.length + n) σ = Act.entries n σ') ∧ σ'.Stands l d G' tail

/-- The first entry, where there is one, is read and performed before the others. -/
theorem Act.entries_succ {c : Char} {σ' : Session} (hc : σ.reading.scanner.current = some c)
    (h : Act.entry σ = .ok () σ') (n : Nat) : Act.entries (n + 1) σ = Act.entries n σ' := by
  have hcurrent : Act.parse Parse.current σ = .ok (some c) σ := by
    show EStateM.Result.ok σ.reading.scanner.current σ = _
    rw [hc]
  rw [Act.entries]
  exact (Outcome.bind_of_ok hcurrent).trans (Outcome.bind_of_ok h)

theorem Defines.passes {depth : Nat} (h : Defines (Attained G .normal unmarked · · depth) text x v)
    (hx : x ∉ G.map Prod.fst) : Passes depth G [text] ((x, v) :: G) := by
  intro l d tail σ hdepth hrounds htail hσ
  rw [List.flatten_cons, List.flatten_nil, List.append_nil] at hσ
  obtain ⟨body, reduced, r, hread, hshows, hscoped, htidy, hv⟩ := h.entry_eq_ok htail hσ.shows
  have hσ₁ : ({ σ with reading := r } : Session).Stands l d G tail :=
    ⟨hσ.limits, hσ.display, hσ.trail, hσ.table, hshows⟩
  obtain ⟨σ', hperform, hσ'⟩ :=
    Act.perform_define hσ₁ hrounds hx hscoped htidy (hdepth ▸ hv)
  have hparse : Act.parse Parse.entry σ
      = .ok (.define x body reduced) { σ with reading := r } := by
    rw [Act.parse, hread]
  have hcurrent : σ.reading.scanner.current = some 'd' := by
    rw [hσ.shows.current, List.head?_append, h.starts]
    rfl
  refine ⟨σ', fun n => ?_, hσ'⟩
  rw [List.length_singleton, Nat.add_comm]
  exact Act.entries_succ hcurrent ((Outcome.bind_of_ok hparse).trans hperform) n

theorem Program.endsPiece_flatten (h : Program G texts G') (htail : EndsPiece tail) :
    EndsPiece (texts.flatten ++ tail) := by
  cases h with
  | nil => exact htail
  | cons _ hdefines _ =>
    refine .inr ?_
    rw [List.flatten_cons, List.append_assoc, List.head?_append, hdefines.starts]
    rfl

theorem Program.passes (h : Program G texts G') :
    ∀ᶠ depth in Filter.atTop, Passes depth G texts G' := by
  induction h with
  | nil =>
    refine Filter.Eventually.of_forall fun depth => ?_
    intro l d tail σ _ _ _ hσ
    exact ⟨σ, fun n => by rw [List.length_nil, Nat.zero_add], hσ⟩
  | @cons G text x v texts G' hx hdefines hprogram ih =>
    have hattained := hdefines.eventually
      (S := fun depth u v => Attained G .normal unmarked u v depth) fun h => h.attained (.inl rfl)
    filter_upwards [hattained, ih] with depth hfirst hrest
    intro l d tail σ hdepth hrounds htail hσ
    rw [← List.singleton_append, List.flatten_append, List.append_assoc] at hσ
    obtain ⟨σ₁, hfirst, hσ₁⟩ :=
      hfirst.passes hx hdepth hrounds (hprogram.endsPiece_flatten htail) hσ
    obtain ⟨σ₂, hrest, hσ₂⟩ := hrest hdepth hrounds htail hσ₁
    refine ⟨σ₂, fun n => ?_, hσ₂⟩
    rw [List.length_cons, Nat.add_comm _ 1, Nat.add_assoc]
    exact (hfirst _).trans (hrest n)

/-- The end of the text. -/
theorem Act.entries_of_end (hσ : σ.reading.scanner.current = none) (n : Nat) :
    Act.entries (n + 1) σ = .ok () σ := by
  have hcurrent : Act.parse Parse.current σ = .ok none σ := by
    show EStateM.Result.ok σ.reading.scanner.current σ = _
    rw [hσ]
  rw [Act.entries]
  exact Outcome.bind_of_ok hcurrent

theorem Program.length_le (h : Program G texts G') : texts.length ≤ texts.flatten.length := by
  induction h with
  | nil => exact Nat.le_refl 0
  | @cons G text x v texts G' _ hdefines _ ih =>
    obtain ⟨rest, rfl⟩ := List.head?_eq_some_iff.mp hdefines.starts
    rw [List.flatten_cons, List.length_append, List.length_cons, List.length_cons]
    omega

/-- Blanks and comments that are skipped where the text ends or an entry follows. -/
def Skipped (header : List Char) : Prop :=
  ∀ {s : Scanner} {text : List Char}, EndsPiece text → s.Shows (header ++ text) →
    s.skip.2.Shows text

/-- A gap whose comments are apart is skipped: what follows is neither a blank nor a `/`. -/
theorem skipped_of_gap {header : List Char} (ps : List Piece) (hspaced : Spaced ps)
    (hgap : ∀ text, Gap (Closes Scanner.EndsAt) ps (header ++ text) text) : Skipped header := by
  intro s text htext hs
  have hunblanked : Unblanked text := by
    rintro c hc
    rcases htext with rfl | hd
    · cases hc
    · cases hd.symm.trans hc
      decide
  have hslash : text.head? ≠ some '/' := by
    rcases htext with rfl | hd
    · nofun
    · rw [hd]
      decide
  exact (Scanner.resume_shows_iff (hgap text) hunblanked hs .blank).mpr
    ⟨spaced_blank_cons.mpr hspaced, fun _ => hslash⟩

theorem Act.takeUp_eq_ok {header : List Char} (hheader : Skipped header) (h : EndsPiece text)
    (σ : Session) : ∃ s : Scanner, s.Shows text ∧ Act.takeUp (header ++ text) σ
      = .ok () { σ with reading := { σ.reading with scanner := s }, textState := .closed } := by
  let s : Scanner := ⟨(header ++ text).head?, (header ++ text).tail,
    σ.reading.scanner.location.after (header ++ text).head?⟩
  exact ⟨s.skip.2, hheader (s := s) h ⟨rfl, rfl⟩, rfl⟩

/-- **A program is run.**  Where nothing is being reduced, a session with enough depth runs all
pieces of a program, and then the names stand for what the program says. -/
theorem Program.runText_eq_ok {header : List Char} (hheader : Skipped header)
    (h : Program [] texts G) :
    ∀ᶠ depth in Filter.atTop, ∀ σ : Session, σ.limits.depth = depth → 2 ≤ σ.limits.rounds →
      σ.trail = [] → ∃ σ', Act.runText (header ++ texts.flatten) σ = .ok () σ' ∧
        σ'.Stands σ.limits σ.display G [] := by
  filter_upwards [h.passes] with depth hpasses
  intro σ hdepth hrounds htrail
  have hends := h.endsPiece_flatten (.inl rfl)
  rw [List.append_nil] at hends
  obtain ⟨s, hs, htakeUp⟩ := Act.takeUp_eq_ok hheader hends σ
  let σ₁ : Session :=
    { σ with reading := { σ.reading with scanner := s }, textState := .closed }
  have hσ₁ : σ₁.Stands σ.limits σ.display [] (texts.flatten ++ []) :=
    ⟨rfl, rfl, htrail, fun _ hp => absurd hp List.not_mem_nil, (List.append_nil _).symm ▸ hs⟩
  obtain ⟨σ₂, hentries, hσ₂⟩ := hpasses hdepth hrounds (.inl rfl) hσ₁
  refine ⟨σ₂, ?_, hσ₂⟩
  have hbound : Act.parse Parse.bound σ₁ = .ok (texts.flatten.length + 1) σ₁ := by
    show EStateM.Result.ok (s.remaining + 1) σ₁ = _
    rw [hs.remaining_eq]
  -- there are no more entries than characters, so the bound on entries is not reached
  obtain ⟨n, hn⟩ := Nat.exists_eq_add_of_le h.length_le
  refine (Outcome.bind_of_ok htakeUp).trans ((Outcome.bind_of_ok hbound).trans ?_)
  rw [hn, Nat.add_assoc, hentries]
  exact Act.entries_of_end hσ₂.shows.current n

/-! ### Finding what a program defines -/

/-- What a piece defines, as far as it can be found by computation; `n` bounds the number of
reductions inside one another. -/
def definition? (n : Nat) (G : Glossary) (stop text : List Char) :
    Option (String × Nameless String) :=
  match Parse.entry (.begin (text ++ stop)) with
  | .ok (.define x body reduced) r =>
    if r.scanner.current = stop.head? ∧ r.scanner.rest = stop.tail ∧ body ≠ .missing then
      (if reduced then evaluate G n .normal unmarked (body.nameless [])
        else some (body.nameless [])).map (x, ·)
    else none
  | _ => none

/-- What is known after some pieces. -/
def glossary? (n : Nat) : Glossary → List (List Char) → Option Glossary
  | G, [] => some G
  | G, text :: texts => do
    let p ← definition? n G [] text
    if text.head? = some 'd' ∧ p.1 ∉ G.map Prod.fst ∧ definition? n G ['d'] text = some p then
      glossary? n (p :: G) texts
    else none

theorem definesBefore_of_definition? {n : Nat} {stop : List Char}
    (h : definition? n G stop text = some (x, v)) :
    DefinesBefore (Reduces G .normal unmarked) stop text x v := by
  unfold definition? at h
  split at h
  · next y body reduced r hread =>
    split at h
    · next hr =>
      obtain ⟨w, hw, heq⟩ := Option.map_eq_some_iff.mp h
      cases heq
      refine ⟨body, reduced, r, hread, ⟨hr.1, hr.2.1⟩, hr.2.2, ?_⟩
      cases reduced with
      | true => exact Nameless.reduces_of_evaluate hw
      | false => exact Option.some.inj hw
    · cases h
  · cases h

/-- What is found is what the program defines. -/
theorem program_of_glossary? {n : Nat} (h : glossary? n G texts = some G') :
    Program G texts G' := by
  induction texts generalizing G with
  | nil =>
    cases h
    exact .nil
  | cons text texts ih =>
    obtain ⟨⟨x, v⟩, hp, h⟩ := Option.bind_eq_some_iff.mp h
    split at h
    · next hpiece =>
      exact .cons hpiece.2.1 ⟨hpiece.1, definesBefore_of_definition? hp,
        definesBefore_of_definition? hpiece.2.2⟩ (ih h)
    · cases h

end LambdaScript
