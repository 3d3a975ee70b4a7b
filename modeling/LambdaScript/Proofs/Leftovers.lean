/-
LambdaScript/Proofs/Leftovers.lean

What a failure leaves on the trail is of no account.

A reduction that fails does not take back what it has put on the trail, and the
next one starts with these leftovers below its own entries.  Whether a recursive
function is applied depends on the trail, so they could make a difference.  They do
not, because nothing that is looked at later refers to a function among them: what is
read has functions from the supply, and what is unfolded is a copy, whose references
belong to functions of the copy even when the definition was left half reduced.

The statements have the form of a lifting.  `atop stale` puts leftovers below a trail,
and every task does the same with them as without, up to `atop stale`
(`reduce_atop`); then so does every entry, and every program (`runFile_atop`).  The
hypothesis on the leftovers is that their functions are older than what is at hand
(`Past`), and for sessions that they are older than the supply (`Session.Aged`).

Main result: `runFile_forgets_trail`.
-/
import LambdaScript.Proofs.Sessions

namespace LambdaScript

/-! ### Outcomes up to a change -/

namespace Outcome

variable {ε σ α β : Type} {g : ε → ε} {h : σ → σ}

/-- The outcome with its error and its state changed. -/
def map (g : ε → ε) (h : σ → σ) : EStateM.Result ε σ α → EStateM.Result ε σ α
  | .ok a s => .ok a (h s)
  | .error err s => .error (g err) (h s)

/-- Two sequences have the same outcome up to a change if their parts have. -/
theorem bind_eq_map {x x' : EStateM ε σ α} {f f' : α → EStateM ε σ β} {s s' : σ}
    (hx : x' s' = map g h (x s))
    (hf : ∀ a s₁, x s = .ok a s₁ → f' a (h s₁) = map g h (f a s₁)) :
    (x' >>= f') s' = map g h ((x >>= f) s) := by
  rcases hs : x s with ⟨a, s₁⟩ | ⟨err, s₁⟩
  · rw [hs] at hx
    rw [bind_of_ok hx, bind_of_ok hs, hf a s₁ hs]
  · rw [hs] at hx
    rw [bind_of_error hx, bind_of_error hs, map]

end Outcome

/-! ### Leftovers -/

/-- The function of an entry, if it is one. -/
def Visit.function? : Visit → Option Binder
  | .function b => some b
  | _ => none

/-- The functions on a trail. -/
def Trail.functions (trail : Trail) : List Binder :=
  trail.filterMap Visit.function?

theorem Trail.mem_functions {trail : Trail} {b : Binder} :
    b ∈ trail.functions ↔ .function b ∈ trail := by
  rw [functions, List.mem_filterMap]
  constructor
  · rintro ⟨v, hv, heq⟩
    cases v <;> cases heq
    exact hv
  · exact fun hv => ⟨_, hv, rfl⟩

/-- The entries of `stale` have to do with nothing in the expression `t` below the functions
`Γ`: none of their functions is in it or around it. -/
structure Past (stale : Trail) (Γ : List Binder) (next : Nat) (t : Term) : Prop where
  visible : .missing ∉ stale
  around : ∀ b ∈ stale.functions, b ∉ Γ
  apart : Term.Apart stale.functions next t

namespace Past

variable {stale : Trail} {Γ : List Binder} {next next' : Nat} {t t' f f' a a' : Term} {b : Binder}
  {x : String}

theorem grown (h : Past stale Γ next t) (ht : Term.Grown next t next' t') :
    Past stale Γ next' t' :=
  ⟨h.visible, h.around, ht.apart h.apart⟩

theorem fn (h : Past stale Γ next (.app f a)) : Past stale Γ next f :=
  ⟨h.visible, h.around, h.apart.fn⟩

theorem arg (h : Past stale Γ next (.app f a)) : Past stale Γ next a :=
  ⟨h.visible, h.around, h.apart.arg⟩

theorem body (h : Past stale Γ next (.lam b x t)) (ht : (Term.lam b x t).Tidy next) :
    Past stale (b :: Γ) next t := by
  refine ⟨h.visible, fun c hc hmem => ?_, fun c hc => ?_⟩
  · rcases List.mem_cons.mp hmem with rfl | hmem
    · exact h.apart.notMem hc
    · exact h.around c hc hmem
  · exact (h.apart.body ht) c (List.mem_cons_of_mem _ hc)

theorem fnDone (h : Past stale Γ next (.app f a)) (ht : (Term.app f a).Tidy next)
    (hf : Term.Grown next f next' f') : Past stale Γ next' (.app f' a) :=
  h.grown (.app ht hf (ht.arg.mono hf.le).grown)

theorem argDone (h : Past stale Γ next (.app f a)) (ht : (Term.app f a).Tidy next)
    (ha : Term.Grown next a next' a') : Past stale Γ next' (.app f a') :=
  h.grown (.app ht ht.fn.grown ha)

theorem beta (h : Past stale Γ next (.app (.lam b x t) a))
    (ht : (Term.app (.lam b x t) a).Tidy next) :
    Past stale Γ (t.subst b a next).2 (t.subst b a next).1 :=
  h.grown (Term.grown_subst b a ht.fn.body).of_redex

/-- Leftovers are never found by a reference that is free or belongs to a function in or
around the expression. -/
theorem containsRecursive_eq (h : Past stale Γ next t) (ht : t.Formed Γ) (hb : t.Tidy next)
    (trail : Trail) : t.containsRecursive (trail ++ stale) = t.containsRecursive trail := by
  induction t generalizing Γ with
  | missing => rfl
  | foreign => rfl
  | app f a ihf iha =>
    simp only [Term.containsRecursive, ihf h.fn ht.1 hb.fn, iha h.arg ht.2 hb.arg]
  | lam b x t ih => simp only [Term.containsRecursive, ih (h.body hb) ht.2 hb.body]
  | ref x l =>
    cases l with
    | free =>
      have hmissing := h.visible
      simp [Term.containsRecursive, Link.isRecursive, Link.isOn, hmissing]
    | binder b =>
      have hout : .function b ∉ stale := fun hv =>
        h.around b (Trail.mem_functions.mpr hv) ht
      simp [Term.containsRecursive, Link.isRecursive, Link.isOn, hout]
    | reference k own => exact ht.elim
    | endless => exact ht.elim

end Past

/-! ### Reductions -/

/-- The failure with leftovers below its trail. -/
def Failure.atop (f : Failure) (stale : Trail) : Failure :=
  { f with trail := f.trail ++ stale }

/-- The circumstances with leftovers below their trail. -/
def Circumstance.atop (c : Circumstance) (stale : Trail) : Circumstance :=
  { c with trail := c.trail ++ stale }

/-- The outcome of a reduction with leftovers below its trail. -/
abbrev Reduce.atop {α : Type} (stale : Trail) :
    EStateM.Result Failure Effects α → EStateM.Result Failure Effects α :=
  Outcome.map (·.atop stale) id

section Reductions

variable {stale : Trail} {s : Setting} {Γ : List Binder} {c : Circumstance} {t f a : Term}
  {e : Effects}

theorem ask_atop {α : Type} (stale : Trail) (c : Circumstance) (here : Term)
    (answer : Except Fault α) (e : Effects) :
    (c.atop stale).ask here answer e = Reduce.atop stale (c.ask here answer e) := by
  cases answer <;> rfl

variable {again : Reducer}
  (hagain : ∀ {c t e r e'}, again c t e = .ok r e' → Runs s .reduce c t e r e')
  (hatop : ∀ {Γ c t e}, c.place.Holds Γ e.next t → Past stale Γ e.next t →
    again (c.atop stale) t e = Reduce.atop stale (again c t e))

include hatop

theorem applyWith_atop (ht : c.place.Holds Γ e.next t) (hp : Past stale Γ e.next t) :
    applyWith again s (c.atop stale) t e = Reduce.atop stale (applyWith again s c t e) := by
  cases t with
  | missing => rfl
  | foreign => rfl
  | lam b x t => rfl
  | ref x l => rfl
  | app f a =>
    cases f with
    | missing => rfl
    | foreign => rfl
    | app g b => rfl
    | lam b x t =>
      exact hatop (c := c.afterBeta b x t a) (e := e.made _) ht.beta (hp.beta ht.tidy)
    | ref x l =>
      simp only [applyWith]
      split
      · exact Outcome.bind_eq_map (ask_atop stale c _ _ e) fun line e₁ _ => rfl
      · rfl

include hagain

theorem unrollWith_atop (rounds : Nat) (ht : c.place.Holds Γ e.next t)
    (hp : Past stale Γ e.next t) :
    unrollWith again s rounds (c.atop stale) t e
      = Reduce.atop stale (unrollWith again s rounds c t e) := by
  induction rounds generalizing c t e with
  | zero => rfl
  | succ rounds ih =>
    unfold unrollWith
    refine Outcome.bind_eq_map (ask_atop stale c _ _ e) fun unrolls e₁ hask => ?_
    obtain ⟨-, rfl⟩ := Circumstance.ask_eq_ok hask
    split
    · split
      · rename_i f a arg
        -- the left side is applied in its place, and then the rest is unrolled
        refine Outcome.bind_eq_map (applyWith_atop
          (c := (c.down (.function arg)).inMode .applyRecursive) hatop ht.fn hp.fn)
          fun r e₁ happly => ?_
        have hrun := runs_of_applyWith hagain happly
        have hgrown := hrun.grown ht.tidy.fn
        exact ih (ht.fnDone hgrown (hrun.holds ht.fn).formed) (hp.fnDone ht.tidy hgrown)
      · refine Outcome.bind_eq_map (applyWith_atop (c := c.inMode .applyRecursive) hatop ht hp)
          fun r e₁ happly => ?_
        have hrun := runs_of_applyWith hagain happly
        exact ih (c := c.moved r.2) (hrun.holds ht) (hp.grown (hrun.grown ht.tidy))
      · exact ih ht hp
    · rfl

theorem reduceApplicationWith_atop (ht : c.place.Holds Γ e.next (.app f a))
    (hp : Past stale Γ e.next (.app f a)) :
    reduceApplicationWith again s (c.atop stale) f a e
      = Reduce.atop stale (reduceApplicationWith again s c f a e) := by
  have hmode : (c.atop stale).mode = c.mode := rfl
  have hrec := ask_atop stale c (.app f a) f.isRecursive e
  unfold reduceApplicationWith
  rcases hm : c.mode with - | - | -
  · -- normal: the second question is the one that looks at the trail
    simp only [hmode, hm]
    refine Outcome.bind_eq_map hrec fun recursive e₁ hask => ?_
    obtain ⟨-, rfl⟩ := Circumstance.ask_eq_ok hask
    split
    · have hcontains := hp.arg.containsRecursive_eq ht.formed.2 ht.tidy.arg c.trail
      rw [show (c.atop stale).trail = c.trail ++ stale from rfl, hcontains]
      refine Outcome.bind_eq_map (ask_atop stale c _ _ _) fun contains e₁ hask => ?_
      obtain ⟨-, rfl⟩ := Circumstance.ask_eq_ok hask
      split
      · rfl
      refine Outcome.bind_eq_map (ask_atop stale c _ _ _) fun unrolls e₁ hask => ?_
      obtain ⟨-, rfl⟩ := Circumstance.ask_eq_ok hask
      split
      · refine Outcome.bind_eq_map (unrollWith_atop hagain hatop s.rounds ht hp)
          fun r₁ e₁ hunroll => ?_
        have hrun₁ := runs_of_unrollWith hagain hunroll
        have ht₁ := hrun₁.holds ht
        have hp₁ := hp.grown (hrun₁.grown ht.tidy)
        refine Outcome.bind_eq_map (applyWith_atop
          (c := (c.moved r₁.2).inMode .doneRecursive) hatop ht₁ hp₁) fun r₂ e₂ happly => ?_
        have hrun₂ := runs_of_applyWith hagain happly
        exact hatop (c := (c.moved r₂.2).inMode .normal) (hrun₂.holds ht₁)
          (hp₁.grown (hrun₂.grown ht₁.tidy))
      · rfl
    · exact applyWith_atop hatop ht hp
  · simp only [hmode, hm]
    rfl
  · simp only [hmode, hm]
    refine Outcome.bind_eq_map hrec fun recursive e₁ hask => ?_
    obtain ⟨-, rfl⟩ := Circumstance.ask_eq_ok hask
    split
    · rfl
    · exact applyWith_atop hatop ht hp

theorem reduceWith_atop (ht : c.place.Holds Γ e.next t) (hp : Past stale Γ e.next t) :
    reduceWith again s (c.atop stale) t e = Reduce.atop stale (reduceWith again s c t e) := by
  cases t with
  | missing => rfl
  | foreign => rfl
  | lam b x t =>
    exact Outcome.bind_eq_map (hatop (c := (c.within (.function b)).down (.body b x)) ht.body
      (hp.body ht.tidy)) fun r e₁ _ => rfl
  | ref x l =>
    cases l with
    | binder b => rfl
    | reference k own => rfl
    | endless => rfl
    | free =>
      have hplace : (c.atop stale).place = c.place := rfl
      rcases hbody : c.place.lookUp (.ref x .free) x with - | body
      · simp only [reduceWith, reduceVisiting, hplace, hbody]
        rfl
      · simp only [reduceWith, reduceVisiting, hplace, hbody]
        exact hatop (c := (c.within .other).moved (c.place.leave (.ref x .free)))
          (e := e.made _) (ht.unfold hbody) (hp.grown (Term.grown_copy _ body e.next))
  | app f a =>
    rcases hstays : (Term.app f a).stays with - | -
    · rw [reduceWith_app hstays, reduceWith_app hstays]
      refine Outcome.bind_eq_map (hatop (c := (c.within .other).down (.function a)) ht.fn hp.fn)
        fun r₁ e₁ hf => ?_
      have hrun₁ := hagain hf
      have hgrown₁ := hrun₁.grown ht.tidy.fn
      have ht₁ := ht.fnDone hgrown₁ (hrun₁.holds ht.fn).formed
      have hp₁ := hp.fnDone ht.tidy hgrown₁
      refine Outcome.bind_eq_map (hatop (c := (c.within .other).down (.argument r₁.1)) ht₁.arg
        hp₁.arg) fun r₂ e₂ ha => ?_
      have hrun₂ := hagain ha
      have hgrown₂ := hrun₂.grown ht₁.tidy.arg
      exact reduceApplicationWith_atop (c := c.within .other) hagain hatop
        (ht₁.argDone hgrown₂ (hrun₂.holds ht₁.arg).formed) (hp₁.argDone ht₁.tidy hgrown₂)
    · cases f with
      | missing => rfl
      | foreign => cases hstays
      | app g b => cases hstays
      | lam b x t => cases hstays
      | ref x l => cases hstays

end Reductions

/-- **Leftovers change nothing about a reduction** of something they have nothing to do
with, except that they are still there when it fails. -/
theorem reduce_atop (s : Setting) (depth : Nat) {stale : Trail} {Γ : List Binder}
    {c : Circumstance} {t : Term} {e : Effects} (ht : c.place.Holds Γ e.next t)
    (hp : Past stale Γ e.next t) :
    reduce s depth (c.atop stale) t e = Reduce.atop stale (reduce s depth c t e) := by
  induction depth generalizing Γ c t e with
  | zero => rfl
  | succ depth ih => exact reduceWith_atop runs_of_reduce ih ht hp

/-! ### What is left on the trail -/

/-- The entry cannot be found by a reference, except to a function that is older than the
supply. -/
def Visit.Older (next : Nat) : Visit → Prop
  | .function b => b.key < next
  | .other => True
  | _ => False

/-- Every entry of the trail is older than the supply. -/
def Trail.Older (next : Nat) (trail : Trail) : Prop :=
  ∀ v ∈ trail, v.Older next

namespace Trail.Older

variable {trail stale : Trail} {next next' : Nat}

theorem mono (h : trail.Older next) (hle : next ≤ next') : trail.Older next' := by
  intro v hv
  have hold := h v hv
  cases v with
  | function b => exact Nat.lt_of_lt_of_le hold hle
  | other => trivial
  | missing => exact hold
  | reference k => exact hold

theorem other (h : trail.Older next) : Trail.Older next (.other :: trail) :=
  List.forall_mem_cons.mpr ⟨trivial, h⟩

theorem function (h : trail.Older next) {b : Binder} (hb : b.key < next) :
    Trail.Older next (.function b :: trail) :=
  List.forall_mem_cons.mpr ⟨hb, h⟩

/-- What is made from the supply has nothing to do with what is older. -/
theorem past (h : stale.Older next) {t : Term} (ht : Term.Grown next .missing next' t) :
    Past stale [] next' t := by
  refine ⟨fun hv => h _ hv, fun _ _ => List.not_mem_nil, fun b hb => ?_⟩
  have hkey : b.key < next := h _ (Trail.mem_functions.mp hb)
  refine ⟨Nat.lt_of_lt_of_le hkey ht.le, fun hmem => ?_⟩
  rcases ht.old_or_new b hmem with hold | hnew
  · exact absurd hold List.not_mem_nil
  · exact absurd hkey (Nat.not_lt.mpr hnew.1)

end Trail.Older

/-- A reduction that fails leaves entries that are older than the supply. -/
theorem Breaks.older {s : Setting} {task : Task} {c : Circumstance} {t : Term} {e e' : Effects}
    {err : Failure} (h : Breaks s task c t e err e') (ht : t.Tidy e.next)
    (hc : c.trail.Older e.next) : err.trail.Older e'.next := by
  induction h with
  | tooDeep _ => exact hc
  | @unfold c x body e err e' _ _ ih =>
    have hgrown := Term.grown_copy (.ref x .free) body e.next
    exact ih (hgrown.tidy ht) (hc.other.mono hgrown.le)
  | lam _ ih => exact ih ht.body (hc.function ht.key_lt)
  | fn _ _ ih => exact ih ht.fn hc.other
  | arg _ h₁ _ ih =>
    have hle := (h₁.grown ht.fn).le
    exact ih (ht.arg.mono hle) (hc.other.mono hle)
  | app _ h₁ h₂ _ ih =>
    have hgrown₁ := h₁.grown ht.fn
    have hgrown := Term.Grown.app ht hgrown₁ (h₂.grown (ht.arg.mono hgrown₁.le))
    exact ih (hgrown.tidy ht) (hc.other.mono hgrown.le)
  | stumble _ => exact hc
  | contract _ _ _ ih => exact ih ht hc
  | recurUnroll _ _ ih => exact ih ht hc
  | recurApply _ h₁ _ ih =>
    have hgrown := h₁.grown ht
    exact ih (hgrown.tidy ht) (hc.mono hgrown.le)
  | recurReduce _ h₁ h₂ _ ih =>
    have hgrown₁ := h₁.grown ht
    have hgrown := hgrown₁.trans (h₂.grown (hgrown₁.tidy ht))
    exact ih (hgrown.tidy ht) (hc.mono hgrown.le)
  | nothingToApply => exact hc
  | notAnApplication _ _ => exact hc
  | @beta c b x t a e err e' _ ih =>
    have hgrown := Term.grown_subst b a ht.fn.body
    exact ih (hgrown.tidy ht.fn.body) (hc.mono hgrown.le)
  | act _ _ _ => exact hc
  | puzzle _ => exact hc
  | inner _ _ ih => exact ih ht.fn hc
  | innerRest _ h₁ _ ih =>
    have hgrown₁ := h₁.grown ht.fn
    have hgrown := Term.Grown.app ht hgrown₁ (ht.arg.mono hgrown₁.le).grown
    exact ih (hgrown.tidy ht) (hc.mono hgrown.le)
  | outer _ _ ih => exact ih ht hc
  | outerRest _ h₁ _ ih =>
    have hgrown := h₁.grown ht
    exact ih (hgrown.tidy ht) (hc.mono hgrown.le)

/-! ### Sessions -/

namespace Session

/-- The session with leftovers below its trail. -/
def atop (s : Session) (stale : Trail) : Session :=
  { s with trail := s.trail ++ stale }

/-- The session is sound, and its trail is older than the supply. -/
structure Aged (s : Session) : Prop where
  sound : s.Sound
  older : s.trail.Older s.reading.next

end Session

/-- Performing an entry that has been read leaves an older trail. -/
theorem Performed.older {s s' : Session} {entry : Entry} {err : Option SessionError}
    (h : Performed s entry err s') {next : Nat} (hentry : entry.Read next s.reading.next)
    (hs : s.trail.Older s.reading.next) : s'.trail.Older s'.reading.next := by
  have htidy : entry.body.Tidy s.reading.next := hentry.grown.1.tidy ⟨List.nodup_nil, nofun⟩
  cases h with
  | bound => exact hs
  | defined hreduction => exact hs.mono ((runs_of_reduce hreduction).grown htidy).le
  | broken hreduction => exact (breaks_of_reduce hreduction).older htidy hs
  | executed hreduction => exact hs.mono ((runs_of_reduce hreduction).grown htidy).le
  | interrupted hreduction => exact (breaks_of_reduce hreduction).older htidy hs
  | untold _ => exact hs
  | unfinished hreduction _ => exact hs.mono ((runs_of_reduce hreduction).grown htidy).le

theorem aged_after_entry {s : Session} (hs : s.Aged) : (Outcome.after Act.entry s).Aged := by
  refine ⟨Act.keeping_entry s hs.sound, ?_⟩
  rcases hparse : Act.parse Parse.entry s with ⟨entry, s₁⟩ | ⟨err, s₁⟩
  · obtain ⟨r, hr, rfl⟩ := Act.parse_eq_ok hparse
    obtain ⟨err, hperformed⟩ := Act.performed_after entry { s with reading := r }
    have hread := Parse.entry_eq_ok hr
    rw [Act.entry, Outcome.after_bind_of_ok hparse]
    exact hperformed.older hread (hs.older.mono hread.grown.1.le)
  · obtain ⟨halt, r, hr, rfl⟩ := Act.parse_eq_error hparse
    have hle := (Parse.along_entry movement_next_le fun _ => Nat.le_succ _).of_error hr
    rw [Act.entry, Outcome.after_bind_of_error hparse]
    exact hs.older.mono hle

theorem course_aged : Course fun s s' => s.Aged → s'.Aged where
  refl _ hs := hs
  trans h h' hs := h' (h hs)
  read _ _ hle hs := ⟨hs.sound.mono hle, hs.older.mono hle⟩
  say _ _ hs := ⟨hs.sound, hs.older⟩
  close _ hs := ⟨hs.sound, hs.older⟩
  entry _ := aged_after_entry

/-- The trail of a reachable session is older than the supply. -/
theorem Session.Reachable.aged {s : Session} (h : s.Reachable) : s.Aged := by
  induction h with
  | starting limits => exact ⟨Table.wellFormed_empty 0, nofun⟩
  | written path text _ ih =>
    refine ⟨ih.sound.withFile path text, ?_⟩
    unfold Session.withFile
    dsimp only
    split
    · exact ih.older
    · exact ih.older
  | run path _ _ ih => exact course_aged.runFile path _ ih

namespace Act

variable {stale : Trail} {α β : Type} {s : Session} {t : Term}

/-! ### Entries -/

theorem reduce_atop {execute : Bool} {p : Place} (ht : p.Holds [] s.reading.next t)
    (hp : Past stale [] s.reading.next t) :
    reduce execute .normal p t (s.atop stale)
      = Outcome.map id (·.atop stale) (reduce execute .normal p t s) := by
  have hreduce : LambdaScript.reduce
      ⟨execute, (s.atop stale).display, (s.atop stale).limits.rounds⟩ (s.atop stale).limits.depth
      ⟨.normal, p, (s.atop stale).trail⟩ t ⟨(s.atop stale).reading.next, []⟩
      = Reduce.atop stale (LambdaScript.reduce ⟨execute, s.display, s.limits.rounds⟩ s.limits.depth
        ⟨.normal, p, s.trail⟩ t ⟨s.reading.next, []⟩) :=
    LambdaScript.reduce_atop ⟨execute, s.display, s.limits.rounds⟩ s.limits.depth
      (c := ⟨.normal, p, s.trail⟩) (e := ⟨s.reading.next, []⟩) ht hp
  rw [reduce, reduceAs, reduceAs, LambdaScript.reduceAs_visit, LambdaScript.reduceAs_visit, hreduce]
  rcases LambdaScript.reduce ⟨execute, s.display, s.limits.rounds⟩ s.limits.depth
    ⟨.normal, p, s.trail⟩ t ⟨s.reading.next, []⟩ with ⟨⟨r, q⟩, e⟩ | ⟨f, e⟩ <;> rfl

/-- Telling an expression does not look at the trail. -/
theorem tell_atop (label : String) (t : Term) (s : Session) :
    tell label t (s.atop stale) = Outcome.map id (·.atop stale) (tell label t s) := by
  refine Outcome.bind_eq_map (?_ : textOf t (s.atop stale) = _) fun text s₁ _ => ?_
  · show ofFault (t.print? s.display) (s.atop stale)
      = Outcome.map id _ (ofFault (t.print? s.display) s)
    cases t.print? s.display <;> rfl
  · show (if s₁.switches.debug then sayLine _ else pure ()) (s₁.atop stale)
      = Outcome.map id _ ((if s₁.switches.debug then sayLine _ else pure ()) s₁)
    split <;> rfl

/-- Leftovers that are older than an entry change nothing about performing it. -/
theorem perform_atop {entry : Entry} {next : Nat} (hd : s.table.WellFormed next)
    (hentry : entry.Read next s.reading.next) (hold : stale.Older next) :
    perform entry (s.atop stale) = Outcome.map id (·.atop stale) (perform entry s) := by
  obtain ⟨hgrown, hformed⟩ := hentry.grown
  have htidy : entry.body.Tidy s.reading.next := hgrown.tidy ⟨List.nodup_nil, nofun⟩
  have hpast := hold.past hgrown
  cases entry with
  | define a t reduced =>
    cases reduced with
    | false => rfl
    | true =>
      have hsound := sound_whole (u := t) hd (hentry.target a rfl) hgrown
      let whole : Act Term := reduce false .normal (.whole (s.table.bind a t) a) t
      show (whole >>= bind a) ({ s with table := s.table.bind a t }.atop stale)
        = Outcome.map id _ ((whole >>= bind a) { s with table := s.table.bind a t })
      exact Outcome.bind_eq_map (reduce_atop ⟨htidy, hformed, hsound⟩ hpast) fun r s₁ _ => rfl
  | execute t =>
    refine Outcome.bind_eq_map (tell_atop _ t s) fun _ s₁ htell => ?_
    obtain ⟨output, rfl⟩ := tell_eq_ok htell
    have hsound := sound_outside (hd.mono hgrown.le) [] t
    exact Outcome.bind_eq_map (s := { s with output := output })
      (reduce_atop ⟨htidy, hformed, hsound⟩ hpast) fun r s₂ _ => tell_atop _ r s₂

/-! ### Programs -/

/-- With leftovers below the trail the same is done as without, and they stay there. -/
def Unaware (stale : Trail) (act : Act α) : Prop :=
  ∀ s : Session, (s.atop stale).Aged →
    act (s.atop stale) = Outcome.map id (·.atop stale) (act s)

namespace Unaware

theorem bind {x : Act α} {f : α → Act β} (hx : Unaware stale x)
    (hkept : Along (fun s s' => s.Aged → s'.Aged) x) (hf : ∀ a, Unaware stale (f a)) :
    Unaware stale (x >>= f) := by
  intro s hs
  refine Outcome.bind_eq_map (hx s hs) fun a s₁ hok => hf a s₁ ?_
  have hatop : x (s.atop stale) = .ok a (s₁.atop stale) := by
    rw [hx s hs, hok]
    rfl
  exact hkept.of_ok hatop hs

/-- The session may be asked for everything but its trail. -/
theorem get {f : Session → Act α} (heq : ∀ s : Session, f (s.atop stale) = f s)
    (hf : ∀ s, Unaware stale (f s)) : Unaware stale (get >>= f) := by
  intro s hs
  show f (s.atop stale) (s.atop stale) = Outcome.map id _ (f s s)
  rw [heq]
  exact hf s s hs

theorem ite {p : Prop} [Decidable p] {x y : Act α} (hx : Unaware stale x) (hy : Unaware stale y) :
    Unaware stale (if p then x else y) := by
  split
  · exact hx
  · exact hy

theorem parse (p : Parse α) : Unaware stale (parse p) := by
  intro s _
  have hreading : (s.atop stale).reading = s.reading := rfl
  unfold Act.parse
  rw [hreading]
  rcases p s.reading with ⟨a, r⟩ | ⟨(e | -), r⟩ <;> rfl

theorem entry : Unaware stale entry := by
  intro s hs
  refine Outcome.bind_eq_map (parse Parse.entry s hs) fun en s₁ hparse => ?_
  obtain ⟨r, hr, rfl⟩ := parse_eq_ok hparse
  have hold : stale.Older s.reading.next := fun v hv => hs.older v (List.mem_append_right _ hv)
  exact perform_atop hs.sound (Parse.entry_eq_ok hr) hold

theorem entries (n : Nat) : Unaware stale (entries n) := by
  induction n with
  | zero => exact fun _ _ => rfl
  | succ n ih =>
    refine bind (parse _) (course_aged.parse movement_next_le.refl) fun k => ite ?_ fun _ _ => rfl
    exact bind entry course_aged.entry fun _ => ih

theorem takeUp (text : List Char) : Unaware stale (takeUp text) :=
  fun _ _ => rfl

theorem infoLine (line : String) : Unaware stale (infoLine line) :=
  get (fun _ => rfl) fun _ => ite (fun _ _ => rfl) fun _ _ => rfl

theorem runText (text : List Char) : Unaware stale (runText text) :=
  bind (takeUp text) (course_aged.takeUp text) fun _ =>
    bind (parse _) (course_aged.parse movement_next_le.refl) fun n => entries n

theorem runFile (path : String) : Unaware stale (runFile path) := by
  refine bind (infoLine _) (course_aged.infoLine _) fun _ => get (fun _ => rfl) fun s => ?_
  rcases s.text path with fault | text
  · cases fault <;> exact fun _ _ => rfl
  · exact bind (runText text) (course_aged.runText text) fun _ => infoLine _

end Unaware

end Act

/-- **What failures have left on the trail is forgotten.**  In every session that comes from
the beginning by writing files and running them, however the runs have ended, a program does
the same as it would with an empty trail: it ends in the same way, with the same error at the
same location if it is one, and it leaves the same session, with the same definitions and the
same text printed.  Only the trail is longer by the leftovers, which lie below everything
else. -/
theorem runFile_forgets_trail {s : Session} (h : s.Reachable) (path : String) :
    let s₀ := { s with trail := [] }
    Outcome.verdict (Act.runFile path) s = Outcome.verdict (Act.runFile path) s₀ ∧
      Outcome.after (Act.runFile path) s = { Outcome.after (Act.runFile path) s₀ with
        trail := (Outcome.after (Act.runFile path) s₀).trail ++ s.trail } := by
  intro s₀
  have hrun : Act.runFile path s = Outcome.map id (·.atop s.trail) (Act.runFile path s₀) :=
    Act.Unaware.runFile path s₀ h.aged
  unfold Outcome.verdict Outcome.after
  rw [hrun]
  rcases Act.runFile path s₀ with ⟨⟨⟩, s'⟩ | ⟨err, s'⟩
  · exact ⟨rfl, rfl⟩
  · exact ⟨rfl, rfl⟩

/-- The first program fails inside the function of `a`.  The second asks whether `z` is on the
trail, and fails inside a copy of the function that the first has left half reduced. -/
theorem runFile_forgets_trail_twice :
    let first := (Session.starting ⟨50, 50⟩).withFile "p" "def a [x. x ([$f. f] q)]"
    let s := (Outcome.after (Act.runFile "p") first).withFile "p"
      "def b [z. [$f. f] z] def c [y. b (a y)]"
    let s₀ := { s with trail := [] }
    s.trail = [.other, .other, .function ⟨0, false⟩] ∧
      (Outcome.after (Act.runFile "p") s₀).trail = [.other, .other, .function ⟨7, false⟩,
        .other, .other, .other, .function ⟨4, false⟩] ∧
      Outcome.verdict (Act.runFile "p") s = Outcome.verdict (Act.runFile "p") s₀ ∧
      Outcome.after (Act.runFile "p") s = { Outcome.after (Act.runFile "p") s₀ with
        trail := (Outcome.after (Act.runFile "p") s₀).trail ++ s.trail } := by
  intro first s s₀
  have hfails : Outcome.verdict (Act.runFile "p") first = .error (.fault .notAnApplication) := by
    decide +kernel
  have hreach : s.Reachable := by
    refine .written "p" _ (.run "p" (.written "p" _ (.starting _)) fun err herr => ?_)
    cases hfails.symm.trans herr
    rfl
  exact ⟨by decide +kernel, by decide +kernel, runFile_forgets_trail hreach "p"⟩

end LambdaScript
