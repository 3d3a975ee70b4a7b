/-
LambdaScript/Proofs/Standing.lean

What mode `normal` leaves standing.

A recursive function is not applied while its argument contains recursion, and
that is asked in the light of the trail: a reference to any function that is being
reduced counts.  In the result there is no trail any more.  What can be seen there
instead is that the argument holds a recursive function, or a reference that leads
out of it (`Term.HoldsOff`).

The two agree because no function on the trail lies inside the expression at hand
(`Enclosed`): going down into a function takes it out of what is at hand, and
everything made on the way has a binder of its own.  `Runs.standing` carries this
along every reduction.

Main result: `reduce_normal_standing`.
-/
import LambdaScript.Proofs.Normality
import LambdaScript.Proofs.Simulation

namespace LambdaScript

namespace Term

/-- An argument that a recursive function is not applied to: it holds a recursive
function, or a reference that leads out of it. -/
def HoldsOff (a : Term) : Prop :=
  (∃ c ∈ a.binders, c.recursive = true) ∨ ∃ y c, ref y (.binder c) ∈ a.parts ∧ c ∉ a.binders

/-- If a function stands before an argument, the argument holds it off. -/
def HeldOff : Term → Prop
  | app (lam _ _ _) a => a.HoldsOff
  | _ => True

/-- The references of a scoped expression belong to functions in or around it. -/
theorem Scoped.mem_of_mem_parts {t : Term} {Γ : List Binder} (h : t.Scoped Γ) {y : String}
    {c : Binder} (hy : ref y (.binder c) ∈ t.parts) : c ∈ Γ ∨ c ∈ t.binders := by
  induction t generalizing Γ with
  | missing => exact h.elim
  | foreign => exact h.elim
  | ref x l =>
    obtain ⟨rfl, rfl⟩ := Term.ref.inj (List.mem_singleton.mp hy)
    exact .inl h
  | lam b x t ih =>
    rcases List.mem_cons.mp hy with hy | hy
    · cases hy
    · rcases ih (Γ := b :: Γ) h hy with hc | hc
      · rcases List.mem_cons.mp hc with rfl | hc
        · exact .inr List.mem_cons_self
        · exact .inl hc
      · exact .inr (List.mem_cons_of_mem _ hc)
  | app f a ihf iha =>
    rcases List.mem_cons.mp hy with hy | hy
    · cases hy
    · rcases List.mem_append.mp hy with hy | hy
      · exact (ihf h.1 hy).imp_right (List.mem_append_left _)
      · exact (iha h.2 hy).imp_right (List.mem_append_right _)

/-- A closed argument without recursive functions holds nothing off. -/
theorem not_holdsOff {a : Term} (h : a.Scoped []) (ha : a.Unmarked) : ¬ a.HoldsOff := by
  rintro (⟨c, hc, hrec⟩ | ⟨y, c, hy, hc⟩)
  · rw [ha c hc] at hrec
    cases hrec
  · rcases h.mem_of_mem_parts hy with hnil | hmem
    · cases hnil
    · exact hc hmem

/-- What containing recursion rests on. -/
theorem containsRecursive_eq_true {t : Term} (ht : t.Plain true) {trail : Trail}
    (htrail : .missing ∉ trail) (h : t.containsRecursive trail = .ok true) :
    (∃ c ∈ t.binders, c.recursive = true) ∨
      ∃ y c, ref y (.binder c) ∈ t.parts ∧ (c.recursive = true ∨ .function c ∈ trail) := by
  induction t with
  | missing => exact ht.elim
  | foreign => exact ht.elim
  | ref x l =>
    cases l with
    | free => exact absurd (List.contains_iff_mem.mp (Except.ok.inj h)) htrail
    | binder c =>
      -- the trail is asked only where the mark says no
      refine .inr ⟨x, c, List.mem_cons_self, ?_⟩
      rcases hc : c.recursive with - | -
      · simp only [containsRecursive, Link.isRecursive, hc] at h
        exact .inr (List.contains_iff_mem.mp (Except.ok.inj h))
      · exact .inl rfl
    | reference k own => exact ht.elim
    | endless => exact ht.elim
  | lam b x t ih =>
    rcases hb : b.recursive with - | -
    · simp only [containsRecursive, hb] at h
      rcases ih ht.2 h with ⟨c, hc, hrec⟩ | ⟨y, c, hy, hc⟩
      · exact .inl ⟨c, List.mem_cons_of_mem _ hc, hrec⟩
      · exact .inr ⟨y, c, List.mem_cons_of_mem _ hy, hc⟩
    · exact .inl ⟨b, List.mem_cons_self, hb⟩
  | app f a ihf iha =>
    rcases hf : f.containsRecursive trail with fault | (- | -)
    · simp only [containsRecursive, hf] at h
      cases h
    · simp only [containsRecursive, hf] at h
      rcases iha ht.2 h with ⟨c, hc, hrec⟩ | ⟨y, c, hy, hc⟩
      · exact .inl ⟨c, List.mem_append_right _ hc, hrec⟩
      · exact .inr ⟨y, c, List.mem_cons_of_mem _ (List.mem_append_right _ hy), hc⟩
    · rcases ihf ht.1 hf with ⟨c, hc, hrec⟩ | ⟨y, c, hy, hc⟩
      · exact .inl ⟨c, List.mem_append_left _ hc, hrec⟩
      · exact .inr ⟨y, c, List.mem_cons_of_mem _ (List.mem_append_left _ hy), hc⟩

end Term

/-! ### The trail -/

/-- An expression under reduction inside the functions `bs`: none of them occurs in it,
and nothing else that it could refer to is on the trail. -/
structure Enclosed (bs : List Binder) (trail : Trail) (next : Nat) (t : Term) : Prop where
  tidy : t.Tidy next
  apart : Term.Apart bs next t
  visits : ∀ v ∈ trail, v = .other ∨ ∃ b ∈ bs, v = .function b

namespace Enclosed

variable {bs : List Binder} {trail : Trail} {next next' : Nat} {t t' f a : Term} {b : Binder}
  {x : String}

theorem grown (h : Enclosed bs trail next t) (ht : Term.Grown next t next' t') :
    Enclosed bs trail next' t' :=
  ⟨ht.tidy h.tidy, ht.apart h.apart, h.visits⟩

theorem mono (h : Enclosed bs trail next t) (hle : next ≤ next') : Enclosed bs trail next' t :=
  h.grown ⟨hle, h.tidy.nodup, fun _ hb => .inl hb⟩

theorem fn (h : Enclosed bs trail next (.app f a)) : Enclosed bs trail next f :=
  ⟨h.tidy.fn, h.apart.fn, h.visits⟩

theorem arg (h : Enclosed bs trail next (.app f a)) : Enclosed bs trail next a :=
  ⟨h.tidy.arg, h.apart.arg, h.visits⟩

/-- Something that cannot be referred to is put on the trail. -/
theorem other (h : Enclosed bs trail next t) : Enclosed bs (.other :: trail) next t := by
  refine ⟨h.tidy, h.apart, ?_⟩
  intro v hv
  rcases List.mem_cons.mp hv with rfl | hv
  · exact .inl rfl
  · exact h.visits v hv

/-- A function is put on the trail, and its body is at hand. -/
theorem body (h : Enclosed bs trail next (.lam b x t)) :
    Enclosed (b :: bs) (.function b :: trail) next t := by
  refine ⟨h.tidy.body, h.apart.body h.tidy, ?_⟩
  intro v hv
  rcases List.mem_cons.mp hv with rfl | hv
  · exact .inr ⟨b, List.mem_cons_self, rfl⟩
  · exact (h.visits v hv).imp_right fun ⟨c, hc, heq⟩ => ⟨c, List.mem_cons_of_mem _ hc, heq⟩

/-- Recursion that is found in the light of the trail can be seen without it. -/
theorem holdsOff (h : Enclosed bs trail next a) (ha : a.Plain true)
    (hcontains : a.containsRecursive trail = .ok true) : a.HoldsOff := by
  have hmissing : .missing ∉ trail := by
    intro hv
    rcases h.visits _ hv with heq | ⟨b, -, heq⟩
    · cases heq
    · cases heq
  rcases Term.containsRecursive_eq_true ha hmissing hcontains with hmark | ⟨y, c, hy, hc⟩
  · exact .inl hmark
  · by_cases hin : c ∈ a.binders
    · rcases hc with hrec | hon
      · exact .inl ⟨c, hin, hrec⟩
      · -- a function on the trail is none of the argument's own
        rcases h.visits _ hon with heq | ⟨b, hb, heq⟩
        · cases heq
        · cases heq
          exact absurd hin (h.apart c hb).2
    · exact .inr ⟨y, c, hy, hin⟩

end Enclosed

/-! ### Results -/

/-- In mode `normal` a function that is held back is held off by its argument. -/
theorem Circumstance.HoldsBack.holdsOff {c : Circumstance} {b : Binder} {x : String} {u a : Term}
    (h : c.HoldsBack (.lam b x u) a) (hm : c.mode = .normal) {bs : List Binder} {next : Nat}
    (henc : Enclosed bs c.trail next a) (ha : a.Plain true) : a.HoldsOff := by
  unfold Circumstance.HoldsBack at h
  rw [hm] at h
  obtain ⟨hrec, hcontains | ⟨-, hunrolls⟩⟩ := h
  · exact henc.holdsOff ha hcontains
  · -- a recursive function before an argument always unrolls
    have hb : b.recursive = true := Except.ok.inj hrec
    simp only [Term.unrolls, Term.isRecursive, hb] at hunrolls
    cases hunrolls

theorem Runs.standing {s : Setting} {task : Task} {c : Circumstance} {t : Term} {e e' : Effects}
    {r : Placed} (h : Runs s task c t e r e') (hp : c.place.Plain true) (ht : t.Plain true)
    {bs : List Binder} (henc : Enclosed bs c.trail e.next t) (hm : c.mode = .normal)
    (hs : task.Starts (·.All Term.HeldOff) t) : r.1.All Term.HeldOff := by
  induction h generalizing bs with
  | @stay c t e hstays =>
    cases t with
    | lam b x t => cases hstays
    | app f a =>
      rw [ht.1.stays_app] at hstays
      cases hstays
    | _ => trivial
  | unbound _ => trivial
  | @unfold c x body e r e' hbody _ ih =>
    exact ih (hp.leave ht) ((hp _ ht x body hbody).copy e.next)
      (henc.other.grown (Term.grown_copy _ body e.next)) hm trivial
  | lam _ ih => exact ⟨trivial, ih (hp.body ht) ht.2 henc.body hm trivial⟩
  | app _ hf ha _ ihf iha ih =>
    have hpf := (hf.plain (hp.fn ht.2) ht.1).1
    have hpa := (ha.plain (hp.arg hpf) ht.2).1
    have hgf := hf.grown henc.tidy.fn
    have hga := ha.grown (henc.tidy.arg.mono hgf.le)
    exact ih hp ⟨hpf, hpa⟩ (henc.other.grown (.app henc.tidy hgf hga)) hm
      ⟨ihf (hp.fn ht.2) ht.1 henc.other.fn hm trivial,
        iha (hp.arg hpf) ht.2 (henc.other.arg.mono hgf.le) hm trivial⟩
  | @held c f a e hheld =>
    refine ⟨?_, hs⟩
    cases f with
    | lam b x u => exact hheld.holdsOff hm henc.arg ht.2
    | _ => trivial
  | contract _ _ _ ih => exact ih hp ht henc hm hs
  | recur _ h₁ h₂ _ _ _ ih =>
    -- unrolling makes functions only with new keys, so the trail stays clear of the rest
    have hp₁ := h₁.plain hp ht
    have hp₂ := h₂.plain hp₁.2 hp₁.1
    have hg₁ := h₁.grown henc.tidy
    have hg₂ := h₂.grown (hg₁.tidy henc.tidy)
    exact ih hp₂.2 hp₂.1 (henc.grown (hg₁.trans hg₂)) rfl trivial
  | @beta c b x t a e r e' _ ih =>
    have hgrown := (Term.grown_subst b a henc.tidy.fn.body).of_redex (b := b) (x := x) (a := a)
    refine ih (hp.afterBeta ht) (ht.1.2.subst ht.2 _ _) (henc.grown hgrown) ?_ trivial
    show c.mode.afterApplication = _
    rw [hm]
    rfl
  | act _ _ _ => exact ⟨trivial, trivial⟩
  | @ignored c f a e hignores =>
    refine ⟨?_, hs⟩
    cases f with
    | lam b x u => cases hignores
    | _ => trivial
  | rest _ => exact hs.elim
  | inner _ _ _ _ _ => exact hs.elim
  | outer _ _ _ _ _ => exact hs.elim

/-- **What mode `normal` leaves standing.**  The result of reducing a well-scoped
expression outside of all definitions, when nothing else is being reduced, has no
free reference to a definition; every function in it that stands before an argument
is recursive, and the argument holds a recursive function or a reference that leads
out of it.  So no function stands before a closed argument without recursive
functions.  As always, the supply lies above the keys in use. -/
theorem reduce_normal_standing {s : Setting} {depth : Nat} {d : Table} {t r : Term} {p : Place}
    {e e' : Effects} (ht : t.WellScoped) (hkeys : ∀ b ∈ t.binders, b.key < e.next)
    (hd : d.WellScoped) (h : reduce s depth ⟨.normal, .outside d, []⟩ t e = .ok (r, p) e') :
    (∀ x, Term.ref x .free ∈ r.parts → x ∉ d.names) ∧
    (∀ b x u a, Term.app (.lam b x u) a ∈ r.parts → b.recursive = true ∧ a.HoldsOff) ∧
    ∀ b x u a, a.Scoped [] → a.Unmarked → Term.app (.lam b x u) a ∉ r.parts := by
  have htp := ht.links.plain_true
  have hdp := Table.plain_outside fun x hx => (hd x hx).links.plain_true
  have henc : Enclosed [] [] e.next t :=
    ⟨⟨ht.nodup, hkeys⟩, fun _ hb => absurd hb List.not_mem_nil,
      fun _ hv => absurd hv List.not_mem_nil⟩
  have hrun := runs_of_reduce h
  have hsettled : r.Settled d.names := hrun.settled d.offers_outside hdp htp nofun trivial
  have hstanding : r.All Term.HeldOff := hrun.standing hdp htp henc rfl trivial
  refine ⟨?_, ?_, ?_⟩
  · intro x hmem
    exact Term.All.of_mem_parts hsettled hmem
  · intro b x u a hmem
    have hheld := hstanding.of_mem_parts hmem
    exact ⟨Term.All.of_mem_parts hsettled hmem, hheld⟩
  · intro b x u a hclosed hunmarked hmem
    have hheld := hstanding.of_mem_parts hmem
    exact Term.not_holdsOff hclosed hunmarked hheld

/-- In `[y. [$f. f q] y]` the recursive function stays before its argument, and the
argument leads out to the outer function. -/
theorem reduce_normal_standing_open :
    let y : Term := .ref "y" (.binder ⟨0, false⟩)
    let u : Term := .app (.ref "f" (.binder ⟨1, true⟩)) (.ref "q" .free)
    let t : Term := .lam ⟨0, false⟩ "y" (.app (.lam ⟨1, true⟩ "f" u) y)
    let s : Setting := ⟨true, .standard, 10⟩
    t.WellScoped ∧ reduce s 10 ⟨.normal, .outside ⟨[]⟩, []⟩ t ⟨2, []⟩
        = .ok (t, .outside ⟨[]⟩) ⟨2, []⟩ ∧
      Term.app (.lam ⟨1, true⟩ "f" u) y ∈ t.parts ∧ y.HoldsOff := by
  intro y u t s
  have ht : t.WellScoped := by decide
  have h : reduce s 10 ⟨.normal, .outside ⟨[]⟩, []⟩ t ⟨2, []⟩
      = .ok (t, .outside ⟨[]⟩) ⟨2, []⟩ := rfl
  have hmem : Term.app (.lam ⟨1, true⟩ "f" u) y ∈ t.parts := by decide
  obtain ⟨-, hheld, -⟩ := reduce_normal_standing ht (by decide) (by decide) h
  exact ⟨ht, h, hmem, (hheld _ _ _ _ hmem).2⟩

end LambdaScript
