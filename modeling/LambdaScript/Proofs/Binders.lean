/-
LambdaScript/Proofs/Binders.lean

The discipline of binders: no function occurs twice in an expression, and every
new function gets a key that has not been used.

`Tidy next t` says that the functions of `t` are all different and have keys below
the supply.  `Grown next t next' r` says how an expression may change while the
supply goes from `next` to `next'`: each function of `r` is one of `t` or has one
of the keys used up in between.  Both copying and substitution grow an expression
(`grown_copy`, `grown_subst`), and growing is what every reduction does.

That is enough to know that functions outside an expression stay outside
(`Grown.apart`): neither a function that surrounds it nor one that has been put
on the trail ever turns up inside.
-/
import LambdaScript.Constant
import LambdaScript.Term.Copy
import Mathlib.Data.List.Nodup

namespace LambdaScript

namespace Term

/-- The functions of an expression are all different, and their keys are below the
supply. -/
structure Tidy (next : Nat) (t : Term) : Prop where
  nodup : t.binders.Nodup
  below : ∀ b ∈ t.binders, b.key < next

/-- The functions of `r` are all different; each is one of `t` or has a key from
`next` on and below `next'`. -/
structure Grown (next : Nat) (t : Term) (next' : Nat) (r : Term) : Prop where
  le : next ≤ next'
  nodup : r.binders.Nodup
  old_or_new : ∀ b ∈ r.binders, b ∈ t.binders ∨ next ≤ b.key ∧ b.key < next'

/-- The functions of a list lie outside an expression and have keys below the
supply. -/
def Apart (bs : List Binder) (next : Nat) (t : Term) : Prop :=
  ∀ b ∈ bs, b.key < next ∧ b ∉ t.binders

variable {next next' next'' : Nat} {t r q f f' a a' : Term} {b : Binder} {x : String}
  {bs : List Binder}

/-! ### Parts of tidy expressions -/

theorem Tidy.mono (h : t.Tidy next) (hle : next ≤ next') : t.Tidy next' :=
  ⟨h.nodup, fun b hb => Nat.lt_of_lt_of_le (h.below b hb) hle⟩

theorem Tidy.fn (h : (app f a).Tidy next) : f.Tidy next :=
  ⟨(List.nodup_append.mp h.nodup).1, fun b hb => h.below b (List.mem_append_left _ hb)⟩

theorem Tidy.arg (h : (app f a).Tidy next) : a.Tidy next :=
  ⟨(List.nodup_append.mp h.nodup).2.1, fun b hb => h.below b (List.mem_append_right _ hb)⟩

theorem Tidy.body (h : (lam b x t).Tidy next) : t.Tidy next :=
  ⟨(List.nodup_cons.mp h.nodup).2, fun c hc => h.below c (List.mem_cons_of_mem _ hc)⟩

theorem Tidy.notMem_body (h : (lam b x t).Tidy next) : b ∉ t.binders :=
  (List.nodup_cons.mp h.nodup).1

theorem Tidy.key_lt (h : (lam b x t).Tidy next) : b.key < next :=
  h.below b List.mem_cons_self

/-- The two sides of an application have no function in common. -/
theorem Tidy.notMem_arg (h : (app f a).Tidy next) (hb : b ∈ f.binders) : b ∉ a.binders :=
  fun ha => (List.nodup_append.mp h.nodup).2.2 b hb b ha rfl

theorem Apart.fn (h : Apart bs next (app f a)) : Apart bs next f :=
  fun b hb => ⟨(h b hb).1, fun hf => (h b hb).2 (List.mem_append_left _ hf)⟩

theorem Apart.arg (h : Apart bs next (app f a)) : Apart bs next a :=
  fun b hb => ⟨(h b hb).1, fun ha => (h b hb).2 (List.mem_append_right _ ha)⟩

theorem Apart.notMem (h : Apart bs next (lam b x t)) : b ∉ bs :=
  fun hb => (h b hb).2 List.mem_cons_self

/-- Inside a function, it joins those outside. -/
theorem Apart.body (ht : (lam b x t).Tidy next) (h : Apart bs next (lam b x t)) :
    Apart (b :: bs) next t := by
  intro c hc
  rcases List.mem_cons.mp hc with rfl | hc
  · exact ⟨ht.key_lt, ht.notMem_body⟩
  · exact ⟨(h c hc).1, fun hm => (h c hc).2 (List.mem_cons_of_mem _ hm)⟩

/-! ### Growing -/

theorem Tidy.grown (h : t.Tidy next) : Grown next t next t :=
  ⟨Nat.le_refl next, h.nodup, fun _ hb => .inl hb⟩

namespace Grown

theorem tidy (h : Grown next t next' r) (ht : t.Tidy next) : r.Tidy next' := by
  refine ⟨h.nodup, ?_⟩
  intro b hb
  rcases h.old_or_new b hb with hold | hnew
  · exact Nat.lt_of_lt_of_le (ht.below b hold) h.le
  · exact hnew.2

theorem apart (h : Grown next t next' r) (hbs : Apart bs next t) : Apart bs next' r := by
  intro b hb
  refine ⟨Nat.lt_of_lt_of_le (hbs b hb).1 h.le, ?_⟩
  intro hr
  rcases h.old_or_new b hr with hold | hnew
  · exact (hbs b hb).2 hold
  · exact absurd (hbs b hb).1 (Nat.not_lt.mpr hnew.1)

theorem trans (h : Grown next t next' r) (h' : Grown next' r next'' q) :
    Grown next t next'' q := by
  refine ⟨Nat.le_trans h.le h'.le, h'.nodup, ?_⟩
  intro b hb
  rcases h'.old_or_new b hb with hr | hnew
  · rcases h.old_or_new b hr with ht | hnew
    · exact .inl ht
    · exact .inr ⟨hnew.1, Nat.lt_of_lt_of_le hnew.2 h'.le⟩
  · exact .inr ⟨Nat.le_trans h.le hnew.1, hnew.2⟩

/-- Both sides of an application grow, one after the other. -/
theorem app (ht : (app f a).Tidy next) (hf : Grown next f next' f')
    (ha : Grown next' a next'' a') :
    Grown next (Term.app f a) next'' (Term.app f' a') := by
  refine ⟨Nat.le_trans hf.le ha.le, List.nodup_append.mpr ⟨hf.nodup, ha.nodup, ?_⟩, ?_⟩
  · -- a function on both sides would be old on both, or its key would be used twice
    rintro b hbf _ hba rfl
    rcases hf.old_or_new b hbf with hof | hnf <;> rcases ha.old_or_new b hba with hoa | hna
    · exact ht.notMem_arg hof hoa
    · have := ht.fn.below b hof
      have := hf.le
      omega
    · have := ht.arg.below b hoa
      omega
    · omega
  · intro b hb
    rcases List.mem_append.mp hb with hb | hb
    · rcases hf.old_or_new b hb with hold | hnew
      · exact .inl (List.mem_append_left _ hold)
      · exact .inr ⟨hnew.1, Nat.lt_of_lt_of_le hnew.2 ha.le⟩
    · rcases ha.old_or_new b hb with hold | hnew
      · exact .inl (List.mem_append_right _ hold)
      · exact .inr ⟨Nat.le_trans hf.le hnew.1, hnew.2⟩

theorem lam (ht : (lam b x t).Tidy next) (h : Grown next t next' r) :
    Grown next (Term.lam b x t) next' (Term.lam b x r) := by
  refine ⟨h.le, List.nodup_cons.mpr ⟨fun hb => ?_, h.nodup⟩, fun c hc => ?_⟩
  · -- the function itself is older than anything new in its body
    rcases h.old_or_new b hb with hold | hnew
    · exact ht.notMem_body hold
    · exact absurd ht.key_lt (Nat.not_lt.mpr hnew.1)
  · rcases List.mem_cons.mp hc with rfl | hc
    · exact .inl List.mem_cons_self
    · exact (h.old_or_new c hc).imp_left (List.mem_cons_of_mem _)

/-- Applying a function leaves only functions of its body. -/
theorem of_redex (h : Grown next t next' r) :
    Grown next (Term.app (Term.lam b x t) a) next' r :=
  ⟨h.le, h.nodup, fun c hc => (h.old_or_new c hc).imp_left fun hc =>
    List.mem_append_left _ (List.mem_cons_of_mem _ hc)⟩

/-- An expression that takes its keys from the supply one by one has grown from
anything. -/
theorem of_range {n : Nat} (h : r.binders.map (·.key) = List.range' next n) :
    Grown next t (next + n) r := by
  refine ⟨Nat.le_add_right next n, ?_, fun b hb => .inr ?_⟩
  · apply List.Nodup.of_map (·.key)
    rw [h]
    exact List.nodup_range'
  · have hkey : b.key ∈ r.binders.map (·.key) := List.mem_map_of_mem hb
    rw [h, List.mem_range'_1] at hkey
    exact hkey

end Grown

/-! ### Copying and substitution -/

/-- A copy takes its keys from the supply in the order of its functions. -/
theorem keys_copyUnder (copies : Renaming) (t : Term) (next : Nat) :
    (t.copyUnder copies next).1.binders.map (·.key) = List.range' next t.binders.length := by
  induction t generalizing copies next with
  | missing => rfl
  | foreign => rfl
  | app f a ihf iha =>
    simp only [copyUnder, binders, List.map_append, ihf, iha, copyUnder_snd, List.length_append]
    rw [List.range'_append_1]
  | lam b x t ih =>
    simp only [copyUnder, binders, List.map_cons, ih, List.length_cons, List.range'_succ]
  | ref x l => rfl

theorem grown_copy (t body : Term) (next : Nat) :
    Grown next t (body.copy next).2 (body.copy next).1 := by
  rw [copy_snd]
  exact .of_range (keys_copyUnder [] body next)

theorem grown_identity (t : Term) (next : Nat) :
    Grown next t (identity next).2 (identity next).1 :=
  .of_range rfl

/-- Substitution keeps the functions of the expression and adds those of the
copies. -/
theorem grown_subst {t : Term} (b : Binder) (arg : Term) {next : Nat} (ht : t.Tidy next) :
    Grown next t (t.subst b arg next).2 (t.subst b arg next).1 := by
  induction t generalizing next with
  | missing => exact ht.grown
  | foreign => exact ht.grown
  | app f a ihf iha =>
    -- the right side takes what the left side has left of the supply
    have hf := ihf ht.fn
    exact .app ht hf (iha (ht.arg.mono hf.le))
  | lam c x t ih => exact .lam ht (ih ht.body)
  | ref x l =>
    by_cases h : l = .binder b
    · rw [subst, if_pos h]
      exact grown_copy (ref x l) arg next
    · rw [subst, if_neg h]
      exact ht.grown

end Term

end LambdaScript
