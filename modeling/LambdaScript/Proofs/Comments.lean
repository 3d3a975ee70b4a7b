/-
LambdaScript/Proofs/Comments.lean

Where a comment of several lines ends, and what is told of it.

A comment opened by `/*` should end at the first `*/`.  But an asterisk is read
together with the character behind it, whatever that is: of the asterisks in a row the
first goes with the second, the third with the fourth.  So `*/` is an end mark only
where its asterisk is left over, that is, behind an even number of asterisks
(`Scanner.EndsAt`).  And of each pair only the second character is told, so that every
row of asterisks comes out halved (`Scanner.thinned`).

`/***/x` is such a comment: it goes on over its end mark, to the end of the text.

Main result: `comment_ends`.
-/
import LambdaScript.Proofs.Texts
import Mathlib.Algebra.Group.Nat.Even
import Mathlib.Data.List.DropRight

namespace LambdaScript

namespace Scanner

/-! ### End marks -/

/-- The number of asterisks at the end of a text. -/
def asterisks (w : List Char) : Nat :=
  (w.rtakeWhile (· = '*')).length

/-- The characters `*/` stand at position `k`. -/
def MarkAt (text : List Char) (k : Nat) : Prop :=
  ['*', '/'] <+: text.drop k

/-- The characters `*/` stand at position `k`, behind an even number of asterisks. -/
def EndsAt (text : List Char) (k : Nat) : Prop :=
  MarkAt text k ∧ Even (asterisks (text.take k))

/-- The least position with a property. -/
def First (P : Nat → Prop) (k : Nat) : Prop :=
  P k ∧ ∀ j < k, ¬ P j

instance decidableMarkAt (text : List Char) (k : Nat) : Decidable (MarkAt text k) :=
  inferInstanceAs (Decidable (['*', '/'] <+: text.drop k))

instance decidableEndsAt (text : List Char) (k : Nat) : Decidable (EndsAt text k) :=
  inferInstanceAs (Decidable (_ ∧ _))

instance decidableFirst (P : Nat → Prop) [DecidablePred P] (k : Nat) : Decidable (First P k) :=
  inferInstanceAs (Decidable (_ ∧ _))

/-- The text of a comment as it is told: an asterisk is left out, and the character behind
it is kept even if it is another asterisk. -/
def thinned : List Char → List Char
  | [] => []
  | c :: w =>
    if c = '*' then
      match w with
      | [] => []
      | d :: w => d :: thinned w
    else c :: thinned w

theorem First.unique {P : Nat → Prop} {j k : Nat} (hj : First P j) (hk : First P k) : j = k := by
  rcases Nat.lt_trichotomy j k with h | h | h
  · exact absurd hj.1 (hk.2 j h)
  · exact h
  · exact absurd hk.1 (hj.2 k h)

/-- The first position moves with the text. -/
theorem First.shift {P Q : Nat → Prop} {n k : Nat} (h : First P k) (hshift : ∀ j, Q (j + n) ↔ P j)
    (hbefore : ∀ j < n, ¬ Q j) : First Q (k + n) := by
  refine ⟨(hshift k).mpr h.1, ?_⟩
  intro j hj
  rcases Nat.lt_or_ge j n with hn | hn
  · exact hbefore j hn
  · rw [show j = j - n + n by omega, hshift]
    exact h.2 (j - n) (by omega)

/-! ### Rows of asterisks -/

theorem asterisks_le_length (w : List Char) : asterisks w ≤ w.length :=
  (List.rtakeWhile_suffix _ w).length_le

theorem asterisks_cons (c : Char) (w : List Char) :
    asterisks (c :: w)
      = if c = '*' ∧ asterisks w = w.length then w.length + 1 else asterisks w := by
  simp only [asterisks, List.rtakeWhile, List.length_reverse, List.reverse_cons,
    List.takeWhile_append]
  by_cases hw : (w.reverse.takeWhile (· = '*')).length = w.length
  · by_cases hc : c = '*' <;> simp [hw, hc]
  · simp [hw]

theorem asterisks_cons_of_ne {c : Char} (hc : c ≠ '*') (w : List Char) :
    asterisks (c :: w) = asterisks w := by
  rw [asterisks_cons, if_neg fun h => hc h.1]

/-- A pair makes no difference to how many asterisks are left over. -/
theorem even_asterisks_pair (d : Char) (w : List Char) :
    Even (asterisks ('*' :: d :: w)) ↔ Even (asterisks w) := by
  have hle := asterisks_le_length w
  rw [asterisks_cons '*', asterisks_cons d, List.length_cons]
  by_cases hfull : d = '*' ∧ asterisks w = w.length
  · rw [if_pos hfull, if_pos ⟨rfl, rfl⟩, hfull.2, Nat.even_iff, Nat.even_iff]
    omega
  · rw [if_neg hfull, if_neg (by omega)]

theorem asterisks_concat_of_ne {c : Char} (hc : c ≠ '*') (w : List Char) :
    asterisks (w ++ [c]) = 0 := by
  rw [asterisks, List.rtakeWhile_concat_neg _ _ _ (by simpa using hc), List.length_nil]

theorem asterisks_of_notMem {w : List Char} (h : '*' ∉ w) : asterisks w = 0 := by
  rw [asterisks, List.length_eq_zero_iff, List.rtakeWhile_eq_nil_iff]
  intro hw hlast
  exact h (of_decide_eq_true hlast ▸ List.getLast_mem hw)

theorem MarkAt.text_eq {text : List Char} {k : Nat} (h : MarkAt text k) :
    text = text.take k ++ ['*', '/'] ++ text.drop (k + 2) := by
  obtain ⟨rest, hrest⟩ := h
  have hdrop : text.drop (k + 2) = rest := by
    rw [← List.drop_drop, ← hrest]
    rfl
  rw [hdrop, List.append_assoc, hrest, List.take_append_drop]

/-- Without asterisks before it an end mark is one. -/
theorem MarkAt.endsAt {text : List Char} {k : Nat} (h : MarkAt text k)
    (hplain : '*' ∉ text.take k) : EndsAt text k := by
  refine ⟨h, ?_⟩
  rw [asterisks_of_notMem hplain]
  exact Even.zero

theorem not_endsAt_nil (k : Nat) : ¬ EndsAt [] k := by
  rintro ⟨hmark, -⟩
  rw [MarkAt, List.drop_nil] at hmark
  cases List.prefix_nil.mp hmark

theorem not_endsAt_asterisk (k : Nat) : ¬ EndsAt ['*'] k := by
  rintro ⟨hmark, -⟩
  have hle := hmark.length_le
  simp at hle
  omega

theorem endsAt_cons {c : Char} (hc : c ≠ '*') (w : List Char) (k : Nat) :
    EndsAt (c :: w) (k + 1) ↔ EndsAt w k := by
  rw [EndsAt, EndsAt, MarkAt, MarkAt, List.drop_succ_cons, List.take_succ_cons,
    asterisks_cons_of_ne hc]

theorem not_endsAt_cons_zero {c : Char} (hc : c ≠ '*') (w : List Char) : ¬ EndsAt (c :: w) 0 := by
  rintro ⟨hmark, -⟩
  exact hc (List.cons_prefix_cons.mp hmark).1.symm

theorem endsAt_pair (d : Char) (w : List Char) (k : Nat) :
    EndsAt ('*' :: d :: w) (k + 2) ↔ EndsAt w k := by
  rw [EndsAt, EndsAt, MarkAt, MarkAt, List.drop_succ_cons, List.drop_succ_cons,
    List.take_succ_cons, List.take_succ_cons, even_asterisks_pair]

/-- A pair is no end mark, and none starts with its second character. -/
theorem not_endsAt_pair {d : Char} (hd : d ≠ '/') (w : List Char) :
    ∀ j < 2, ¬ EndsAt ('*' :: d :: w) j := by
  rintro j hj ⟨hmark, heven⟩
  obtain rfl | rfl : j = 0 ∨ j = 1 := by omega
  · have hprefix := (List.cons_prefix_cons.mp hmark).2
    exact hd (List.cons_prefix_cons.mp hprefix).1.symm
  · have hone : asterisks ['*'] = 1 := by decide
    rw [List.take_succ_cons, List.take_zero, hone] at heven
    exact absurd heven (by decide)

/-! ### What is told -/

theorem thinned_cons {c : Char} (hc : c ≠ '*') (w : List Char) :
    thinned (c :: w) = c :: thinned w := by
  rw [thinned.eq_def]
  exact if_neg hc

theorem length_thinned_le (w : List Char) : (thinned w).length ≤ w.length := by
  fun_induction thinned w with
  | case1 => exact Nat.le_refl _
  | case2 => exact Nat.zero_le _
  | case3 d w ih =>
    simp only [List.length_cons]
    omega
  | case4 c w hc ih =>
    simp only [List.length_cons]
    omega

/-- All is told exactly where there is no asterisk. -/
theorem thinned_eq_self_iff (w : List Char) : thinned w = w ↔ '*' ∉ w := by
  fun_induction thinned w with
  | case1 => simp
  | case2 => simp
  | case3 d w ih =>
    refine iff_of_false ?_ (fun h => h List.mem_cons_self)
    intro heq
    have hle := length_thinned_le w
    have hlength := congrArg List.length heq
    simp only [List.length_cons] at hlength
    omega
  | case4 c w hc ih =>
    rw [List.cons_inj_right, ih, List.mem_cons, not_or]
    exact ⟨fun h => ⟨Ne.symm hc, h⟩, And.right⟩

/-- The last character is told unless it is an asterisk. -/
theorem thinned_concat {c : Char} (hc : c ≠ '*') (w : List Char) :
    ∃ v, thinned (w ++ [c]) = v ++ [c] := by
  fun_induction thinned w with
  | case1 => exact ⟨[], thinned_cons hc []⟩
  | case2 => exact ⟨[], rfl⟩
  | case3 d w ih =>
    obtain ⟨v, hv⟩ := ih
    exact ⟨d :: v, congrArg (d :: ·) hv⟩
  | case4 d w hd ih =>
    obtain ⟨v, hv⟩ := ih
    refine ⟨d :: v, ?_⟩
    rw [List.cons_append, thinned_cons hd, hv]
    rfl

/-! ### Reading a comment -/

variable {s : Scanner} {text : List Char}

theorem Shows.unique {text' : List Char} (h : s.Shows text) (h' : s.Shows text') :
    text = text' := by
  have hhead := h.current.symm.trans h'.current
  have htail := h.rest.symm.trans h'.rest
  cases text with
  | nil =>
    cases text' with
    | nil => rfl
    | cons c text' => cases hhead
  | cons c text =>
    cases text' with
    | nil => cases hhead
    | cons c' text' =>
      cases hhead
      exact congrArg (c :: ·) htail

theorem Shows.blockComment_nil (h : s.Shows []) : s.blockComment = ([], s) := by
  rw [Scanner.blockComment]
  split
  · rfl
  · next c hc => cases h.current.symm.trans hc

theorem Shows.blockComment_cons {c : Char} (h : s.Shows (c :: text)) (hc : c ≠ '*') :
    s.blockComment = (c :: s.advance.blockComment.1, s.advance.blockComment.2) := by
  rw [Scanner.blockComment]
  split
  · next hnone => cases h.current.symm.trans hnone
  · next c' hc' =>
    cases h.current.symm.trans hc'
    exact if_neg hc

/-- An asterisk is looked at together with what follows it. -/
theorem Shows.blockComment_asterisk (h : s.Shows ('*' :: text)) :
    s.blockComment =
      match text.head? with
      | none => ([], s.advance.advance)
      | some d =>
        if d = '/' then ([], s.advance.advance)
        else (d :: s.advance.advance.blockComment.1, s.advance.advance.blockComment.2) := by
  rw [Scanner.blockComment]
  split
  · next hnone => cases h.current.symm.trans hnone
  · next c hc =>
    cases h.current.symm.trans hc
    rw [if_pos rfl, h.advance.current]
    rfl

/-- Behind `/*` a comment ends at the first end mark that stands behind an even number of
asterisks, or with the text. -/
theorem Shows.blockComment (h : s.Shows text) :
    (∃ k, First (EndsAt text) k ∧ s.blockComment.1 = thinned (text.take k) ∧
      s.blockComment.2.Shows (text.drop (k + 2))) ∨
    (∀ k, ¬ EndsAt text k) ∧ s.blockComment.1 = thinned text ∧ s.blockComment.2.Shows [] := by
  -- the text is read by pairs and single characters, just as it is thinned
  fun_induction thinned text generalizing s with
  | case1 =>
    rw [h.blockComment_nil]
    exact .inr ⟨not_endsAt_nil, rfl, h⟩
  | case2 =>
    rw [h.blockComment_asterisk]
    exact .inr ⟨not_endsAt_asterisk, rfl, h.advance.advance⟩
  | case3 d w ih =>
    rw [h.blockComment_asterisk]
    by_cases hd : d = '/'
    · subst hd
      have hend : EndsAt ('*' :: '/' :: w) 0 := ⟨List.prefix_append ['*', '/'] w, Even.zero⟩
      exact .inl ⟨0, ⟨hend, nofun⟩, rfl, h.advance.advance⟩
    · simp only [List.head?_cons, if_neg hd]
      rcases ih h.advance.advance with ⟨k, hk, htold, hshows⟩ | ⟨hnone, htold, hshows⟩
      · refine .inl ⟨k + 2, hk.shift (endsAt_pair d w) (not_endsAt_pair hd w), ?_, hshows⟩
        exact congrArg (d :: ·) htold
      · refine .inr ⟨?_, congrArg (d :: ·) htold, hshows⟩
        intro k
        rcases Nat.lt_or_ge k 2 with hk | hk
        · exact not_endsAt_pair hd w k hk
        · rw [show k = k - 2 + 2 by omega, endsAt_pair]
          exact hnone (k - 2)
  | case4 c w hc ih =>
    rw [h.blockComment_cons hc]
    have hbefore : ∀ j < 1, ¬ EndsAt (c :: w) j := by
      intro j hj
      rw [Nat.lt_one_iff.mp hj]
      exact not_endsAt_cons_zero hc w
    rcases ih h.advance with ⟨k, hk, htold, hshows⟩ | ⟨hnone, htold, hshows⟩
    · refine .inl ⟨k + 1, hk.shift (endsAt_cons hc w) hbefore, ?_, hshows⟩
      rw [List.take_succ_cons, thinned_cons hc, htold]
    · refine .inr ⟨?_, congrArg (c :: ·) htold, hshows⟩
      intro k
      cases k with
      | zero => exact hbefore 0 Nat.one_pos
      | succ k =>
        rw [endsAt_cons hc]
        exact hnone k

/-- Up to the first `*/` everything is told, and reading goes on behind it, exactly where no
asterisk stands before. -/
theorem Shows.blockComment_exact_iff (h : s.Shows text) {k : Nat} (hk : First (MarkAt text) k) :
    (s.blockComment.1 = text.take k ∧ s.blockComment.2.Shows (text.drop (k + 2))) ↔
      '*' ∉ text.take k := by
  have htext := hk.1.text_eq
  rcases h.blockComment with ⟨j, hj, htold, hshows⟩ | ⟨hnone, htold, hshows⟩
  · constructor
    · rintro ⟨hexact, hrest⟩
      obtain rfl : j = k := by
        have hlength := congrArg List.length (hshows.unique hrest)
        have hjle := hj.1.1.length_le
        have hkle := hk.1.length_le
        simp only [List.length_drop, List.length_cons, List.length_nil] at hlength hjle hkle
        omega
      exact (thinned_eq_self_iff _).mp (htold.symm.trans hexact)
    · intro hplain
      have hfirst : First (EndsAt text) k :=
        ⟨hk.1.endsAt hplain, fun i hi hends => hk.2 i hi hends.1⟩
      obtain rfl := hj.unique hfirst
      exact ⟨htold.trans ((thinned_eq_self_iff _).mpr hplain), hshows⟩
  · refine iff_of_false ?_ (fun hplain => hnone k (hk.1.endsAt hplain))
    rintro ⟨hexact, hrest⟩
    -- the slash of the mark has been told last, so no asterisk stands before the mark
    rw [← hshows.unique hrest, List.append_nil] at htext
    obtain ⟨v, hv⟩ := thinned_concat (c := '/') (by decide) (text.take k ++ ['*'])
    rw [List.append_assoc] at hv
    have hslash : text.take k = v ++ ['/'] := by
      rw [← hexact, htold, ← hv]
      exact congrArg thinned htext
    refine hnone k ⟨hk.1, ?_⟩
    rw [hslash, asterisks_concat_of_ne (by decide)]
    exact Even.zero

theorem Shows.comment_eq (h : s.Shows ('/' :: '*' :: text)) :
    ∃ s' : Scanner, s'.Shows text ∧
      s.comment = (some (String.ofList s'.blockComment.1), s'.blockComment.2) := by
  refine ⟨s.advance.advance, h.advance.advance, ?_⟩
  rw [comment, h.advance.current]
  rfl

end Scanner

open Scanner

/-- **The end of a comment.**  Let a scanner have `/*` before it, and then `text`.

* The comment ends at the first `*/` that stands behind an even number of asterisks, and with
  the text if there is none.  What stands before is told, with every row of asterisks halved.
* It ends at the first `*/` of all, with everything before told, exactly where no asterisk
  stands before that.
* If there is no `*/`, the whole text is told exactly where it has no asterisk. -/
theorem comment_ends {s : Scanner} {text : List Char} (h : s.Shows ('/' :: '*' :: text)) :
    ((∃ k, First (EndsAt text) k ∧
        s.comment.1 = some (String.ofList (thinned (text.take k))) ∧
        s.comment.2.Shows (text.drop (k + 2))) ∨
      (∀ k, ¬ EndsAt text k) ∧ s.comment.1 = some (String.ofList (thinned text)) ∧
        s.comment.2.Shows []) ∧
    (∀ k, First (MarkAt text) k →
      ((s.comment.1 = some (String.ofList (text.take k)) ∧
          s.comment.2.Shows (text.drop (k + 2))) ↔ '*' ∉ text.take k)) ∧
    ((∀ k, ¬ MarkAt text k) →
      ((s.comment.1 = some (String.ofList text) ∧ s.comment.2.Shows []) ↔ '*' ∉ text)) := by
  obtain ⟨s', hs', heq⟩ := h.comment_eq
  have htold (w : List Char) : s.comment.1 = some (String.ofList w) ↔ s'.blockComment.1 = w := by
    rw [heq, Option.some_inj, String.ofList_inj]
  have hshows : s.comment.2 = s'.blockComment.2 := by rw [heq]
  simp only [htold, hshows]
  refine ⟨hs'.blockComment, fun k hk => hs'.blockComment_exact_iff hk, ?_⟩
  intro hnone
  rcases hs'.blockComment with ⟨k, hk, -⟩ | ⟨-, htext, hrest⟩
  · exact absurd hk.1.1 (hnone k)
  · rw [htext, thinned_eq_self_iff]
    exact and_iff_left hrest

/-- In `/*a**/b*/c` the first `*/` stands behind one asterisk. -/
theorem comment_ends_second_mark :
    let text := ['a', '*', '*', '/', 'b', '*', '/', 'c']
    let s : Scanner := ⟨some '/', '*' :: text, .start⟩
    First (MarkAt text) 2 ∧ First (EndsAt text) 5 ∧
      s.comment.1 = some (String.ofList ['a', '*', '/', 'b']) ∧ s.comment.2.Shows ['c'] := by
  intro text s
  have hs : s.Shows ('/' :: '*' :: text) := ⟨rfl, rfl⟩
  have hfirst : First (EndsAt text) 5 := by decide
  refine ⟨by decide, hfirst, ?_⟩
  rcases (comment_ends hs).1 with ⟨k, hk, htold, hshows⟩ | ⟨hnone, -⟩
  · obtain rfl := hk.unique hfirst
    exact ⟨htold, hshows⟩
  · exact absurd hfirst.1 (hnone 5)

/-- The comment of `/***/x` does not end at its end mark: the slash and what follows are told as
well, and nothing is left to read. -/
theorem comment_overruns_mark :
    let text := ['*', '*', '/', 'x']
    let s : Scanner := ⟨some '/', '*' :: text, .start⟩
    First (MarkAt text) 1 ∧ s.comment.1 = some (String.ofList ['*', '/', 'x']) ∧
      s.comment.2.current = none := by
  decide +kernel

end LambdaScript
