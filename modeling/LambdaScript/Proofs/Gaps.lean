/-
LambdaScript/Proofs/Gaps.lean

What may stand between two tokens.

A gap is made of pieces: blanks, comments up to the end of their line, and comments
between `/*` and `*/`.  Skipping should go to the end of the longest gap, where
neither a blank nor a comment follows (`Clear`).  But a comment is looked for only at
the beginning and behind a blank.  So skipping stops between two comments that stand
next to each other; and a `/` behind a blank that starts no comment is lost, because
the character after it is in hand once it has been looked at.

Where a comment ends is a matter of its own, so `Gap` leaves it open: `Closes EndsAt`
is what the scanner does, `Closes MarkAt` says that the first `*/` ends a comment, and
for a comment without asterisks in it (`Unstarred`) they are the same.

Main result: `skip_stops`.
-/
import LambdaScript.Proofs.Coherence
import LambdaScript.Proofs.Comments
import LambdaScript.Proofs.Progress
import Mathlib.Order.Nat

namespace LambdaScript

/-! ### Gaps -/

/-- What a gap is made of. -/
inductive Piece
  | blank
  | line
  | block
  deriving DecidableEq

/-- Behind `/*`, the text is what remains of a comment, and then `rest`.  A comment ends at the
first end mark, or with the text if there is none. -/
inductive Closes (Ends : List Char → Nat → Prop) (text : List Char) : List Char → Prop
  | mark {k : Nat} : Scanner.First (Ends text) k → Closes Ends text (text.drop (k + 2))
  | cut : (∀ k, ¬ Ends text k) → Closes Ends text []

/-- Behind `/*`, the text is what remains of a comment without asterisks, and then `rest`. -/
inductive Unstarred : List Char → List Char → Prop
  | mark {w rest : List Char} : '*' ∉ w → Unstarred (w ++ '*' :: '/' :: rest) rest
  | cut {w : List Char} : '*' ∉ w → Unstarred w []

/-- The text is the pieces, one after the other, and then `rest`; `Block` says how far a comment
goes behind `/*`. -/
inductive Gap (Block : List Char → List Char → Prop) :
    List Piece → List Char → List Char → Prop
  | nil (text : List Char) : Gap Block [] text text
  | blank {c : Char} {ps : List Piece} {text rest : List Char} : isBlank c = true →
      Gap Block ps text rest → Gap Block (.blank :: ps) (c :: text) rest
  | line {w text rest : List Char} {ps : List Piece} : '\n' ∉ w →
      (∀ c ∈ text.head?, c = '\n') → Gap Block ps text rest →
      Gap Block (.line :: ps) ('/' :: '/' :: (w ++ text)) rest
  | block {text mid rest : List Char} {ps : List Piece} : Block text mid →
      Gap Block ps mid rest → Gap Block (.block :: ps) ('/' :: '*' :: text) rest

/-- No blank comes first. -/
def Unblanked (text : List Char) : Prop :=
  ∀ c ∈ text.head?, isBlank c = false

/-- Neither a blank nor a comment comes first. -/
structure Clear (text : List Char) : Prop where
  unblanked : Unblanked text
  line : ¬ ['/', '/'] <+: text
  block : ¬ ['/', '*'] <+: text

/-- No two comments stand next to each other. -/
def Spaced (ps : List Piece) : Prop :=
  ps.IsChain fun p q => p = .blank ∨ q = .blank

namespace Gap

variable {Block Block' : List Char → List Char → Prop} {ps : List Piece}
  {text rest : List Char}

theorem mono (h : Gap Block ps text rest) (hle : ∀ {t m}, Block t m → Block' t m) :
    Gap Block' ps text rest := by
  induction h with
  | nil text => exact .nil text
  | blank hc _ ih => exact .blank hc ih
  | line hw htext _ ih => exact .line hw htext ih
  | block hblock _ ih => exact .block (hle hblock) ih

theorem length_le (h : Gap Block ps text rest)
    (hle : ∀ {t m}, Block t m → m.length ≤ t.length) : rest.length ≤ text.length := by
  induction h with
  | nil text => exact Nat.le_refl _
  | blank hc _ ih => exact Nat.le_succ_of_le ih
  | line hw htext _ ih =>
    simp only [List.length_cons, List.length_append]
    omega
  | block hblock _ ih =>
    have := hle hblock
    simp only [List.length_cons]
    omega

end Gap

theorem Closes.length_le {Ends : List Char → Nat → Prop} {text rest : List Char}
    (h : Closes Ends text rest) : rest.length ≤ text.length := by
  cases h with
  | mark _ => exact List.drop_suffix _ text |>.length_le
  | cut _ => exact Nat.zero_le _

/-- A comment has an end. -/
theorem exists_closes (Ends : List Char → Nat → Prop) (text : List Char) :
    ∃ rest, Closes Ends text rest := by
  classical
  by_cases h : ∃ k, Ends text k
  · exact ⟨_, .mark ⟨Nat.find_spec h, fun j hj => Nat.find_min h hj⟩⟩
  · exact ⟨[], .cut (not_exists.mp h)⟩

/-- **Every text begins with a gap** behind which neither a blank nor a comment comes. -/
theorem exists_gap (Ends : List Char → Nat → Prop) (text : List Char) :
    ∃ ps rest, Gap (Closes Ends) ps text rest ∧ Clear rest := by
  induction hn : text.length using Nat.strong_induction_on generalizing text with
  | _ n ih =>
  subst hn
  by_cases hclear : Clear text
  · exact ⟨[], text, .nil text, hclear⟩
  rcases text with - | ⟨c, text⟩
  · exact absurd ⟨nofun, by simp, by simp⟩ hclear
  by_cases hc : isBlank c = true
  · obtain ⟨ps, rest, hgap, hrest⟩ := ih text.length (Nat.lt_succ_self _) text rfl
    exact ⟨_, rest, .blank hc hgap, hrest⟩
  by_cases hline : ['/', '/'] <+: c :: text
  · obtain ⟨u, hu⟩ := hline
    rw [← hu]
    have hdrop : (u.dropWhile (· ≠ '\n')).length < (c :: text).length := by
      have := (List.dropWhile_suffix (l := u) (· ≠ '\n')).length_le
      simp only [← hu, List.length_append, List.length_cons]
      omega
    obtain ⟨ps, rest, hgap, hrest⟩ := ih _ hdrop _ rfl
    refine ⟨.line :: ps, rest, ?_, hrest⟩
    have hgap' := Gap.line (w := u.takeWhile (· ≠ '\n')) ?_ ?_ hgap
    · rwa [List.takeWhile_append_dropWhile] at hgap'
    · intro hmem
      simpa using List.all_eq_true.mp List.all_takeWhile _ hmem
    · intro d hd
      have hhead := List.head?_dropWhile_not (· ≠ '\n') u
      rw [Option.mem_def.mp hd] at hhead
      simpa using hhead
  by_cases hblock : ['/', '*'] <+: c :: text
  · obtain ⟨u, hu⟩ := hblock
    rw [← hu]
    obtain ⟨mid, hmid⟩ := exists_closes Ends u
    have hlt : mid.length < (c :: text).length := by
      have := hmid.length_le
      simp only [← hu, List.length_append, List.length_cons]
      omega
    obtain ⟨ps, rest, hgap, hrest⟩ := ih _ hlt _ rfl
    exact ⟨_, rest, .block hmid hgap, hrest⟩
  · refine absurd ⟨?_, hline, hblock⟩ hclear
    rintro d ⟨⟩
    simpa using hc

/-! ### Comments without asterisks -/

theorem Scanner.MarkAt.asterisk_mem {text : List Char} {k : Nat} (h : MarkAt text k) :
    text[k]? = some '*' := by
  obtain ⟨rest, hrest⟩ := h
  rw [← List.head?_drop, ← hrest]
  rfl

/-- A comment without asterisks ends at the first `*/`, whichever of them counts as an end
mark. -/
theorem Unstarred.closes {Ends : List Char → Nat → Prop} {text rest : List Char}
    (h : Unstarred text rest) (hends : ∀ {k}, Ends text k → Scanner.MarkAt text k)
    (hmark : ∀ {k}, Scanner.MarkAt text k → '*' ∉ text.take k → Ends text k) :
    Closes Ends text rest := by
  cases h with
  | @mark w rest hw =>
    have htake : (w ++ '*' :: '/' :: rest).take w.length = w := List.take_left
    have hat : Scanner.MarkAt (w ++ '*' :: '/' :: rest) w.length := by
      rw [Scanner.MarkAt, List.drop_left]
      exact ⟨rest, rfl⟩
    have hfirst : Scanner.First (Ends (w ++ '*' :: '/' :: rest)) w.length := by
      refine ⟨hmark hat (by rwa [htake]), fun j hj hend => hw ?_⟩
      have hj' := (hends hend).asterisk_mem
      rw [List.getElem?_append_left hj] at hj'
      exact List.mem_of_getElem? hj'
    have hdrop : (w ++ '*' :: '/' :: rest).drop (w.length + 2) = rest := by
      rw [← List.drop_drop, List.drop_left]
      rfl
    have hcloses := Closes.mark hfirst
    rwa [hdrop] at hcloses
  | cut hw => exact .cut fun k hend => hw (List.mem_of_getElem? (hends hend).asterisk_mem)

/-! ### Skipping -/

namespace Scanner

variable {s : Scanner} {text rest : List Char}

theorem skipBlanks_of_blank (h : CharClass.blank.has s.current = true) :
    s.skipBlanks.2 = s.advance.skip.2 := by
  rw [skipBlanks, dif_pos h]
  rfl

theorem skipBlanks_of_settled (h : s.Settled) : s.skipBlanks.2 = s := by
  rw [skipBlanks, dif_neg (by rw [h]; decide)]

theorem skip_of_slash (h : s.current = some '/') : s.skip.2 = s.comment.2.skipBlanks.2 := by
  rw [skip, commentHere, if_pos (by rw [h]; rfl)]

theorem skip_of_ne_slash (h : s.current ≠ some '/') : s.skip.2 = s.skipBlanks.2 := by
  rw [skip, commentHere, if_neg (by simpa [CharClass.has] using h)]

/-- Skipping goes on behind a piece: a comment is looked for behind a blank only. -/
def resume (p : Piece) (s : Scanner) : Scanner :=
  if p = .blank then s.skip.2 else s.skipBlanks.2

theorem Shows.settled (h : s.Shows text) (htext : Unblanked text) : s.Settled := by
  rw [Settled, h.current]
  cases text with
  | nil => rfl
  | cons c text => exact htext c rfl

theorem resume_blank {c : Char} (h : s.Shows (c :: text)) (hc : isBlank c = true) (p : Piece) :
    s.resume p = s.advance.resume .blank := by
  have hblank : CharClass.blank.has s.current = true := by
    rw [h.current]
    exact hc
  have hslash : s.current ≠ some '/' := by
    intro heq
    rw [heq] at hblank
    exact absurd hblank (by decide)
  show _ = s.advance.skip.2
  unfold resume
  split
  · rw [skip_of_ne_slash hslash, skipBlanks_of_blank hblank]
  · exact skipBlanks_of_blank hblank

theorem Shows.lineComment {w : List Char} (h : s.Shows (w ++ text)) (hw : '\n' ∉ w)
    (htext : ∀ c ∈ text.head?, c = '\n') : s.lineComment.2.Shows text := by
  induction w generalizing s with
  | nil =>
    rw [Scanner.lineComment]
    split
    · exact h
    · next c hc =>
      rw [if_pos (htext c (h.current.symm.trans hc))]
      exact h
  | cons d w ih =>
    rw [Scanner.lineComment]
    split
    · next hnone => cases h.current.symm.trans hnone
    · next c hc =>
      cases h.current.symm.trans hc
      have hd : d ≠ '\n' := fun heq => hw (heq ▸ List.mem_cons_self)
      rw [if_neg hd]
      exact ih h.advance fun hmem => hw (List.mem_cons_of_mem _ hmem)

theorem Shows.comment_line {w : List Char} (h : s.Shows ('/' :: '/' :: (w ++ text)))
    (hw : '\n' ∉ w) (htext : ∀ c ∈ text.head?, c = '\n') : s.comment.2.Shows text := by
  rw [comment, h.advance.current]
  exact h.advance.advance.lineComment hw htext

theorem Shows.comment_block (h : s.Shows ('/' :: '*' :: text)) (hcloses : Closes EndsAt text rest) :
    s.comment.2.Shows rest := by
  obtain ⟨s', hs', heq⟩ := h.comment_eq
  rw [heq]
  rcases hs'.blockComment with ⟨j, hj, -, hshows⟩ | ⟨hnone, -, hshows⟩
  · cases hcloses with
    | mark hk => rwa [hk.unique hj]
    | cut hcut => exact absurd hj.1 (hcut j)
  · cases hcloses with
    | mark hk => exact absurd hk.1 (hnone _)
    | cut _ => exact hshows

/-- A `/` behind a blank is never what skipping stops at. -/
theorem not_shows_skip (h : s.Shows ('/' :: text)) : ¬ s.skip.2.Shows ('/' :: text) := by
  have hslash : s.current = some '/' := h.current
  intro hskip
  rw [skip_of_slash hslash] at hskip
  have hremaining : s.comment.2.skipBlanks.2.remaining = s.remaining :=
    hskip.remaining_eq.trans h.remaining_eq.symm
  by_cases hopens : s.OpensComment
  · -- a comment takes at least the two characters that start it
    have hle : s.comment.2.remaining ≤ s.advance.advance.remaining := by
      rw [comment]
      rcases hopens with hnext | hnext
      · rw [show s.advance.current = some '/' from hnext]
        exact remaining_lineComment_le _
      · rw [show s.advance.current = some '*' from hnext]
        exact remaining_blockComment_le _
    have := remaining_skipBlanks_le s.comment.2
    have := remaining_advance_le s.advance
    have := remaining_advance_lt hslash
    omega
  · have hcurrent : s.comment.2.current = s.rest.head? := by
      rw [comment_of_not_opens hopens]
    by_cases hblank : CharClass.blank.has s.comment.2.current = true
    · -- the blank behind the `/` is in hand, and it is taken
      obtain ⟨c, hc, -⟩ := has_blank_iff.mp hblank
      rw [skipBlanks_of_blank hblank] at hremaining
      have := remaining_skip_le s.comment.2.advance
      have := remaining_advance_lt hc
      have := remaining_comment_le hslash
      omega
    · rw [skipBlanks_of_settled (eq_false_of_ne_true hblank)] at hskip
      exact hopens (.inl (hcurrent.symm.trans hskip.current))

/-- Behind a comment the scanner does not move to another comment. -/
theorem resume_at_comment {p q : Piece} (hp : p ≠ .blank) (hq : q ≠ .blank)
    (h : s.Shows ('/' :: text)) (hlt : rest.length < ('/' :: text).length) (ps : List Piece) :
    ¬ (s.resume p).Shows rest ∧ ¬ Spaced (p :: q :: ps) := by
  constructor
  · intro hshows
    have hsettled : s.Settled := by
      rw [Settled, h.current]
      exact (by decide : CharClass.blank.has (some '/') = false)
    rw [resume, if_neg hp, skipBlanks_of_settled hsettled] at hshows
    rw [hshows.unique h] at hlt
    exact Nat.lt_irrefl _ hlt
  · intro hspaced
    rcases (List.isChain_cons_cons.mp hspaced).1 with hblank | hblank
    · exact hp hblank
    · exact hq hblank

/-- **Where skipping stops**, when it goes on behind a piece `p` of a gap. -/
theorem resume_shows_iff {ps : List Piece} (hgap : Gap (Closes EndsAt) ps text rest)
    (hrest : Unblanked rest) (h : s.Shows text) (p : Piece) :
    (s.resume p).Shows rest ↔
      Spaced (p :: ps) ∧ (ps.getLastD p = .blank → rest.head? ≠ some '/') := by
  induction hgap generalizing s p with
  | nil text =>
    have hspaced : Spaced [p] := .singleton p
    have hsettled := h.settled hrest
    rw [and_iff_right hspaced]
    by_cases hp : p = .blank
    · subst hp
      refine Iff.trans ?_ ⟨fun hne _ => hne, fun himp => himp rfl⟩
      constructor
      · intro hskip hhead
        obtain ⟨u, rfl⟩ := List.head?_eq_some_iff.mp hhead
        exact not_shows_skip h hskip
      · intro hhead
        show s.skip.2.Shows text
        rw [skip_of_ne_slash (by rwa [h.current]), skipBlanks_of_settled hsettled]
        exact h
    · rw [resume, if_neg hp, skipBlanks_of_settled hsettled]
      exact iff_of_true h fun hblank => absurd hblank hp
  | @blank c ps text rest hc _ ih =>
    have hspaced : Spaced (p :: .blank :: ps) ↔ Spaced (.blank :: ps) :=
      List.isChain_cons_cons.trans (and_iff_right (.inr rfl))
    rw [resume_blank h hc, ih hrest h.advance, List.getLastD_cons, hspaced]
  | @line w text rest ps hw htext hgap ih =>
    by_cases hp : p = .blank
    · subst hp
      have hspaced : Spaced (.blank :: .line :: ps) ↔ Spaced (.line :: ps) :=
        List.isChain_cons_cons.trans (and_iff_right (.inl rfl))
      have hresume : s.resume .blank = s.comment.2.resume .line := skip_of_slash h.current
      rw [hresume, ih hrest (h.comment_line hw htext), List.getLastD_cons, hspaced]
    · have hle := hgap.length_le Closes.length_le
      have hlt : rest.length < ('/' :: '/' :: (w ++ text)).length := by
        simp only [List.length_cons, List.length_append]
        omega
      have hstays := resume_at_comment (q := .line) hp nofun h hlt ps
      exact iff_of_false hstays.1 fun hright => hstays.2 hright.1
  | @block text mid rest ps hblock hgap ih =>
    by_cases hp : p = .blank
    · subst hp
      have hspaced : Spaced (.blank :: .block :: ps) ↔ Spaced (.block :: ps) :=
        List.isChain_cons_cons.trans (and_iff_right (.inl rfl))
      have hresume : s.resume .blank = s.comment.2.resume .block := skip_of_slash h.current
      rw [hresume, ih hrest (h.comment_block hblock), List.getLastD_cons, hspaced]
    · have hle := hgap.length_le Closes.length_le
      have hle' := hblock.length_le
      have hlt : rest.length < ('/' :: '*' :: text).length := by
        simp only [List.length_cons]
        omega
      have hstays := resume_at_comment (q := .block) hp nofun h hlt ps
      exact iff_of_false hstays.1 fun hright => hstays.2 hright.1

end Scanner

theorem spaced_blank_cons {ps : List Piece} : Spaced (.blank :: ps) ↔ Spaced ps := by
  cases ps with
  | nil => exact iff_of_true (.singleton _) .nil
  | cons p ps => exact List.isChain_cons_cons.trans (and_iff_right (.inl rfl))

open Scanner in
/-- **Where skipping stops.**  Let a scanner show a text.

* When it has skipped, there is no blank in hand.
* Of the places behind a gap at which no blank comes next, skipping stops at those where no two
  comments of the gap stand next to each other, and where the gap ends with a comment or
  something else than a `/` comes next.
* There is always a gap behind which neither a blank nor a comment comes.
* If the comments of such a gap have no asterisks in them, each of them ends at the first `*/`;
  then skipping goes to the end of the gap exactly where its comments are apart and no `/`
  comes at the beginning or behind a blank. -/
theorem skip_stops {s : Scanner} {text : List Char} (h : s.Shows text) :
    s.skip.2.Settled ∧
    (∀ {ps rest}, Gap (Closes EndsAt) ps text rest → Unblanked rest →
      (s.skip.2.Shows rest ↔
        Spaced ps ∧ (ps.getLastD .blank = .blank → rest.head? ≠ some '/'))) ∧
    (∃ ps rest, Gap (Closes EndsAt) ps text rest ∧ Clear rest) ∧
    ∀ {ps rest}, Gap Unstarred ps text rest → Clear rest →
      Gap (Closes MarkAt) ps text rest ∧
      (s.skip.2.Shows rest ↔
        Spaced ps ∧ (ps.getLastD .blank = .blank → rest.head? ≠ some '/')) := by
  have hstops : ∀ {ps rest}, Gap (Closes EndsAt) ps text rest → Unblanked rest →
      (s.skip.2.Shows rest ↔
        Spaced ps ∧ (ps.getLastD .blank = .blank → rest.head? ≠ some '/')) := by
    intro ps rest hgap hrest
    exact (resume_shows_iff hgap hrest h .blank).trans (and_congr_left' spaced_blank_cons)
  refine ⟨settled_skip s, hstops, exists_gap EndsAt text, fun hgap hclear => ⟨?_, ?_⟩⟩
  · exact hgap.mono fun hblock => hblock.closes id fun hmark _ => hmark
  · refine hstops (hgap.mono fun hblock => ?_) hclear.unblanked
    exact hblock.closes And.left fun hmark hplain => hmark.endsAt hplain

open Scanner in
/-- A comment in the line, a blank, and a comment up to the end of the line. -/
theorem skip_stops_apart :
    let text := "/*a*/ //b\nx".toList
    let s : Scanner := ⟨some '/', text.tail, .start⟩
    Gap (Closes MarkAt) [.block, .blank, .line, .blank] text ['x'] ∧ Clear ['x'] ∧
      s.skip.2.Shows ['x'] := by
  intro text s
  have hs : s.Shows text := ⟨rfl, rfl⟩
  have hcomment : Unstarred "a*/ //b\nx".toList " //b\nx".toList :=
    .mark (w := ['a']) (by decide)
  have hline : Gap Unstarred [.line, .blank] "//b\nx".toList ['x'] :=
    .line (w := ['b']) (by decide) (by rintro c ⟨⟩; rfl) (.blank (by decide) (.nil _))
  have hgap : Gap Unstarred [.block, .blank, .line, .blank] text ['x'] :=
    .block hcomment (.blank (by decide) hline)
  have hclear : Clear ['x'] := ⟨by rintro c ⟨⟩; decide, by decide, by decide⟩
  have hspaced : Spaced [.block, .blank, .line, .blank] :=
    List.isChain_cons_cons.mpr ⟨.inr rfl, spaced_blank_cons.mpr
      (List.isChain_cons_cons.mpr ⟨.inr rfl, .singleton _⟩)⟩
  obtain ⟨hmark, hiff⟩ := (skip_stops hs).2.2.2 hgap hclear
  exact ⟨hmark, hclear, hiff.mpr ⟨hspaced, fun _ => by decide⟩⟩

open Scanner in
/-- In `/*a*//*b*/x` the gap goes up to `x`, and skipping stops at the second comment. -/
theorem skip_stops_between_comments :
    let text := "/*a*//*b*/x".toList
    let s : Scanner := ⟨some '/', text.tail, .start⟩
    s.Shows text ∧ Gap Unstarred [.block, .block] text ['x'] ∧ ['/', '*'] <+: "/*b*/x".toList ∧
      s.skip.2.Shows "/*b*/x".toList := by
  intro text s
  have hfirst : Unstarred "a*//*b*/x".toList "/*b*/x".toList := .mark (w := ['a']) (by decide)
  have hsecond : Unstarred "b*/x".toList ['x'] := .mark (w := ['b']) (by decide)
  refine ⟨⟨rfl, rfl⟩, .block hfirst (.block hsecond (.nil _)), by decide, ?_⟩
  exact ⟨by decide +kernel, by decide +kernel⟩

end LambdaScript
