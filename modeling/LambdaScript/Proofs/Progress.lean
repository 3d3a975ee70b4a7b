/-
LambdaScript/Proofs/Progress.lean

Reading goes on through the text.

`Scanner.remaining` counts the characters in hand or yet to be read.  No movement of
reading makes it larger, although looking for a comment puts a character back; and
everything that is taken from the text, a bracket, a name, an argument or a whole
expression, makes it smaller.  Behind all of these blanks are skipped, so that none is
in hand afterwards.  `Ahead` says both.
-/
import LambdaScript.Proofs.Texts

namespace LambdaScript

/-! ### The remaining text -/

namespace Scanner

theorem remaining_skipBlanks_le (s : Scanner) : s.skipBlanks.2.remaining ≤ s.remaining := by
  fun_induction skipBlanks s with
  | case1 s hblank r q ih =>
    calc q.2.remaining ≤ r.2.remaining := ih
      _ ≤ s.advance.remaining := remaining_commentHere_le s.advance
      _ ≤ s.remaining := remaining_advance_le s
  | case2 s hblank => exact Nat.le_refl _

theorem remaining_skip_le (s : Scanner) : s.skip.2.remaining ≤ s.remaining :=
  Nat.le_trans (remaining_skipBlanks_le _) (remaining_commentHere_le s)

theorem remaining_nameTail_le (s : Scanner) : s.nameTail.2.remaining ≤ s.remaining := by
  fun_induction nameTail s with
  | case1 s hnone => exact Nat.le_refl _
  | case2 s hslash _ => exact remaining_comment_le hslash
  | case3 s c hc _ _ r ih => exact Nat.le_trans ih (remaining_advance_le s)
  | case4 s c hc _ => exact Nat.le_refl _

/-- There is no blank in hand. -/
def Settled (s : Scanner) : Prop :=
  CharClass.blank.has s.current = false

theorem settled_skipBlanks (s : Scanner) : s.skipBlanks.2.Settled := by
  fun_induction skipBlanks s with
  | case1 s hblank r q ih => exact ih
  | case2 s hblank => exact eq_false_of_ne_true hblank

theorem settled_skip (s : Scanner) : s.skip.2.Settled :=
  settled_skipBlanks _

end Scanner

theorem movement_remaining :
    Movement fun r r' => r'.scanner.remaining ≤ r.scanner.remaining where
  refl _ := Nat.le_refl _
  trans h h' := Nat.le_trans h' h
  advance r := r.scanner.remaining_advance_le
  skip r := r.scanner.remaining_skip_le
  nameTail r := r.scanner.remaining_nameTail_le

/-- Something has been read, and blanks have been skipped behind it. -/
structure Ahead (r r' : Reading) : Prop where
  shorter : r'.scanner.remaining < r.scanner.remaining
  settled : r'.scanner.Settled

namespace Parse

variable {r r' : Reading}

theorem remaining_takeAll_lt {text : String} {l : List Char} {u : Unit} (hl : l ≠ [])
    (h : takeAll text l r = .ok u r') : r'.scanner.remaining < r.scanner.remaining := by
  cases l with
  | nil => exact absurd rfl hl
  | cons c rest =>
    rw [takeAll, current_bind] at h
    split at h
    · next hc =>
      have hrest := (along_takeAll movement_remaining text rest).of_ok h
      exact Nat.lt_of_le_of_lt hrest (Scanner.remaining_advance_lt hc)
    · cases h

theorem ahead_expect {text : String} {l : List String} (htext : text.toList ≠ [])
    (h : expect text r = .ok l r') : Ahead r r' := by
  obtain ⟨_, r₁, htake, hskip⟩ := Outcome.bind_eq_ok h
  cases hskip
  exact ⟨Nat.lt_of_le_of_lt (Scanner.remaining_skip_le _) (remaining_takeAll_lt htext htake),
    Scanner.settled_skip _⟩

theorem settled_expectUnlessAtEnd {text : String} {u : Unit} (htext : text.toList ≠ [])
    (h : expectUnlessAtEnd text r = .ok u r') : r'.scanner.Settled := by
  rw [expectUnlessAtEnd, current_bind] at h
  split at h
  · obtain ⟨_, r₁, hexpect, hgo⟩ := Outcome.bind_eq_ok h
    cases hgo
    exact (ahead_expect htext hexpect).settled
  · next hend =>
    cases h
    rw [Scanner.Settled, Option.not_isSome_iff_eq_none.mp hend]
    rfl

theorem ahead_identifier {x : String} (h : identifier r = .ok x r') : Ahead r r' := by
  obtain ⟨c, hc, -⟩ := isNameChar_of_identifier h
  rw [identifier, current_bind] at h
  split at h
  · cases h
    refine ⟨?_, Scanner.settled_skip _⟩
    calc r.scanner.advance.nameTail.2.skip.2.remaining
        ≤ r.scanner.advance.nameTail.2.remaining := Scanner.remaining_skip_le _
      _ ≤ r.scanner.advance.remaining := Scanner.remaining_nameTail_le _
      _ < r.scanner.remaining := Scanner.remaining_advance_lt hc
  · cases h

theorem ahead_name {x : String} (h : name r = .ok x r') : Ahead r r' := by
  obtain ⟨y, r₁, hy, hgo⟩ := Outcome.bind_eq_ok h
  split at hgo
  · cases hgo
  · cases hgo
    exact ahead_identifier hy

theorem ahead_argument {a : Binder × String} (h : argument r = .ok a r') : Ahead r r' := by
  have hrest : ∀ {marked : Bool} {r₁ : Reading},
      (do
        let x ← argumentName
        return (← newBinder marked, x)) r₁ = .ok a r' → Ahead r₁ r' := by
    intro marked r₁ h₁
    obtain ⟨x, r₂, hname, hgo⟩ := Outcome.bind_eq_ok h₁
    obtain ⟨y, r₃, hy, hgo'⟩ := Outcome.bind_eq_ok hname
    split at hgo'
    · cases hgo'
    · cases hgo'
      cases hgo
      exact ⟨(ahead_name hy).shorter, (ahead_name hy).settled⟩
  rw [argument, current_bind] at h
  dsimp only at h
  split at h
  · obtain ⟨_, r₁, hexpect, hgo⟩ := Outcome.bind_eq_ok h
    have hfirst := ahead_expect (by decide) hexpect
    exact ⟨Nat.lt_trans (hrest hgo).shorter hfirst.shorter, (hrest hgo).settled⟩
  · exact hrest h

/-- The head of a function, up to its body. -/
theorem ahead_head {l : List String} {a : Binder × String} {rounds : Nat}
    {more : List (Binder × String)} {u : Unit} {r₁ r₂ r₃ r₄ : Reading}
    (hopen : expect "[" r = .ok l r₁) (harg : argument r₁ = .ok a r₂)
    (hmore : arguments rounds r₂ = .ok more r₃) (hstop : expectUnlessAtEnd "." r₃ = .ok u r₄) :
    Ahead r r₄ := by
  refine ⟨?_, settled_expectUnlessAtEnd (by decide) hstop⟩
  calc r₄.scanner.remaining
      ≤ r₃.scanner.remaining := (along_expectUnlessAtEnd movement_remaining ".").of_ok hstop
    _ ≤ r₂.scanner.remaining :=
        (along_arguments movement_remaining (fun _ => Nat.le_refl _) rounds).of_ok hmore
    _ < r₁.scanner.remaining := (ahead_argument harg).shorter
    _ < r.scanner.remaining := (ahead_expect (by decide) hopen).shorter

section Item

variable {item : Parse Term} {rounds : Nat} {t : Term}
  (hitem : Along (fun r r' => r'.scanner.remaining ≤ r.scanner.remaining) item)

include hitem

theorem ahead_bracketOf (h : bracketOf item rounds r = .ok t r') : Ahead r r' := by
  obtain ⟨_, r₁, hopen, h₁⟩ := Outcome.bind_eq_ok h
  obtain ⟨u, r₂, hseries, h₂⟩ := Outcome.bind_eq_ok h₁
  obtain ⟨_, r₃, hclose, h₃⟩ := Outcome.bind_eq_ok h₂
  cases h₃
  refine ⟨?_, settled_expectUnlessAtEnd (by decide) hclose⟩
  calc r'.scanner.remaining
      ≤ r₂.scanner.remaining := (along_expectUnlessAtEnd movement_remaining ")").of_ok hclose
    _ ≤ r₁.scanner.remaining :=
        (along_seriesOf movement_remaining (fun _ => Nat.le_refl _) hitem rounds).of_ok hseries
    _ < r.scanner.remaining := (ahead_expect (by decide) hopen).shorter

theorem ahead_functionOf (h : functionOf item rounds r = .ok t r') : Ahead r r' := by
  obtain ⟨_, r₁, hopen, h₁⟩ := Outcome.bind_eq_ok h
  obtain ⟨a, r₂, harg, h₂⟩ := Outcome.bind_eq_ok h₁
  obtain ⟨more, r₃, hmore, h₃⟩ := Outcome.bind_eq_ok h₂
  obtain ⟨_, r₄, hstop, h₄⟩ := Outcome.bind_eq_ok h₃
  obtain ⟨body, r₅, hseries, h₅⟩ := Outcome.bind_eq_ok h₄
  obtain ⟨_, r₆, hclose, h₆⟩ := Outcome.bind_eq_ok h₅
  cases h₆
  refine ⟨?_, settled_expectUnlessAtEnd (by decide) hclose⟩
  calc r'.scanner.remaining
      ≤ r₅.scanner.remaining := (along_expectUnlessAtEnd movement_remaining "]").of_ok hclose
    _ ≤ r₄.scanner.remaining :=
        (along_seriesOf movement_remaining (fun _ => Nat.le_refl _) hitem rounds).of_ok hseries
    _ < r.scanner.remaining := (ahead_head hopen harg hmore hstop).shorter

end Item

/-- An expression takes something of the text. -/
theorem ahead_expressionWithin {depth : Nat} {t : Term} (h : expressionWithin depth r = .ok t r')
    (ht : t ≠ .missing) : Ahead r r' := by
  cases depth with
  | zero => cases h
  | succ depth =>
    have hitem := along_expressionWithin movement_remaining (fun _ => Nat.le_refl _) depth
    rw [expressionWithin, current_bind] at h
    split at h
    · exact ahead_bracketOf hitem h
    split at h
    · exact ahead_functionOf hitem h
    split at h
    · obtain ⟨x, r₁, hname, hgo⟩ := Outcome.bind_eq_ok h
      cases hgo
      exact ahead_name hname
    · cases h
      exact absurd rfl ht

end Parse

end LambdaScript
