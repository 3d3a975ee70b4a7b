/-
LambdaScript/Source/Scanner.lean

The scanner: a program text read character by character, with one character in
hand, and the comments and blanks in it.

A comment runs from `//` to the end of its line or from `/*` to `*/`.  To see
whether a `/` starts one, the scanner has to look at the character after it.  When
no comment starts, the text goes back to where it was, but the character after the
`/` stays in hand, so that it is read once more.  Inside `/* ... */` an asterisk
that does not end the comment is left out of the comment's text.

`Scanner.remaining` counts the characters in hand or yet to be read.  No operation
makes it larger, and taking the next character makes it smaller while there is one
in hand; this is why reading comes to an end.
-/
import LambdaScript.Source.CharClass

namespace LambdaScript

/-- A line and a column, both counted from one. -/
structure Location where
  line : Nat
  column : Nat
  deriving DecidableEq

namespace Location

/-- The location of the first character. -/
def start : Location := ⟨1, 1⟩

/-- The location after taking a character; trying to read on at the end of the
text counts as a column. -/
def after (l : Location) : Option Char → Location
  | some '\n' => ⟨l.line + 1, 1⟩
  | _ => ⟨l.line, l.column + 1⟩

end Location

/-- A text under reading: the character in hand, what follows it, and the
location. -/
structure Scanner where
  current : Option Char
  rest : List Char
  location : Location
  deriving DecidableEq

namespace Scanner

/-- The scanner before anything is read. -/
def ofText (text : List Char) : Scanner := ⟨none, text, .start⟩

/-- The number of characters in hand or yet to be read. -/
def remaining (s : Scanner) : Nat :=
  s.rest.length + if s.current.isSome then 1 else 0

/-- Takes the next character. -/
def advance (s : Scanner) : Scanner :=
  ⟨s.rest.head?, s.rest.tail, s.location.after s.rest.head?⟩

theorem remaining_advance_lt {s : Scanner} {c : Char} (h : s.current = some c) :
    s.advance.remaining < s.remaining := by
  obtain ⟨k, rest, l⟩ := s
  subst h
  cases rest <;> simp [advance, remaining]

theorem remaining_advance_le (s : Scanner) : s.advance.remaining ≤ s.remaining := by
  obtain ⟨k, rest, l⟩ := s
  cases rest <;> simp [advance, remaining]

/-! ### Comments -/

/-- The text up to the end of the line. -/
def lineComment (s : Scanner) : List Char × Scanner :=
  match _h : s.current with
  | none => ([], s)
  | some c =>
    if c = '\n' then ([], s)
    else
      let r := lineComment s.advance
      (c :: r.1, r.2)
termination_by s.remaining
decreasing_by exact remaining_advance_lt _h

/-- The text up to and including the end mark of a comment. -/
def blockComment (s : Scanner) : List Char × Scanner :=
  match _h : s.current with
  | none => ([], s)
  | some c =>
    if c = '*' then
      match s.advance.current with
      | none => ([], s.advance.advance)
      | some d =>
        if d = '/' then ([], s.advance.advance)
        else
          let r := blockComment s.advance.advance
          (d :: r.1, r.2)
    else
      let r := blockComment s.advance
      (c :: r.1, r.2)
termination_by s.remaining
decreasing_by
  · exact Nat.lt_of_le_of_lt (remaining_advance_le _) (remaining_advance_lt _h)
  · exact remaining_advance_lt _h

/-- The comment that starts at the character in hand, if one does. -/
def comment (s : Scanner) : Option String × Scanner :=
  match s.advance.current with
  | some '/' =>
    let r := lineComment s.advance.advance
    (some (String.ofList r.1), r.2)
  | some '*' =>
    let r := blockComment s.advance.advance
    (some (String.ofList r.1), r.2)
  | c => (none, { s with current := c })

theorem remaining_lineComment_le (s : Scanner) : s.lineComment.2.remaining ≤ s.remaining := by
  fun_induction lineComment s with
  | case1 s h => exact Nat.le_refl _
  | case2 s h => exact Nat.le_refl _
  | case3 s c h hc r ih => exact Nat.le_trans ih (remaining_advance_le s)

theorem remaining_blockComment_le (s : Scanner) : s.blockComment.2.remaining ≤ s.remaining := by
  fun_induction blockComment s with
  | case1 s h => exact Nat.le_refl _
  | case2 s h hd => exact Nat.le_trans (remaining_advance_le _) (remaining_advance_le s)
  | case3 s h hd => exact Nat.le_trans (remaining_advance_le _) (remaining_advance_le s)
  | case4 s h d hd hs r ih =>
    exact Nat.le_trans ih (Nat.le_trans (remaining_advance_le _) (remaining_advance_le s))
  | case5 s c h hc r ih => exact Nat.le_trans ih (remaining_advance_le s)

/-- Looking for a comment never goes back, except for the character in hand. -/
theorem remaining_comment_le {s : Scanner} {c : Char} (h : s.current = some c) :
    s.comment.2.remaining ≤ s.remaining := by
  have h₂ : s.advance.advance.remaining ≤ s.remaining :=
    Nat.le_trans (remaining_advance_le _) (remaining_advance_le s)
  unfold comment
  split
  · exact Nat.le_trans (remaining_lineComment_le _) h₂
  · exact Nat.le_trans (remaining_blockComment_le _) h₂
  · simp only [remaining, h, Option.isSome_some, if_true]
    split <;> omega

/-! ### Blanks -/

/-- The comment that starts at the character in hand, when that is a `/`.  An
empty comment is not told. -/
def commentHere (s : Scanner) : List String × Scanner :=
  if CharClass.commentStart.has s.current then
    let r := s.comment
    (r.1.toList.filter (· ≠ ""), r.2)
  else ([], s)

theorem remaining_commentHere_le (s : Scanner) : s.commentHere.2.remaining ≤ s.remaining := by
  unfold commentHere
  split
  · next h =>
    exact remaining_comment_le (c := '/') (by simpa [CharClass.has] using h)
  · exact Nat.le_refl _

theorem has_blank_iff {k : Option Char} :
    CharClass.blank.has k = true ↔ ∃ c, k = some c ∧ c ∈ CharClass.blanks := by
  cases k <;> simp [CharClass.has]

/-- Skips blanks, each with the comment behind it, and tells the comments. -/
def skipBlanks (s : Scanner) : List String × Scanner :=
  if _h : CharClass.blank.has s.current then
    let r := s.advance.commentHere
    let q := skipBlanks r.2
    (r.1 ++ q.1, q.2)
  else ([], s)
termination_by s.remaining
decreasing_by
  obtain ⟨c, hc, -⟩ := has_blank_iff.1 _h
  exact Nat.lt_of_le_of_lt (remaining_commentHere_le _) (remaining_advance_lt hc)

/-- Skips a comment, and then blanks with comments. -/
def skip (s : Scanner) : List String × Scanner :=
  let r := s.commentHere
  let q := r.2.skipBlanks
  (r.1 ++ q.1, q.2)

/-! ### Names -/

/-- The rest of a name.  A `/` ends it, and a comment that starts there is
skipped. -/
def nameTail (s : Scanner) : List Char × Scanner :=
  match _h : s.current with
  | none => ([], s)
  | some c =>
    if CharClass.name.has (some c) then
      if c = '/' then ([], s.comment.2)
      else
        let r := nameTail s.advance
        (c :: r.1, r.2)
    else ([], s)
termination_by s.remaining
decreasing_by exact remaining_advance_lt _h

end Scanner

end LambdaScript
