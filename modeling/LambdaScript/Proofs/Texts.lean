/-
LambdaScript/Proofs/Texts.lean

Reading a text without comments.

A comment starts with a `/`, and where no `/` is ahead the scanner does what its
name says: it drops blanks, and takes and drops the characters of a name.  So the
state of reading is told by the text ahead: the reader is `At` a text when it has
gone past the blanks that the text begins with.

Each of the parsers that read a token is then described twice: which text it leads
to when it succeeds, and on which texts it does (`Parse.Gives`).
-/
import LambdaScript.Proofs.Reading

namespace LambdaScript

/-! ### Blanks and names in a text -/

/-- A blank character. -/
def isBlank (c : Char) : Bool := CharClass.blank.has (some c)

/-- A character that names are made of. -/
def isNameChar (c : Char) : Bool := CharClass.name.has (some c)

/-- The text without the blanks that it begins with. -/
def trimmed (text : List Char) : List Char := text.dropWhile isBlank

/-- The text is blanks, as many as may be, and then `rest`. -/
def Blanks (text rest : List Char) : Prop :=
  ∃ w, (∀ c ∈ w, isBlank c = true) ∧ text = w ++ rest

/-- The text is the name `x`, which goes as far as it can, and then `rest`. -/
structure Named (x : String) (text rest : List Char) : Prop where
  text_eq : text = x.toList ++ rest
  ne_empty : x ≠ ""
  chars : ∀ c ∈ x.toList, isNameChar c = true
  maximal : ∀ c ∈ rest.head?, isNameChar c = false

/-- The text is a closing bracket and then `rest`; at the end of the text the bracket may be
left out. -/
def Closed (bracket : Char) (text rest : List Char) : Prop :=
  text = bracket :: rest ∨ text = [] ∧ rest = []

section Texts

variable {c : Char} {text mid rest : List Char} {x : String}

theorem isNameChar_iff : isNameChar c = true ↔ c ∉ CharClass.nameEnds := by
  simp [isNameChar, CharClass.has]

theorem isBlank_eq_false_of_isNameChar (h : isNameChar c = true) : isBlank c = false := by
  have hblank : c ∉ CharClass.blanks := fun hc =>
    isNameChar_iff.mp h (List.mem_append_left _ hc)
  simpa [isBlank, CharClass.has] using hblank

theorem trimmed_cons (h : isBlank c = false) : trimmed (c :: text) = c :: text := by
  simp [trimmed, h]

theorem trimmed_suffix (text : List Char) : trimmed text <:+ text :=
  List.dropWhile_suffix _

theorem trimmed_eq_self (h : ∀ c ∈ text.head?, isBlank c = false) : trimmed text = text := by
  cases text with
  | nil => rfl
  | cons c text => exact trimmed_cons (h c rfl)

theorem blanks_trimmed (text : List Char) : Blanks text (trimmed text) :=
  ⟨text.takeWhile isBlank, fun _ hc => List.all_eq_true.mp List.all_takeWhile _ hc,
    List.takeWhile_append_dropWhile.symm⟩

theorem Blanks.refl (text : List Char) : Blanks text text :=
  ⟨[], fun _ hc => absurd hc List.not_mem_nil, rfl⟩

theorem blanks_space (text : List Char) : Blanks (' ' :: text) text :=
  ⟨[' '], List.forall_mem_singleton.mpr (by decide), rfl⟩

theorem Blanks.trans (h : Blanks text mid) (h' : Blanks mid rest) : Blanks text rest := by
  obtain ⟨v, hv, rfl⟩ := h
  obtain ⟨w, hw, rfl⟩ := h'
  exact ⟨v ++ w, List.forall_mem_append.mpr ⟨hv, hw⟩, (List.append_assoc v w rest).symm⟩

theorem Blanks.suffix (h : Blanks text rest) : rest <:+ text := by
  obtain ⟨w, -, rfl⟩ := h
  exact List.suffix_append w rest

theorem Blanks.trimmed_eq (h : Blanks text rest) : trimmed text = trimmed rest := by
  obtain ⟨w, hw, rfl⟩ := h
  exact List.dropWhile_append_of_pos hw

theorem Named.suffix (h : Named x text rest) : rest <:+ text :=
  h.text_eq ▸ List.suffix_append x.toList rest

theorem ends_cons (h : isNameChar c = false) (rest : List Char) :
    ∀ d ∈ (c :: rest).head?, isNameChar d = false := by
  rintro d ⟨⟩
  exact h

/-- A name begins with a character of names. -/
theorem Named.eq_cons (h : Named x text rest) :
    ∃ c tail, isNameChar c = true ∧ text = c :: tail ∧
      x = String.ofList (c :: tail.takeWhile isNameChar) ∧ rest = tail.dropWhile isNameChar := by
  have hmaximal : ∀ c ∈ rest.head?, ¬ isNameChar c = true := fun c hc => by
    rw [h.maximal c hc]
    decide
  rcases hx : x.toList with - | ⟨c, l⟩
  · exact absurd (String.toList_eq_nil_iff.mp hx) h.ne_empty
  · have hchars := h.chars
    rw [hx] at hchars
    have hl : ∀ d ∈ l, isNameChar d = true := fun d hd => hchars d (List.mem_cons_of_mem c hd)
    have htake : rest.takeWhile isNameChar = [] := by
      cases rest with
      | nil => rfl
      | cons d rest => exact List.takeWhile_cons_of_neg (hmaximal d rfl)
    have hdrop : rest.dropWhile isNameChar = rest := by
      cases rest with
      | nil => rfl
      | cons d rest => exact List.dropWhile_cons_of_neg (hmaximal d rfl)
    refine ⟨c, l ++ rest, hchars c List.mem_cons_self, ?_, ?_, ?_⟩
    · rw [h.text_eq, hx, List.cons_append]
    · rw [List.takeWhile_append_of_pos hl, htake, List.append_nil, ← hx, String.ofList_toList]
    · rw [List.dropWhile_append_of_pos hl, hdrop]

theorem Named.head?_eq (h : Named x text rest) : x.toList.head? = text.head? := by
  obtain ⟨c, tail, -, rfl, rfl, -⟩ := h.eq_cons
  rw [String.toList_ofList]
  rfl

/-- The name that begins with a given character of names. -/
theorem named_cons (h : isNameChar c = true) (tail : List Char) :
    Named (String.ofList (c :: tail.takeWhile isNameChar)) (c :: tail)
      (tail.dropWhile isNameChar) := by
  refine ⟨?_, ?_, ?_, ?_⟩
  · rw [String.toList_ofList, List.cons_append, List.takeWhile_append_dropWhile]
  · intro hempty
    have hnil := congrArg String.toList hempty
    rw [String.toList_ofList] at hnil
    exact List.cons_ne_nil _ _ hnil
  · intro d hd
    rw [String.toList_ofList] at hd
    rcases List.mem_cons.mp hd with rfl | hd
    · exact h
    · exact List.all_eq_true.mp List.all_takeWhile d hd
  · intro d hd
    have hhead := List.head?_dropWhile_not isNameChar tail
    rw [Option.mem_def.mp hd] at hhead
    simpa using hhead

theorem Closed.suffix (h : Closed c text rest) : rest <:+ text := by
  rcases h with rfl | ⟨rfl, rfl⟩
  · exact List.suffix_cons c rest
  · exact List.suffix_refl []

end Texts

/-! ### The scanner on a text -/

namespace Scanner

/-- The text is what the scanner has in hand and what follows. -/
structure Shows (s : Scanner) (text : List Char) : Prop where
  current : s.current = text.head?
  rest : s.rest = text.tail

variable {s : Scanner} {text : List Char}

theorem Shows.advance (h : s.Shows text) : s.advance.Shows text.tail :=
  ⟨by rw [Scanner.advance, h.rest], by rw [Scanner.advance, h.rest]⟩

theorem Shows.remaining_eq (h : s.Shows text) : s.remaining = text.length := by
  rw [remaining, h.rest, h.current]
  cases text <;> simp

theorem Shows.commentHere_eq (h : s.Shows text) (hplain : '/' ∉ text) :
    s.commentHere = ([], s) := by
  have hslash : s.current ≠ some '/' := fun hcurrent =>
    hplain (List.mem_of_head? (h.current.symm.trans hcurrent))
  rw [commentHere, if_neg]
  simpa [CharClass.has] using hslash

theorem Shows.skipBlanks (h : s.Shows text) (hplain : '/' ∉ text) :
    ∃ s', s.skipBlanks = ([], s') ∧ s'.Shows (trimmed text) := by
  induction text generalizing s with
  | nil =>
    refine ⟨s, ?_, h⟩
    rw [Scanner.skipBlanks, dif_neg]
    rw [h.current]
    decide
  | cons c text ih =>
    have hrest : '/' ∉ text := fun hc => hplain (List.mem_cons_of_mem c hc)
    by_cases hc : isBlank c = true
    · obtain ⟨s', hs', hshows⟩ := ih h.advance hrest
      refine ⟨s', ?_, ?_⟩
      · rw [Scanner.skipBlanks, dif_pos (by rw [h.current]; exact hc),
          h.advance.commentHere_eq hrest]
        exact congrArg (fun q => (q.1, q.2)) hs'
      · rwa [trimmed, List.dropWhile_cons_of_pos hc]
    · refine ⟨s, ?_, ?_⟩
      · rw [Scanner.skipBlanks, dif_neg (by rw [h.current]; exact hc)]
      · rwa [trimmed_cons (by simpa using hc)]

theorem Shows.skip (h : s.Shows text) (hplain : '/' ∉ text) :
    ∃ s', s.skip = ([], s') ∧ s'.Shows (trimmed text) := by
  obtain ⟨s', hs', hshows⟩ := h.skipBlanks hplain
  refine ⟨s', ?_, hshows⟩
  rw [Scanner.skip, h.commentHere_eq hplain, hs']
  rfl

theorem Shows.nameTail (h : s.Shows text) (hplain : '/' ∉ text) :
    ∃ s', s.nameTail = (text.takeWhile isNameChar, s') ∧ s'.Shows (text.dropWhile isNameChar) := by
  induction text generalizing s with
  | nil =>
    refine ⟨s, ?_, h⟩
    rw [Scanner.nameTail]
    split
    · rfl
    · next c hc => cases h.current.symm.trans hc
  | cons c text ih =>
    have hrest : '/' ∉ text := fun hc => hplain (List.mem_cons_of_mem c hc)
    have hslash : c ≠ '/' := fun hc => hplain (hc ▸ List.mem_cons_self)
    rw [Scanner.nameTail]
    split
    · next hnone => cases h.current.symm.trans hnone
    next d hd =>
    obtain rfl : c = d := Option.some.inj (h.current.symm.trans hd)
    change ∃ s', (if isNameChar c = true then _ else _) = _ ∧ _
    by_cases hc : isNameChar c = true
    · obtain ⟨s', hs', hshows⟩ := ih h.advance hrest
      refine ⟨s', ?_, ?_⟩
      · rw [if_pos hc, if_neg hslash, hs', List.takeWhile_cons_of_pos hc]
      · rwa [List.dropWhile_cons_of_pos hc]
    · refine ⟨s, ?_, ?_⟩
      · rw [if_neg hc, List.takeWhile_cons_of_neg hc]
      · rwa [List.dropWhile_cons_of_neg hc]

end Scanner

/-! ### Tokens -/

/-- The reader has come to the text, and past the blanks that it begins with.  Nothing in it
starts a comment. -/
structure Reading.At (r : Reading) (text : List Char) : Prop where
  shows : r.scanner.Shows (trimmed text)
  plain : '/' ∉ text

namespace Reading.At

variable {r : Reading} {text rest : List Char} {c : Char}

theorem current_eq (h : r.At text) : r.scanner.current = (trimmed text).head? :=
  h.shows.current

theorem current_eq_some (h : r.At text) (htext : trimmed text = c :: rest) :
    r.scanner.current = some c := by
  rw [h.current_eq, htext]
  rfl

theorem advance_shows (h : r.At text) (htext : trimmed text = c :: rest) :
    r.scanner.advance.Shows rest := by
  have hadvance := h.shows.advance
  rwa [htext] at hadvance

theorem plain_rest (h : r.At text) (htext : trimmed text = c :: rest) : '/' ∉ rest := by
  intro hc
  apply h.plain
  apply (trimmed_suffix text).mem
  rw [htext]
  exact List.mem_cons_of_mem c hc

theorem blanks (h : r.At text) (hblanks : Blanks text rest) : r.At rest :=
  ⟨hblanks.trimmed_eq ▸ h.shows, fun hc => h.plain (hblanks.suffix.mem hc)⟩

end Reading.At

namespace Parse

/-- The parser succeeds with something that has the property, and comes to the text. -/
def Gives {α : Type} (p : Parse α) (r : Reading) (P : α → Prop) (text : List Char) : Prop :=
  ∃ a r', p r = .ok a r' ∧ P a ∧ r'.At text

section Gives

variable {α β : Type} {p : Parse α} {f : α → Parse β} {P : α → Prop} {Q : β → Prop}
  {r : Reading} {text rest : List Char}

theorem Gives.pure {a : α} (hr : r.At text) (ha : P a) : Gives (pure a) r P text :=
  ⟨a, r, rfl, ha, hr⟩

theorem Gives.bind (hp : Gives p r P text)
    (hf : ∀ a r', P a → r'.At text → Gives (f a) r' Q rest) : Gives (p >>= f) r Q rest := by
  obtain ⟨a, r₁, hok, ha, hr₁⟩ := hp
  obtain ⟨b, r₂, hok', hb, hr₂⟩ := hf a r₁ ha hr₁
  exact ⟨b, r₂, (Outcome.bind_of_ok hok).trans hok', hb, hr₂⟩

theorem current_bind {α : Type} (f : Option Char → Parse α) (r : Reading) :
    (current >>= f) r = f r.scanner.current r := rfl

theorem Gives.current {k : Option Char} {f : Option Char → Parse α}
    (hk : r.scanner.current = k) (hf : Gives (f k) r P text) :
    Gives (current >>= f) r P text := by
  subst hk
  exact hf

end Gives

variable {r r' : Reading} {text rest : List Char} {s x : String} {c : Char}

theorem skip_gives (h : r.scanner.Shows text) (hplain : '/' ∉ text) :
    Gives skip r (fun _ => True) text := by
  obtain ⟨s', hs', hshows⟩ := h.skip hplain
  refine ⟨[], { r with scanner := s' }, ?_, trivial, hshows, hplain⟩
  show EStateM.Result.ok r.scanner.skip.1 { r with scanner := r.scanner.skip.2 } = _
  rw [hs']

theorem expect_gives (hs : s.toList = [c]) (hr : r.At text) (h : trimmed text = c :: rest) :
    Gives (expect s) r (fun _ => True) rest := by
  let r₁ : Reading := { r with scanner := r.scanner.advance }
  have htake : takeAll s s.toList r = .ok () r₁ := by
    rw [hs, takeAll, current_bind, if_pos (hr.current_eq_some h)]
    rfl
  have hshows : r₁.scanner.Shows rest := hr.advance_shows h
  obtain ⟨a, r₂, hskip, ha, hr₂⟩ := skip_gives hshows (hr.plain_rest h)
  exact ⟨a, r₂, (Outcome.bind_of_ok htake).trans hskip, ha, hr₂⟩

theorem expect_eq_ok {a : List String} (hs : s.toList = [c]) (hr : r.At text)
    (h : expect s r = .ok a r') : ∃ rest, trimmed text = c :: rest ∧ r'.At rest := by
  have hcurrent : r.scanner.current = some c := by
    obtain ⟨_, r₁, htake, -⟩ := Outcome.bind_eq_ok h
    rw [hs, takeAll, current_bind] at htake
    split at htake
    · assumption
    · cases htake
  obtain ⟨rest, hrest⟩ : ∃ rest, trimmed text = c :: rest :=
    List.head?_eq_some_iff.mp (hr.current_eq.symm.trans hcurrent)
  obtain ⟨_, r₁, hok, -, hr₁⟩ := expect_gives hs hr hrest
  cases h.symm.trans hok
  exact ⟨rest, hrest, hr₁⟩

theorem close_gives {mid : List Char} (hs : s.toList = [c]) (hblank : isBlank c = false)
    (hr : r.At text) (hmid : Blanks text mid) (hclosed : Closed c mid rest) :
    Gives (expectUnlessAtEnd s) r (fun _ => True) rest := by
  have hr' := hr.blanks hmid
  rcases hclosed with rfl | ⟨rfl, rfl⟩
  · have htrimmed : trimmed (c :: rest) = c :: rest := trimmed_cons hblank
    obtain ⟨a, r₁, hok, -, hr₁⟩ := expect_gives hs hr' htrimmed
    refine ⟨(), r₁, ?_, trivial, hr₁⟩
    rw [expectUnlessAtEnd, current_bind, hr'.current_eq, htrimmed, List.head?_cons,
      if_pos Option.isSome_some, Outcome.bind_of_ok hok]
    rfl
  · refine ⟨(), r, ?_, trivial, hr'⟩
    rw [expectUnlessAtEnd, current_bind, hr'.current_eq, if_neg (by decide)]
    rfl

theorem close_eq_ok {u : Unit} (hs : s.toList = [c]) (hr : r.At text)
    (h : expectUnlessAtEnd s r = .ok u r') : ∃ rest, Closed c (trimmed text) rest ∧ r'.At rest := by
  rw [expectUnlessAtEnd, current_bind] at h
  split at h
  · obtain ⟨a, r₁, hexpect, hgo⟩ := Outcome.bind_eq_ok h
    cases hgo
    obtain ⟨rest, hrest, hr₁⟩ := expect_eq_ok hs hr hexpect
    exact ⟨rest, .inl hrest, hr₁⟩
  · next hnone =>
    cases h
    have hnil : trimmed text = [] := by
      rw [← List.head?_eq_none_iff, ← hr.current_eq]
      simpa using hnone
    refine ⟨[], .inr ⟨hnil, rfl⟩, ?_, List.not_mem_nil⟩
    have hshows := hr.shows
    rwa [hnil] at hshows

theorem identifier_gives (hr : r.At text) (h : Named x text rest) :
    Gives identifier r (· = x) rest := by
  obtain ⟨c, tail, hc, htext, hx, hrest⟩ := h.eq_cons
  have htrimmed : trimmed text = c :: tail := by
    rw [htext]
    exact trimmed_cons (isBlank_eq_false_of_isNameChar hc)
  obtain ⟨s₁, hs₁, hshows⟩ := (hr.advance_shows htrimmed).nameTail (hr.plain_rest htrimmed)
  let r₁ : Reading := { r with scanner := r.scanner.advance }
  let r₂ : Reading := { r with scanner := s₁ }
  have hadvance : advance r = .ok () r₁ := rfl
  have hscan : scan Scanner.nameTail r₁ = .ok (tail.takeWhile isNameChar) r₂ := by
    show EStateM.Result.ok r.scanner.advance.nameTail.1
      { r with scanner := r.scanner.advance.nameTail.2 } = _
    rw [hs₁]
  have hplain : '/' ∉ rest := fun hc => hr.plain (h.suffix.mem hc)
  rw [← hrest] at hshows
  obtain ⟨a, r₃, hskip, -, hr₃⟩ := skip_gives (r := r₂) hshows hplain
  refine ⟨x, r₃, ?_, rfl, hr₃⟩
  rw [identifier, current_bind, hr.current_eq_some htrimmed,
    if_pos (show CharClass.name.has (some c) = true from hc), Outcome.bind_of_ok hadvance,
    Outcome.bind_of_ok hscan, Outcome.bind_of_ok hskip, hx]
  rfl

/-- A name begins with the character in hand. -/
theorem isNameChar_of_identifier (h : identifier r = .ok x r') :
    ∃ c, r.scanner.current = some c ∧ isNameChar c = true := by
  rw [identifier, current_bind] at h
  split at h
  · next hname =>
    rcases hcurrent : r.scanner.current with - | c
    · rw [hcurrent] at hname
      cases hname
    · rw [hcurrent] at hname
      exact ⟨c, rfl, hname⟩
  · cases h

theorem identifier_eq_ok (hr : r.At text) (h : identifier r = .ok x r') :
    ∃ rest, Named x (trimmed text) rest ∧ r'.At rest := by
  obtain ⟨c, hcurrent, hc⟩ := isNameChar_of_identifier h
  obtain ⟨tail, htail⟩ : ∃ tail, trimmed text = c :: tail :=
    List.head?_eq_some_iff.mp (hr.current_eq.symm.trans hcurrent)
  have hnamed := named_cons hc tail
  rw [← htail] at hnamed
  obtain ⟨_, r₁, hok, rfl, hr₁⟩ := identifier_gives (hr.blanks (blanks_trimmed text)) hnamed
  cases h.symm.trans hok
  exact ⟨_, hnamed, hr₁⟩

theorem name_gives (hr : r.At text) (h : Named x text rest)
    (hx : (Keyword.ofName? x).isSome = false) : Gives name r (· = x) rest := by
  refine (identifier_gives hr h).bind fun y r₁ hy hr₁ => ?_
  subst hy
  rw [if_neg (by rw [hx]; decide)]
  exact .pure hr₁ rfl

theorem name_eq_ok (hr : r.At text) (h : name r = .ok x r') :
    ∃ rest, Named x (trimmed text) rest ∧ (Keyword.ofName? x).isSome = false ∧ r'.At rest := by
  obtain ⟨y, r₁, hidentifier, hgo⟩ := Outcome.bind_eq_ok h
  split at hgo
  · cases hgo
  · next hkeyword =>
    cases hgo
    obtain ⟨rest, hnamed, hr₁⟩ := identifier_eq_ok hr hidentifier
    exact ⟨rest, hnamed, by simpa using hkeyword, hr₁⟩

theorem argumentName_gives (hr : r.At text) (h : Named x text rest) (hx : isReserved x = false) :
    Gives argumentName r (· = x) rest := by
  obtain ⟨hkeyword, haction⟩ := Bool.or_eq_false_iff.mp hx
  refine (name_gives hr h hkeyword).bind fun y r₁ hy hr₁ => ?_
  subst hy
  rw [if_neg (by rw [haction]; decide)]
  exact .pure hr₁ rfl

theorem named_of_argumentName (hr : r.At text) (h : argumentName r = .ok x r') :
    ∃ rest, Named x (trimmed text) rest ∧ isReserved x = false ∧ r'.At rest := by
  have hreserved := (argumentName_eq_ok h).1
  obtain ⟨y, r₁, hname, hgo⟩ := Outcome.bind_eq_ok h
  split at hgo
  · cases hgo
  · cases hgo
    obtain ⟨rest, hnamed, -, hr₁⟩ := name_eq_ok hr hname
    exact ⟨rest, hnamed, hreserved, hr₁⟩

end Parse

end LambdaScript
