import QueryGraph.Proofs.Number.Text
import QueryGraph.Proofs.Text.Lexer
import QueryGraph.Text.Blank

namespace QueryGraph.Text

/-!
# Words, literals and comments of a query text

* `Lexeme`, `lexemes`: what a query text consists of.  Blanks separate words, and so do
  parentheses and commas; of literals and comments only their places are kept.
* `Reads`: a text that consists of certain lexemes wherever it stands apart.
* `Opens`: a text behind which another one stands apart, as it ends in a blank or in a
  parenthesis.
* `Separates`: a text that keeps those before it and behind it apart.
* `Reads.setOff`: the lexemes of a text do not change when it is indented.
-/

/-- A part of a query text. -/
inductive Lexeme where
  | word (text : String)
  | opening
  | closing
  | comma
  | literal
  | comment
deriving DecidableEq

/-! ### The reader -/

/-- What has been read: where the lexer stands, the characters of a word that has not ended, and
    the lexemes before it.  Of both the last one comes first. -/
structure Reading where
  mode : Mode
  pending : List Char
  found : List Lexeme
deriving DecidableEq

namespace Reading

/-- Nothing read. -/
def start : Reading := ⟨.code, [], []⟩

/-- End the word, if there is one. -/
def flush (r : Reading) : Reading :=
  { r with
    pending := []
    found :=
      if r.pending.isEmpty then r.found
      else .word (String.ofList r.pending.reverse) :: r.found }

/-- Take the last character of the word back. -/
def back (r : Reading) : Reading := { r with pending := r.pending.tail }

/-- End the word and add a lexeme. -/
def emit (r : Reading) (m : Mode) (l : Lexeme) : Reading := ⟨m, [], l :: r.flush.found⟩

/-- Read one more character.  A literal that is taken up again is still the same one, and of a
    comment the first hyphen has been taken for a part of a word. -/
def next (r : Reading) (c : Char) : Reading :=
  let m := r.mode.next c
  match r.mode with
  | .literal => { r with mode := m }
  | .comment => { r.flush with mode := m }
  | .code | .hyphen | .ended =>
    if c = '\'' then
      if r.mode = .ended then { r with mode := m } else r.emit m .literal
    else if m = .comment then r.back.emit m .comment
    else if c = '(' then r.emit m .opening
    else if c = ')' then r.emit m .closing
    else if c = ',' then r.emit m .comma
    else if isBlank c then { r.flush with mode := m }
    else { r with mode := m, pending := c :: r.pending }

end Reading

/-- The lexemes of a query text. -/
def lexemes (s : String) : List Lexeme :=
  (s.toList.foldl Reading.next Reading.start).flush.found.reverse

/-- The reader takes no notice of the spaces in front of a line, nor of a return in front of a
    feed. -/
theorem Reading.overlooksMargins : OverlooksMargins Reading.next := by
  constructor
  · rintro ⟨mode, pending, found⟩
    cases mode <;> rfl
  · rintro ⟨mode, pending, found⟩
    cases mode <;> rfl
  · rintro ⟨mode, pending, found⟩
    cases mode <;> rfl

/-! ### Texts that stand apart -/

/-- Outside of words, literals and comments, the text is read as these lexemes.  A word at its
    end may go on behind it. -/
def Reads (s : String) (ls : List Lexeme) : Prop :=
  ∀ found : List Lexeme, ∃ m : Mode, m.IsSettled ∧
    (s.toList.foldl Reading.next ⟨.code, [], found⟩).flush = ⟨m, [], ls.reverse ++ found⟩

/-- Outside of words, literals and comments, the text is read as these lexemes, and leads there
    again. -/
def Opens (s : String) (ls : List Lexeme) : Prop :=
  ∀ found : List Lexeme,
    s.toList.foldl Reading.next ⟨.code, [], found⟩ = ⟨.code, [], ls.reverse ++ found⟩

/-- Behind a word or a literal, the text is read as these lexemes, and leads outside. -/
def Separates (s : String) (ls : List Lexeme) : Prop :=
  ∀ r : Reading, r.mode.IsSettled →
    s.toList.foldl Reading.next r = ⟨.code, [], ls.reverse ++ r.flush.found⟩

section Composition

variable {s t : String} {ls ms : List Lexeme}

theorem opens_empty : Opens "" [] := fun _ => rfl

/-- Texts that lead outside again may be put one behind the other. -/
theorem Opens.append (hs : Opens s ls) (ht : Opens t ms) : Opens (s ++ t) (ls ++ ms) := by
  intro found
  rw [String.toList_append, List.foldl_append, hs found, ht]
  simp

/-- A text stands apart behind one that opens. -/
theorem Opens.reads (hs : Opens s ls) (ht : Reads t ms) : Reads (s ++ t) (ls ++ ms) := by
  intro found
  obtain ⟨m, hm, hread⟩ := ht (ls.reverse ++ found)
  refine ⟨m, hm, ?_⟩
  rw [String.toList_append, List.foldl_append, hs found, hread]
  simp

theorem Opens.toReads (h : Opens s ls) : Reads s ls :=
  fun found => ⟨.code, Mode.isSettled_code, by rw [h found]; rfl⟩

/-- What separates ends the last word of the text before it. -/
theorem Reads.opens (hs : Reads s ls) (ht : Separates t ms) : Opens (s ++ t) (ls ++ ms) := by
  intro found
  obtain ⟨m, hm, hread⟩ := hs found
  rw [String.toList_append, List.foldl_append]
  generalize s.toList.foldl Reading.next ⟨.code, [], found⟩ = r at hread ⊢
  -- To end the word does not change where the lexer stands.
  have hmode : r.mode = m := congrArg Reading.mode hread
  rw [ht r (hmode ▸ hm), hread]
  simp

/-- The lexemes of a text that is read as some are those. -/
theorem Reads.lexemes_eq (h : Reads s ls) : lexemes s = ls := by
  obtain ⟨m, -, hread⟩ := h []
  rw [lexemes, Reading.start, hread]
  simp

/-- A list is read as its items, with the lexemes of the separator between them. -/
theorem reads_intercalate {separator : String} {ks : List Lexeme}
    (hseparator : Separates separator ks) {items : List String} {lss : List (List Lexeme)}
    (h : List.Forall₂ Reads items lss) :
    Reads (separator.intercalate items) (ks.intercalate lss) := by
  induction h with
  | nil => simpa using opens_empty.toReads
  | @cons s ls rest lss hs hrest ih =>
    -- The last item has no separator behind it.
    cases hrest with
    | nil => simpa using hs
    | cons hs' hrest =>
      rw [String.intercalate_cons_cons, List.intercalate_cons_cons]
      exact (hs.opens hseparator).reads ih

/-- Texts that can be read one by one. -/
theorem exists_forall₂_reads {P : List Lexeme → Prop} {items : List String}
    (h : ∀ s ∈ items, ∃ ls, P ls ∧ Reads s ls) :
    ∃ lss, (∀ ls ∈ lss, P ls) ∧ List.Forall₂ Reads items lss := by
  induction items with
  | nil => exact ⟨[], by simp, .nil⟩
  | cons s rest ih =>
    rw [List.forall_mem_cons] at h
    obtain ⟨ls, hls, hs⟩ := h.1
    obtain ⟨lss, hlss, hrest⟩ := ih h.2
    exact ⟨ls :: lss, List.forall_mem_cons.mpr ⟨hls, hlss⟩, .cons hs hrest⟩

end Composition

/-! ### Fixed texts -/

/-- What has been read, on top of other lexemes. -/
def Reading.above (r : Reading) (found : List Lexeme) : Reading :=
  { r with found := r.found ++ found }

/-- Ending a word takes no notice of the lexemes before it. -/
theorem Reading.flush_above (r : Reading) (found : List Lexeme) :
    (r.above found).flush = r.flush.above found := by
  obtain ⟨mode, pending, before⟩ := r
  cases pending <;> rfl

/-- Adding a lexeme takes no notice of the lexemes before it. -/
theorem Reading.emit_above (r : Reading) (found : List Lexeme) (m : Mode) (l : Lexeme) :
    (r.above found).emit m l = (r.emit m l).above found := by
  rw [emit, flush_above]
  rfl

/-- The lexemes read so far have no influence on what comes. -/
theorem Reading.next_above (r : Reading) (found : List Lexeme) (c : Char) :
    (r.above found).next c = (r.next c).above found := by
  have hmode : (r.above found).mode = r.mode := rfl
  have hback : (r.above found).back = r.back.above found := rfl
  simp only [next, hmode, hback, emit_above, flush_above]
  cases r.mode with
  | literal | comment => rfl
  | code | hyphen | ended => split_ifs <;> rfl

/-- Reading a text takes no notice of the lexemes before it. -/
theorem Reading.foldl_above (cs : List Char) (r : Reading) (found : List Lexeme) :
    cs.foldl Reading.next (r.above found) = (cs.foldl Reading.next r).above found := by
  induction cs generalizing r with
  | nil => rfl
  | cons c cs ih => rw [List.foldl_cons, List.foldl_cons, next_above, ih]

/-- To see that a text opens, it is enough to read it on its own. -/
theorem opens_of_read {s : String} {ls : List Lexeme}
    (h : s.toList.foldl Reading.next Reading.start = ⟨.code, [], ls.reverse⟩) : Opens s ls := by
  intro found
  have habove := Reading.foldl_above s.toList Reading.start found
  rw [h] at habove
  exact habove

/-- To see that a fixed text is read as certain lexemes, it is enough to read it on its own. -/
theorem reads_of_read {s : String} {ls : List Lexeme}
    (h : (s.toList.foldl Reading.next Reading.start).flush = ⟨.code, [], ls.reverse⟩) :
    Reads s ls := by
  intro found
  refine ⟨.code, Mode.isSettled_code, ?_⟩
  have habove := Reading.foldl_above s.toList Reading.start found
  change s.toList.foldl Reading.next ⟨.code, [], found⟩ = _ at habove
  rw [habove, Reading.flush_above, h]
  rfl

/-- Characters that end a word before them. -/
def endsWord (c : Char) : Bool := c = '(' || c = ')' || c = ',' || isBlank c

/-- What ends a word is read behind it as if the word had ended already. -/
theorem Reading.next_endsWord {r : Reading} (hr : r.mode.IsSettled) {c : Char}
    (hc : endsWord c = true) : r.next c = Reading.next ⟨.code, [], r.flush.found⟩ c := by
  have hquote : c ≠ '\'' := by
    rintro rfl
    exact absurd hc (by decide)
  have hhyphen : c ≠ '-' := by
    rintro rfl
    exact absurd hc (by decide)
  have hcode : Mode.code.next c = .code := by simp [Mode.next, hquote, hhyphen]
  have hnext : r.mode.next c = .code := by rw [hr.next_eq, hcode]
  simp only [endsWord, Bool.or_eq_true, decide_eq_true_eq] at hc
  simp only [next, hnext, hcode, hquote, if_false, reduceCtorEq]
  rcases hr with hr | hr <;> rw [hr] <;> split_ifs with hopen hclose hcomma hblank
  -- In each case the word is ended first, whatever is added then.
  all_goals first | rfl | simp_all

/-- A text that opens separates if it ends what stands before it. -/
theorem Opens.separates {s : String} {ls : List Lexeme} (h : Opens s ls)
    (hs : s.toList.head?.any endsWord = true) : Separates s ls := by
  intro r hr
  obtain ⟨c, hhead, hc⟩ := (Option.any_eq_true _ _).mp hs
  obtain ⟨rest, hrest⟩ := List.head?_eq_some_iff.mp hhead
  have hread := h r.flush.found
  rw [hrest, List.foldl_cons] at hread ⊢
  rw [Reading.next_endsWord hr hc, hread]

/-- To see that a fixed text separates, it is enough to read it on its own. -/
theorem separates_of_read {s : String} {ls : List Lexeme}
    (h : s.toList.foldl Reading.next Reading.start = ⟨.code, [], ls.reverse⟩)
    (hs : s.toList.head?.any endsWord = true) : Separates s ls :=
  (opens_of_read h).separates hs

/-! ### Words -/

/-- Characters that stand within words, hyphens apart. -/
def isWordChar (c : Char) : Bool :=
  isRawChar c && c ≠ ',' && !isBlank c

/-- A character of a word goes on the word. -/
theorem Reading.next_wordChar {c : Char} (hc : isWordChar c = true) {m : Mode}
    (hm : m = .code ∨ m = .hyphen) (pending : List Char) (found : List Lexeme) :
    Reading.next ⟨m, pending, found⟩ c = ⟨.code, c :: pending, found⟩ := by
  simp only [isWordChar, Bool.and_eq_true, decide_eq_true_eq, Bool.not_eq_true'] at hc
  obtain ⟨⟨hraw, hcomma⟩, hblank⟩ := hc
  obtain ⟨hquote, hopen, hclose, -⟩ := isRawChar_iff.mp hraw
  have hnext : m.next c = .code := Mode.next_raw (by rcases hm with rfl | rfl <;> rfl) hraw
  rcases hm with rfl | rfl <;> simp [next, hnext, hquote, hopen, hclose, hcomma, hblank]

/-- Characters that go on a word. -/
def GoesOn (cs : List Char) : Prop :=
  ∀ (pending : List Char) (found : List Lexeme),
    cs.foldl Reading.next ⟨.code, pending, found⟩ = ⟨.code, cs.reverse ++ pending, found⟩

/-- A text that goes on a word is a word when it stands apart. -/
theorem GoesOn.reads {s : String} (h : GoesOn s.toList) (hs : s ≠ "") : Reads s [.word s] := by
  intro found
  refine ⟨.code, Mode.isSettled_code, ?_⟩
  have hne : s.toList ≠ [] := by simpa using hs
  rw [h [] found]
  simp [Reading.flush, hne]

/-- Characters of words go on a word. -/
theorem goesOn_of_all {cs : List Char} (h : ∀ c ∈ cs, isWordChar c = true) : GoesOn cs := by
  intro pending found
  induction cs generalizing pending with
  | nil => rfl
  | cons c cs ih =>
    rw [List.forall_mem_cons] at h
    rw [List.foldl_cons, Reading.next_wordChar h.1 (Or.inl rfl), ih h.2]
    simp

/-- A word of characters other than hyphens. -/
theorem reads_word {s : String} (h : ∀ c ∈ s.toList, isWordChar c = true) (hs : s ≠ "") :
    Reads s [.word s] :=
  (goesOn_of_all h).reads hs

/-- All signs that do not stand within words, and all blanks, are outside of this range. -/
theorem isWordChar_of_bounds {c : Char} (h : 48 ≤ c.toNat ∧ c.toNat ≤ 122) :
    isWordChar c = true := by
  have hblank : isBlank c = false := by
    simp only [isBlank, Bool.or_eq_false_iff, Bool.and_eq_false_iff, decide_eq_false_iff_not,
      beq_eq_false_iff_ne]
    omega
  have hraw : isRawChar c = true := by
    rw [isRawChar_iff]
    refine ⟨?_, ?_, ?_, ?_⟩ <;> rintro rfl <;> exact absurd h (by decide)
  have hcomma : c ≠ ',' := by
    rintro rfl
    exact absurd h (by decide)
  simp [isWordChar, hraw, hcomma, hblank]

/-- Digits stand within words. -/
theorem isWordChar_of_isDigit {c : Char} (h : c.isDigit = true) : isWordChar c = true := by
  obtain ⟨hlow, hhigh⟩ := (Bool.and_eq_true _ _).mp h
  have hlow : 48 ≤ c.toNat := of_decide_eq_true hlow
  have hhigh : c.toNat ≤ 57 := of_decide_eq_true hhigh
  exact isWordChar_of_bounds (by omega)

/-- Letters stand within words. -/
theorem isWordChar_of_isAlpha {c : Char} (h : c.isAlpha = true) : isWordChar c = true := by
  rcases (Bool.or_eq_true _ _).mp h with hupper | hlower
  · have hbounds : 65 ≤ c.toNat ∧ c.toNat ≤ 90 := of_decide_eq_true hupper
    exact isWordChar_of_bounds (by omega)
  · obtain ⟨hlow, hhigh⟩ := (Bool.and_eq_true _ _).mp hlower
    have hlow : 97 ≤ c.toNat := of_decide_eq_true hlow
    have hhigh : c.toNat ≤ 122 := of_decide_eq_true hhigh
    exact isWordChar_of_bounds (by omega)

/-- The characters of numbers stand within words. -/
theorem isWordChar_of_isNumeralChar {c : Char} (h : isNumeralChar c = true) :
    isWordChar c = true := by
  simp only [isNumeralChar, Bool.or_eq_true, decide_eq_true_eq] at h
  rcases h with ((hdigit | rfl) | rfl) | rfl
  · exact isWordChar_of_isDigit hdigit
  · decide
  · decide
  · decide

/-- A number is a word, since none of its hyphens is followed by another one. -/
theorem goesOn_of_isNumeral {cs : List Char} (h : IsNumeral cs) : GoesOn cs := by
  intro pending found
  induction h generalizing pending with
  | nil => rfl
  | cons hc _ ih =>
    rw [List.foldl_cons, Reading.next_wordChar (isWordChar_of_isNumeralChar hc) (Or.inl rfl), ih]
    simp
  | @hyphen c cs hc _ ih =>
    have hchar := isWordChar_of_isNumeralChar (isNumeralChar_of_isDigit hc)
    have hhyphen : Reading.next ⟨.code, pending, found⟩ '-'
        = ⟨.hyphen, '-' :: pending, found⟩ := rfl
    -- Behind the hyphen the digit is read as it would be without one.
    have hstep := ih ('-' :: pending)
    rw [List.foldl_cons, Reading.next_wordChar hchar (Or.inl rfl)] at hstep
    rw [List.foldl_cons, hhyphen, List.foldl_cons, Reading.next_wordChar hchar (Or.inr rfl), hstep]
    simp

/-! ### Literals, comments and lines -/

/-- Inside of a literal nothing is read, since every quote is doubled. -/
theorem foldl_doubleQuotes (cs : List Char) (found : List Lexeme) :
    (doubleQuotes cs).foldl Reading.next ⟨.literal, [], found⟩ = ⟨.literal, [], found⟩ := by
  induction cs with
  | nil => rfl
  | cons c cs ih =>
    rw [doubleQuotes_cons, List.foldl_append]
    by_cases hc : c = '\''
    · rw [if_pos hc]
      exact ih
    · rw [if_neg hc]
      simpa [Reading.next, Mode.next, hc] using ih

/-- A quoted text is read as one literal. -/
theorem reads_quote (s : String) : Reads (quote s) [.literal] := by
  intro found
  have hopen : Reading.next ⟨.code, [], found⟩ '\'' = ⟨.literal, [], .literal :: found⟩ := rfl
  refine ⟨.ended, Or.inr rfl, ?_⟩
  rw [toList_quote, quoteChars, List.foldl_cons, hopen, List.foldl_append, foldl_doubleQuotes]
  rfl

/-- A line of comment. -/
theorem opens_comment {s : String} (h : '\n' ∉ s.toList) :
    Opens ("--" ++ s ++ "\n") [.comment] := by
  intro found
  -- Nothing ends the comment before its line feed.
  have hbody : ∀ cs : List Char, '\n' ∉ cs →
      cs.foldl Reading.next ⟨.comment, [], .comment :: found⟩
        = ⟨.comment, [], .comment :: found⟩ := by
    intro cs hcs
    induction cs with
    | nil => rfl
    | cons c cs ih =>
      rw [List.mem_cons, not_or] at hcs
      have hnext : Reading.next ⟨.comment, [], .comment :: found⟩ c
          = ⟨.comment, [], .comment :: found⟩ := by
        simp [Reading.next, Reading.flush, Mode.next, Ne.symm hcs.1]
      rw [List.foldl_cons, hnext, ih hcs.2]
  have hhyphens : "--".toList.foldl Reading.next ⟨.code, [], found⟩
      = ⟨.comment, [], .comment :: found⟩ := rfl
  rw [String.toList_append, String.toList_append, List.foldl_append, List.foldl_append, hhyphens,
    hbody s.toList h]
  rfl

/-- Indented, the lines of a text are read as the same lexemes. -/
theorem Reads.setOff {s : String} {ls : List Lexeme} (h : Reads s ls) :
    Opens (indent s ++ "\n") ls := by
  have hfeed : Separates "\n" [] := separates_of_read (by decide) (by decide)
  have hopens := h.opens hfeed
  intro found
  have hread := hopens found
  rw [String.toList_append] at hread ⊢
  rw [toList_indent, indentChars_eq]
  rw [List.append_nil] at hread
  exact (foldl_indentFrom Reading.overlooksMargins true s.toList _ fun _ => rfl).trans hread

end QueryGraph.Text
