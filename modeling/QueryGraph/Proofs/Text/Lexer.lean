import QueryGraph.Proofs.Text.Indent
import QueryGraph.Text.Quoted

namespace QueryGraph.Text

/-!
# Literals, comments and parentheses of a query text

* `Mode`, `Mode.next`: where a lexer stands, and where it stands behind one more character.  A
  quote begins or ends a literal, two hyphens outside of literals begin a comment, and a line
  feed ends it.
* `Scan.run`: the lexer together with the number of open parentheses, which stops where a
  parenthesis closes that was not opened.
* `isClosed`: nothing is open at the end of a text.
* `Neutral`: texts that may stand anywhere outside of literals and comments, since they leave
  the lexer as they find it.
* `foldl_indentFrom`: whoever reads a text character by character and overlooks blanks at line
  ends reads the same when it is indented.
-/

/-! ### The lexer -/

/-- Where a lexer stands.  Behind a quote that ends a literal it is outside again, but another
    quote there takes up the literal: two quotes inside one stand for a single one. -/
inductive Mode where
  | code
  | hyphen
  | literal
  | ended
  | comment
deriving DecidableEq

namespace Mode

/-- Outside of literals and comments. -/
def isOutside : Mode → Bool
  | .code | .hyphen | .ended => true
  | .literal | .comment => false

/-- Where the lexer stands behind one more character. -/
def next : Mode → Char → Mode
  | .literal, c => if c = '\'' then .ended else .literal
  | .comment, c => if c = '\n' then .code else .comment
  | .hyphen, c => if c = '\'' then .literal else if c = '-' then .comment else .code
  | .code, c | .ended, c => if c = '\'' then .literal else if c = '-' then .hyphen else .code

/-- Where the lexer stands behind a text. -/
def after (m : Mode) (cs : List Char) : Mode := cs.foldl next m

@[simp] theorem after_nil (m : Mode) : m.after [] = m := rfl

@[simp] theorem after_cons (m : Mode) (c : Char) (cs : List Char) :
    m.after (c :: cs) = (m.next c).after cs := rfl

theorem after_append (m : Mode) (a b : List Char) : m.after (a ++ b) = (m.after a).after b :=
  List.foldl_append

/-- Outside, and not behind a hyphen, which could make a comment of another one. -/
def IsSettled (m : Mode) : Prop := m = .code ∨ m = .ended

instance (m : Mode) : Decidable m.IsSettled := inferInstanceAs (Decidable (_ ∨ _))

theorem isSettled_code : IsSettled .code := Or.inl rfl

/-- From the two settled modes the lexer goes on in the same way. -/
theorem IsSettled.next_eq {m : Mode} (h : m.IsSettled) (c : Char) : m.next c = code.next c := by
  rcases h with rfl | rfl <;> rfl

theorem IsSettled.isOutside {m : Mode} (h : m.IsSettled) : m.isOutside = true := by
  rcases h with rfl | rfl <;> rfl

end Mode

/-- The lexer with the number of parentheses that are open. -/
structure Scan where
  mode : Mode
  depth : Nat
deriving DecidableEq

namespace Scan

/-- Nothing read. -/
def start : Scan := ⟨.code, 0⟩

/-- Read one more character.  Parentheses count outside of literals and comments; nothing comes
    of one that closes none. -/
def next (s : Scan) (c : Char) : Option Scan :=
  if s.mode.isOutside && c = '(' then some ⟨s.mode.next c, s.depth + 1⟩
  else if s.mode.isOutside && c = ')' then
    match s.depth with
    | 0 => none
    | depth + 1 => some ⟨s.mode.next c, depth⟩
  else some ⟨s.mode.next c, s.depth⟩

/-- Read one more character, if all has gone well so far. -/
def advance (s : Option Scan) (c : Char) : Option Scan := s.bind fun s => s.next c

/-- Read a text. -/
def run (s : Scan) (cs : List Char) : Option Scan := cs.foldl advance (some s)

@[simp] theorem run_nil (s : Scan) : s.run [] = some s := rfl

/-- Reading stops for good where a parenthesis closes none. -/
theorem foldl_advance (s : Option Scan) (cs : List Char) :
    cs.foldl advance s = s.bind fun s => s.run cs := by
  cases s with
  | some s => rfl
  | none =>
    induction cs with
    | nil => rfl
    | cons c cs ih => exact ih

@[simp] theorem run_cons (s : Scan) (c : Char) (cs : List Char) :
    s.run (c :: cs) = (s.next c).bind fun s => s.run cs :=
  foldl_advance (s.next c) cs

/-- A text in two parts is read part by part. -/
theorem run_append (s : Scan) (a b : List Char) :
    s.run (a ++ b) = (s.run a).bind fun s => s.run b := by
  rw [run, List.foldl_append, foldl_advance]
  rfl

theorem next_of_ne {s : Scan} {c : Char} (hopen : c ≠ '(') (hclose : c ≠ ')') :
    s.next c = some ⟨s.mode.next c, s.depth⟩ := by
  simp [next, hopen, hclose]

theorem next_of_inside {s : Scan} (h : s.mode.isOutside = false) (c : Char) :
    s.next c = some ⟨s.mode.next c, s.depth⟩ := by
  simp [next, h]

/-- Counting parentheses does not change where the lexer stands. -/
theorem mode_of_next {s t : Scan} {c : Char} (h : s.next c = some t) :
    t.mode = s.mode.next c := by
  unfold next at h
  split at h
  · rw [← Option.some.inj h]
  · split at h
    · split at h
      · simp at h
      · rw [← Option.some.inj h]
    · rw [← Option.some.inj h]

/-- The parentheses have no influence on literals and comments. -/
theorem mode_of_run {s t : Scan} {cs : List Char} (h : s.run cs = some t) :
    t.mode = s.mode.after cs := by
  induction cs generalizing s with
  | nil => rw [← Option.some.inj h, Mode.after_nil]
  | cons c cs ih =>
    rw [run_cons] at h
    obtain ⟨u, hu, ht⟩ := Option.bind_eq_some_iff.mp h
    rw [ih ht, mode_of_next hu, Mode.after_cons]

end Scan

/-- At the end of the text the lexer is outside of literals and comments, every parenthesis
    opened is closed, and none was closed before it was opened. -/
def isClosed (s : String) : Bool :=
  match Scan.start.run s.toList with
  | some ⟨mode, depth⟩ => mode.isOutside && depth = 0
  | none => false

/-! ### Indentation -/

/-- One who reads character by character and takes no notice of spaces and of returns at line
    ends, nor of empty lines. -/
structure OverlooksMargins {σ : Type} (read : σ → Char → σ) : Prop where
  space : ∀ s, read (read s '\n') ' ' = read s '\n'
  feed : ∀ s, read (read s '\n') '\n' = read s '\n'
  return_feed : ∀ s, read (read s '\r') '\n' = read s '\n'

/-- The end of the text makes a difference, as a line feed there is dropped, but not if another
    one follows. -/
theorem foldl_indentFrom {σ : Type} {read : σ → Char → σ} (h : OverlooksMargins read)
    (start : Bool) (cs : List Char) (s : σ) (hs : start = true → read s ' ' = s) :
    (indentFrom start cs ++ ['\n']).foldl read s = (cs ++ ['\n']).foldl read s := by
  induction cs generalizing start s with
  | nil => rfl
  | cons c cs ih =>
    by_cases hfeed : c = '\n'
    · subst hfeed
      cases cs with
      | nil => exact (h.feed s).symm
      | cons d cs =>
        rw [indentFrom_feed start (List.cons_ne_nil d cs), List.cons_append, List.cons_append,
          List.foldl_cons, List.foldl_cons]
        exact ih true (read s '\n') fun _ => h.space s
    · by_cases hreturn : c = '\r' ∧ cs.head? = some '\n'
      · obtain ⟨rfl, hhead⟩ := hreturn
        obtain ⟨rest, rfl⟩ := List.head?_eq_some_iff.mp hhead
        -- The return is dropped, but then the feed behind it is read as without it.
        rw [indentFrom_return_feed, ih start s hs]
        simp only [List.cons_append, List.foldl_cons, h.return_feed]
      · rw [indentFrom_char start hfeed hreturn, List.append_assoc, List.cons_append,
          List.foldl_append, List.cons_append, List.foldl_cons, List.foldl_cons]
        -- Spaces are read only where a line starts, and leave the reader where it is.
        have hmargin : (margin start).foldl read s = s := by
          cases start with
          | false => rfl
          | true =>
            have hspace := hs rfl
            simp only [margin, List.foldl_cons, List.foldl_nil, hspace]
        rw [hmargin]
        exact ih false (read s c) fun hfalse => absurd hfalse (by decide)

/-- The lexer with its count takes no notice of the margins of lines. -/
theorem Scan.overlooksMargins : OverlooksMargins Scan.advance := by
  constructor
  · rintro (_ | ⟨mode, depth⟩)
    · rfl
    · cases mode <;> rfl
  · rintro (_ | ⟨mode, depth⟩)
    · rfl
    · cases mode <;> rfl
  · rintro (_ | ⟨mode, depth⟩)
    · rfl
    · cases mode <;> rfl

/-! ### Neutral texts -/

/-- Outside of literals and comments, the lexer reads the text and is outside of them again, with
    as many parentheses open as before. -/
def Neutral (cs : List Char) : Prop :=
  ∀ s : Scan, s.mode.IsSettled → ∃ m : Mode, m.IsSettled ∧ s.run cs = some ⟨m, s.depth⟩

/-- Characters that mean nothing to the lexer. -/
def isRawChar (c : Char) : Bool := c ≠ '\'' && c ≠ '(' && c ≠ ')' && c ≠ '-'

/-- A text that means nothing to the lexer. -/
def isRaw (s : String) : Bool := s.toList.all isRawChar

theorem isRawChar_iff {c : Char} :
    isRawChar c = true ↔ c ≠ '\'' ∧ c ≠ '(' ∧ c ≠ ')' ∧ c ≠ '-' := by
  simp [isRawChar, and_assoc]

/-- Outside of literals and comments a raw character leads to code. -/
theorem Mode.next_raw {m : Mode} (h : m.isOutside = true) {c : Char} (hc : isRawChar c = true) :
    m.next c = .code := by
  obtain ⟨hquote, -, -, hhyphen⟩ := isRawChar_iff.mp hc
  cases m with
  | code | ended | hyphen => simp [next, hquote, hhyphen]
  | literal | comment => simp [isOutside] at h

/-- A raw character opens and closes nothing. -/
theorem Scan.next_raw {s : Scan} (h : s.mode.isOutside = true) {c : Char}
    (hc : isRawChar c = true) : s.next c = some ⟨.code, s.depth⟩ := by
  obtain ⟨-, hopen, hclose, -⟩ := isRawChar_iff.mp hc
  rw [Scan.next_of_ne hopen hclose, Mode.next_raw h hc]

theorem neutral_nil : Neutral [] := fun s hs => ⟨s.mode, hs, rfl⟩

/-- Neutral texts may be put one behind the other. -/
theorem Neutral.append {a b : List Char} (ha : Neutral a) (hb : Neutral b) : Neutral (a ++ b) := by
  intro s hs
  obtain ⟨m, hm, ha⟩ := ha s hs
  obtain ⟨m', hm', hb⟩ := hb ⟨m, s.depth⟩ hm
  exact ⟨m', hm', by rw [Scan.run_append, ha, Option.bind_some, hb]⟩

/-- A raw character may stand in front of a neutral text. -/
theorem Neutral.cons_raw {c : Char} {cs : List Char} (hc : isRawChar c = true)
    (h : Neutral cs) : Neutral (c :: cs) := by
  intro s hs
  rw [Scan.run_cons, Scan.next_raw hs.isOutside hc, Option.bind_some]
  exact h ⟨.code, s.depth⟩ Mode.isSettled_code

/-- A raw text is neutral. -/
theorem neutral_of_raw {cs : List Char} (h : cs.all isRawChar = true) : Neutral cs := by
  induction cs with
  | nil => exact neutral_nil
  | cons c cs ih =>
    rw [List.all_cons, Bool.and_eq_true] at h
    exact (ih h.2).cons_raw h.1

/-- A hyphen in front of a raw character makes no comment. -/
theorem Neutral.cons_hyphen {c : Char} {cs : List Char} (hc : isRawChar c = true)
    (h : Neutral (c :: cs)) : Neutral ('-' :: c :: cs) := by
  intro s hs
  have hhyphen : s.next '-' = some ⟨.hyphen, s.depth⟩ := by
    rw [Scan.next_of_ne (by decide) (by decide), hs.next_eq]
    rfl
  -- The raw character behind it makes up for the hyphen.
  have hsame : Scan.run ⟨.hyphen, s.depth⟩ (c :: cs) = s.run (c :: cs) := by
    rw [Scan.run_cons, Scan.run_cons, Scan.next_raw rfl hc, Scan.next_raw hs.isOutside hc]
  rw [Scan.run_cons, hhyphen, Option.bind_some, hsame]
  exact h s hs

/-- A neutral text is still neutral in parentheses. -/
theorem Neutral.parens {cs : List Char} (h : Neutral cs) : Neutral ('(' :: (cs ++ [')'])) := by
  intro s hs
  have hopen : s.next '(' = some ⟨.code, s.depth + 1⟩ := by
    rw [Scan.next, hs.isOutside, hs.next_eq]
    rfl
  obtain ⟨m, hm, hrun⟩ := h ⟨.code, s.depth + 1⟩ Mode.isSettled_code
  -- The text leaves one more parenthesis open, so the last one closes it.
  have hclose : Scan.next ⟨m, s.depth + 1⟩ ')' = some ⟨.code, s.depth⟩ := by
    rcases hm with rfl | rfl <;> rfl
  refine ⟨.code, Mode.isSettled_code, ?_⟩
  rw [Scan.run_cons, hopen, Option.bind_some, Scan.run_append, hrun, Option.bind_some,
    Scan.run_cons, hclose, Option.bind_some, Scan.run_nil]

/-- Inside a literal, doubled quotes lead out of it and back. -/
theorem run_doubleQuotes (cs : List Char) (depth : Nat) :
    Scan.run ⟨.literal, depth⟩ (doubleQuotes cs) = some ⟨.literal, depth⟩ := by
  induction cs with
  | nil => rfl
  | cons c cs ih =>
    rw [doubleQuotes_cons, Scan.run_append]
    by_cases hc : c = '\''
    · rw [if_pos hc]
      exact ih
    · have hnext : Scan.next ⟨.literal, depth⟩ c = some ⟨.literal, depth⟩ := by
        rw [Scan.next_of_inside rfl]
        simp [Mode.next, hc]
      rw [if_neg hc, Scan.run_cons, hnext, Option.bind_some, Scan.run_nil, Option.bind_some, ih]

/-- A quoted text is neutral, whatever it says. -/
theorem neutral_quoteChars (cs : List Char) : Neutral (quoteChars cs) := by
  intro s hs
  have hopen : s.next '\'' = some ⟨.literal, s.depth⟩ := by
    rw [Scan.next_of_ne (by decide) (by decide), hs.next_eq]
    rfl
  refine ⟨.ended, Or.inr rfl, ?_⟩
  rw [quoteChars, Scan.run_cons, hopen, Option.bind_some, Scan.run_append, run_doubleQuotes,
    Option.bind_some]
  rfl

/-- A comment goes on to the end of its line. -/
theorem run_comment {cs : List Char} (h : '\n' ∉ cs) (depth : Nat) :
    Scan.run ⟨.comment, depth⟩ cs = some ⟨.comment, depth⟩ := by
  induction cs with
  | nil => rfl
  | cons c cs ih =>
    rw [List.mem_cons, not_or] at h
    have hnext : Scan.next ⟨.comment, depth⟩ c = some ⟨.comment, depth⟩ := by
      rw [Scan.next_of_inside rfl]
      simp [Mode.next, Ne.symm h.1]
    rw [Scan.run_cons, hnext, Option.bind_some, ih h.2]

/-- A line of comment. -/
theorem neutral_comment {cs : List Char} (h : '\n' ∉ cs) :
    Neutral ('-' :: '-' :: (cs ++ ['\n'])) := by
  intro s hs
  have hhyphens : s.run ['-', '-'] = some ⟨.comment, s.depth⟩ := by
    obtain ⟨mode, depth⟩ := s
    rcases hs with rfl | rfl <;> rfl
  refine ⟨.code, Mode.isSettled_code, ?_⟩
  rw [show '-' :: '-' :: (cs ++ ['\n']) = ['-', '-'] ++ (cs ++ ['\n']) from rfl,
    Scan.run_append, hhyphens, Option.bind_some, Scan.run_append, run_comment h,
    Option.bind_some]
  rfl

/-- The lines of a text, indented and set off from what is around them. -/
def setOff (cs : List Char) : List Char := '\n' :: (indentChars cs ++ ['\n'])

/-- A neutral text is still neutral when it is indented and set off. -/
theorem Neutral.setOff {cs : List Char} (h : Neutral cs) : Neutral (setOff cs) := by
  intro s hs
  obtain ⟨m, hm, hrun⟩ := h ⟨.code, s.depth⟩ Mode.isSettled_code
  have hfeed : isRawChar '\n' = true := rfl
  -- To the lexer the lines are where they were.
  refine ⟨.code, Mode.isSettled_code, ?_⟩
  have hmoved : Scan.run ⟨.code, s.depth⟩ (indentChars cs ++ ['\n'])
      = Scan.run ⟨.code, s.depth⟩ (cs ++ ['\n']) := by
    rw [indentChars_eq]
    exact foldl_indentFrom Scan.overlooksMargins true cs _ fun _ => rfl
  rw [Text.setOff, Scan.run_cons, Scan.next_raw hs.isOutside hfeed, Option.bind_some, hmoved,
    Scan.run_append, hrun, Option.bind_some, Scan.run_cons, Scan.next_raw hm.isOutside hfeed]
  rfl

/-- Neutral texts are closed. -/
theorem Neutral.isClosed {s : String} (h : Neutral s.toList) : isClosed s = true := by
  obtain ⟨m, hm, hrun⟩ := h Scan.start Mode.isSettled_code
  rw [Text.isClosed, hrun]
  simp [hm.isOutside, Scan.start]

/-- Neutral texts leave the lexer settled. -/
theorem Neutral.isSettled_after {cs : List Char} (h : Neutral cs) {m : Mode} (hm : m.IsSettled) :
    (m.after cs).IsSettled := by
  obtain ⟨m', hm', hrun⟩ := h ⟨m, 0⟩ hm
  rwa [← Scan.mode_of_run hrun]

end QueryGraph.Text
