import QueryGraph.Proofs.Text.Lexer

namespace QueryGraph.Text

/-!
# Texts that differ inside of their literals only

* `eraseLiterals`: a text with the bodies of its literals erased.
* `eraseFrom_indentFrom`: it makes no difference whether a text is indented before or after its
  literals are erased.
* `Alike`: two texts that are neutral, and the same wherever they stand but for the bodies of
  their literals.  Everything that queries are put together from preserves this.
-/

/-! ### Erasing literals -/

/-- What is shown of one more character: nothing within a literal.  Both quotes of a literal are
    shown where it begins. -/
def Mode.shown : Mode → Char → List Char
  | .literal, _ => []
  | .comment, c => [c]
  | .ended, c => if c = '\'' then [] else [c]
  | .code, c | .hyphen, c => if c = '\'' then ['\'', '\''] else [c]

/-- The characters that are shown of a text, for a lexer that stands somewhere before it. -/
def eraseFrom : Mode → List Char → List Char
  | _, [] => []
  | m, c :: cs => m.shown c ++ eraseFrom (m.next c) cs

/-- A text with the body of every literal erased.  A doubled quote within a literal does not end
    it, and quotes within comments begin none. -/
def eraseLiterals (s : String) : String := String.ofList (eraseFrom .code s.toList)

@[simp] theorem eraseFrom_nil (m : Mode) : eraseFrom m [] = [] := rfl

@[simp] theorem eraseFrom_cons (m : Mode) (c : Char) (cs : List Char) :
    eraseFrom m (c :: cs) = m.shown c ++ eraseFrom (m.next c) cs := rfl

/-- What is shown of a text in two parts is shown part by part. -/
theorem eraseFrom_append (m : Mode) (a b : List Char) :
    eraseFrom m (a ++ b) = eraseFrom m a ++ eraseFrom (m.after a) b := by
  induction a generalizing m with
  | nil => rfl
  | cons c a ih =>
    rw [List.cons_append, eraseFrom_cons, eraseFrom_cons, ih, List.append_assoc, Mode.after_cons]

/-- Outside of literals every character but a quote is shown. -/
theorem Mode.shown_of_ne {m : Mode} {c : Char} (hm : m ≠ .literal) (hc : c ≠ '\'') :
    m.shown c = [c] := by
  cases m with
  | literal => exact absurd rfl hm
  | code | hyphen | ended => exact if_neg hc
  | comment => rfl

/-- Outside of literals a line feed leads back to code. -/
theorem Mode.next_feed {m : Mode} (hm : m ≠ .literal) : m.next '\n' = .code := by
  cases m with
  | literal => exact absurd rfl hm
  | code | hyphen | ended | comment => rfl

/-- Outside of literals a return begins no literal. -/
theorem Mode.next_return {m : Mode} (hm : m ≠ .literal) : m.next '\r' ≠ .literal := by
  cases m with
  | literal => exact absurd rfl hm
  | code | hyphen | ended | comment => decide

/-- Outside of literals a line feed is shown. -/
theorem eraseFrom_feed {m : Mode} (hm : m ≠ .literal) (cs : List Char) :
    eraseFrom m ('\n' :: cs) = '\n' :: eraseFrom .code cs := by
  rw [eraseFrom_cons, Mode.shown_of_ne hm (by decide), Mode.next_feed hm]
  rfl

/-- Something is shown of every text that begins in code. -/
theorem eraseFrom_code_ne_nil {cs : List Char} (h : cs ≠ []) : eraseFrom .code cs ≠ [] := by
  cases cs with
  | nil => exact absurd rfl h
  | cons c cs => by_cases hc : c = '\'' <;> simp [Mode.shown, hc]

/-! ### Erasure and indentation -/

/-- Behind a return the lexer is outside of literals if it was before, so that the next character
    is shown. -/
theorem head?_eraseFrom_return {m : Mode} (hm : m ≠ .literal) {cs : List Char}
    (h : (eraseFrom (m.next '\r') cs).head? = some '\n') : cs.head? = some '\n' := by
  cases cs with
  | nil => simp at h
  | cons c cs =>
    -- A quote would be shown as a quote, and any other character as it is.
    by_cases hquote : c = '\''
    · subst hquote
      cases m with
      | literal => exact absurd rfl hm
      | code | hyphen | ended | comment => exact absurd h (by simp [Mode.shown, Mode.next])
    · rw [eraseFrom_cons, Mode.shown_of_ne (Mode.next_return hm) hquote] at h
      exact h

section Indentation

variable {m : Mode} {start : Bool}

/-- Spaces at the start of a line are shown, but not within a literal. -/
theorem eraseFrom_margin (h : start = true → m = .code ∨ m = .literal) (cs : List Char) :
    eraseFrom m (margin start ++ cs) = margin (start && m != .literal) ++ eraseFrom m cs := by
  cases start with
  | false => rfl
  | true => rcases h rfl with rfl | rfl <;> rfl

/-- What is shown of a character within a line stays within the line. -/
theorem indentFrom_shown (h : start = true → m = .code ∨ m = .literal) {c : Char}
    {rest : List Char} (hfeed : c ≠ '\n')
    (hreturn : m ≠ .literal → ¬ (c = '\r' ∧ rest.head? = some '\n')) :
    indentFrom (start && m != .literal) (m.shown c ++ rest)
      = margin (start && m != .literal) ++ m.shown c ++ indentFrom false rest := by
  -- Nothing is shown within a literal, and of the rest only a quote is not shown once.
  by_cases hm : m = .literal
  · subst hm
    simp [Mode.shown, margin]
  · by_cases hquote : c = '\''
    · subst hquote
      cases m with
      | literal => exact absurd rfl hm
      | comment | code | hyphen =>
        simp [Mode.shown, indentFrom_solid _ isSolid_quote, margin]
      | ended =>
        -- No line starts right behind a quote.
        obtain rfl : start = false := by
          cases start with
          | false => rfl
          | true => rcases h rfl with h | h <;> cases h
        rfl
    · rw [Mode.shown_of_ne hm hquote, List.singleton_append,
        indentFrom_char _ hfeed (hreturn hm), List.append_assoc, List.singleton_append]

/-- The flag for the start of a line does not count within literals, where no spaces are shown. -/
theorem eraseFrom_indentFrom (h : start = true → m = .code ∨ m = .literal) (cs : List Char) :
    eraseFrom m (indentFrom start cs)
      = indentFrom (start && m != .literal) (eraseFrom m cs) := by
  induction cs generalizing m start with
  | nil => rfl
  | cons c cs ih =>
    by_cases hfeed : c = '\n'
    · subst hfeed
      by_cases hnil : cs = []
      · subst hnil
        cases m <;> rfl
      · rw [indentFrom_feed start hnil]
        by_cases hm : m = .literal
        -- A feed within a literal is not shown, so that no line starts behind it.
        · subst hm
          have hrest : eraseFrom .literal (indentFrom true cs)
              = indentFrom false (eraseFrom .literal cs) := ih fun _ => Or.inr rfl
          simpa [Mode.shown, Mode.next] using hrest
        · have hrest : eraseFrom .code (indentFrom true cs)
              = indentFrom true (eraseFrom .code cs) := ih fun _ => Or.inl rfl
          rw [eraseFrom_feed hm, eraseFrom_feed hm, hrest,
            indentFrom_feed _ (eraseFrom_code_ne_nil hnil)]
    · by_cases hreturn : c = '\r' ∧ cs.head? = some '\n'
      · obtain ⟨rfl, hhead⟩ := hreturn
        obtain ⟨rest, rfl⟩ := List.head?_eq_some_iff.mp hhead
        rw [indentFrom_return_feed, ih h]
        by_cases hm : m = .literal
        · subst hm
          rfl
        · rw [eraseFrom_cons m '\r', Mode.shown_of_ne hm (by decide), eraseFrom_feed hm,
            eraseFrom_feed (Mode.next_return hm), List.singleton_append, indentFrom_return_feed]
      -- A return that stands alone before the erasure does so after it.
      · have hreturn' : m ≠ .literal →
            ¬ (c = '\r' ∧ (eraseFrom (m.next c) cs).head? = some '\n') := by
          rintro hm ⟨rfl, hhead⟩
          exact hreturn ⟨rfl, head?_eraseFrom_return hm hhead⟩
        rw [indentFrom_char start hfeed hreturn, eraseFrom_margin h, eraseFrom_cons,
          eraseFrom_cons, ih fun hfalse => absurd hfalse (by decide),
          indentFrom_shown h hfeed hreturn', Bool.false_and, List.append_assoc]

end Indentation

/-! ### Texts with the same erasure -/

/-- Two neutral texts that look the same with their literals erased.  A lexer that comes to one
    of them from outside of literals and comments leaves both in the same way. -/
structure Alike (s t : String) : Prop where
  neutral_left : Neutral s.toList
  neutral_right : Neutral t.toList
  after_eq : ∀ m : Mode, m.IsSettled → m.after s.toList = m.after t.toList
  erase_eq : ∀ m : Mode, m.IsSettled → eraseFrom m s.toList = eraseFrom m t.toList

namespace Alike

variable {s s' t t' u : String}

theorem refl (h : Neutral s.toList) : Alike s s := ⟨h, h, fun _ _ => rfl, fun _ _ => rfl⟩

theorem symm (h : Alike s t) : Alike t s :=
  ⟨h.neutral_right, h.neutral_left, fun m hm => (h.after_eq m hm).symm,
    fun m hm => (h.erase_eq m hm).symm⟩

theorem trans (h : Alike s t) (h' : Alike t u) : Alike s u :=
  ⟨h.neutral_left, h'.neutral_right, fun m hm => (h.after_eq m hm).trans (h'.after_eq m hm),
    fun m hm => (h.erase_eq m hm).trans (h'.erase_eq m hm)⟩

/-- Texts that are alike are equal once their literals are erased. -/
theorem eraseLiterals_eq (h : Alike s t) : eraseLiterals s = eraseLiterals t :=
  congrArg String.ofList (h.erase_eq .code Mode.isSettled_code)

/-- Texts that are alike may be continued with texts that are alike. -/
theorem append (h : Alike s s') (h' : Alike t t') : Alike (s ++ t) (s' ++ t') := by
  constructor
  · rw [String.toList_append]
    exact h.neutral_left.append h'.neutral_left
  · rw [String.toList_append]
    exact h.neutral_right.append h'.neutral_right
  · intro m hm
    rw [String.toList_append, String.toList_append, Mode.after_append, Mode.after_append,
      ← h.after_eq m hm]
    exact h'.after_eq _ (h.neutral_left.isSettled_after hm)
  · intro m hm
    rw [String.toList_append, String.toList_append, eraseFrom_append, eraseFrom_append,
      ← h.after_eq m hm, h.erase_eq m hm, h'.erase_eq _ (h.neutral_left.isSettled_after hm)]

/-- Lists of texts that are alike one by one are alike. -/
theorem intercalate {separator : String} (hseparator : Neutral separator.toList)
    {items items' : List String} (h : List.Forall₂ Alike items items') :
    Alike (separator.intercalate items) (separator.intercalate items') := by
  induction h with
  | nil => exact refl neutral_nil
  | @cons s s' rest rest' hs hrest ih =>
    -- The last item has no separator behind it.
    cases hrest with
    | nil => simpa using hs
    | cons hs' hrest =>
      rw [String.intercalate_cons_cons, String.intercalate_cons_cons]
      exact (hs.append (refl hseparator)).append ih

end Alike

/-! ### Parentheses, literals and lines -/

theorem toList_parens (s : String) : ("(" ++ s ++ ")").toList = '(' :: (s.toList ++ [')']) := by
  simp

/-- Texts that are alike still are in parentheses. -/
theorem Alike.parens {s t : String} (h : Alike s t) :
    Alike ("(" ++ s ++ ")") ("(" ++ t ++ ")") := by
  -- The parenthesis leads to code, where both texts are known to agree.
  have hopen : ∀ m : Mode, m.IsSettled → m.next '(' = .code := by
    rintro m (rfl | rfl) <;> rfl
  have hafter := h.after_eq .code Mode.isSettled_code
  have herase := h.erase_eq .code Mode.isSettled_code
  constructor
  · exact toList_parens s ▸ h.neutral_left.parens
  · exact toList_parens t ▸ h.neutral_right.parens
  · intro m hm
    rw [toList_parens, toList_parens, Mode.after_cons, Mode.after_cons, Mode.after_append,
      Mode.after_append, hopen m hm, hafter]
  · intro m hm
    rw [toList_parens, toList_parens, eraseFrom_cons, eraseFrom_cons, eraseFrom_append,
      eraseFrom_append, hopen m hm, herase, hafter]

theorem Mode.IsSettled.next_quote {m : Mode} (hm : m.IsSettled) : m.next '\'' = .literal := by
  rcases hm with rfl | rfl <;> rfl

/-- Behind a literal the lexer stands where a quote ended it. -/
theorem after_quoteChars {m : Mode} (hm : m.IsSettled) (cs : List Char) :
    m.after (quoteChars cs) = .ended := by
  -- Every quote inside is doubled, so the literal does not end before its last quote.
  have hbody : Mode.literal.after (doubleQuotes cs) = .literal :=
    (Scan.mode_of_run (run_doubleQuotes cs 0)).symm
  rw [quoteChars, Mode.after_cons, hm.next_quote, Mode.after_append, hbody]
  rfl

/-- Of a literal only the quotes are shown, and not even these if it takes up another one. -/
theorem eraseFrom_quoteChars {m : Mode} (hm : m.IsSettled) (cs : List Char) :
    eraseFrom m (quoteChars cs) = m.shown '\'' := by
  have hbody : eraseFrom .literal (doubleQuotes cs ++ ['\'']) = [] := by
    induction cs with
    | nil => rfl
    | cons c cs ih => by_cases hc : c = '\'' <;> simpa [Mode.shown, Mode.next, hc] using ih
  rw [quoteChars, eraseFrom_cons, hm.next_quote, hbody, List.append_nil]

/-- All literals are alike. -/
theorem alike_quote (s t : String) : Alike (quote s) (quote t) := by
  constructor
  · exact toList_quote s ▸ neutral_quoteChars s.toList
  · exact toList_quote t ▸ neutral_quoteChars t.toList
  · intro m hm
    rw [toList_quote, toList_quote, after_quoteChars hm, after_quoteChars hm]
  · intro m hm
    rw [toList_quote, toList_quote, eraseFrom_quoteChars hm, eraseFrom_quoteChars hm]

section SetOff

variable {m : Mode} {cs : List Char}

theorem Mode.IsSettled.ne_literal (hm : m.IsSettled) : m ≠ .literal := by
  rcases hm with rfl | rfl <;> decide

/-- A neutral text does not end within a literal when it is indented, or a feed behind it would
    not lead out. -/
theorem Neutral.after_indentChars_ne (h : Neutral cs) :
    Mode.code.after (indentChars cs) ≠ .literal := by
  intro hliteral
  have hsettled := h.setOff.isSettled_after Mode.isSettled_code
  rw [Text.setOff, Mode.after_cons, Mode.next_feed Mode.isSettled_code.ne_literal,
    Mode.after_append, hliteral] at hsettled
  exact absurd hsettled (by decide)

/-- A text that is set off ends with a line feed outside of literals. -/
theorem Neutral.after_setOff (h : Neutral cs) (hm : m.IsSettled) :
    m.after (Text.setOff cs) = .code := by
  rw [Text.setOff, Mode.after_cons, Mode.next_feed hm.ne_literal, Mode.after_append,
    Mode.after_cons, Mode.next_feed h.after_indentChars_ne, Mode.after_nil]

/-- Of a text that is set off, the text without its literals is shown, set off. -/
theorem Neutral.eraseFrom_setOff (h : Neutral cs) (hm : m.IsSettled) :
    eraseFrom m (Text.setOff cs) = '\n' :: (indentFrom true (eraseFrom .code cs) ++ ['\n']) := by
  rw [Text.setOff, eraseFrom_feed hm.ne_literal, eraseFrom_append, indentChars_eq,
    eraseFrom_indentFrom (fun _ => Or.inl rfl), ← indentChars_eq,
    eraseFrom_feed h.after_indentChars_ne]
  rfl

end SetOff

theorem toList_setOff (s : String) :
    ("\n" ++ indent s ++ "\n").toList = setOff s.toList := by
  simp [setOff]

/-- Texts that are alike still are when they are set off. -/
theorem Alike.setOff {s t : String} (h : Alike s t) :
    Alike ("\n" ++ indent s ++ "\n") ("\n" ++ indent t ++ "\n") := by
  have herase := h.erase_eq .code Mode.isSettled_code
  constructor
  · exact toList_setOff s ▸ h.neutral_left.setOff
  · exact toList_setOff t ▸ h.neutral_right.setOff
  · intro m hm
    rw [toList_setOff, toList_setOff, h.neutral_left.after_setOff hm,
      h.neutral_right.after_setOff hm]
  · intro m hm
    rw [toList_setOff, toList_setOff, h.neutral_left.eraseFrom_setOff hm,
      h.neutral_right.eraseFrom_setOff hm, herase]

end QueryGraph.Text
