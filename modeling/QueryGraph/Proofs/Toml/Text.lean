import Mathlib.Data.List.Basic
import QueryGraph.Toml.Printer

namespace QueryGraph.Toml

/-!
# Strings in TOML are read back

* `Form.behind`: where a scan stands behind some quotes that turn out to belong to the text.
* `Form.scan_escapedChar`, `Form.scan_body`: with escapes, every text is read back.
* `Form.scan_verbatim`: without escapes, a text is read back if the form fits it.
* `scanString_stringChars`: strings are read back in the form in which they are written.
-/

/-! ### One more character -/

namespace Form

variable {f : Form} {n : Nat} {c : Char} {cs rest : List Char}

/-- Behind some quotes on several lines, which need not be closing ones. -/
def behind : Nat → Place
  | 0 => .plain
  | n + 1 => .quotes (n + 1)

/-- Less than three quotes belong to the text if another character follows them. -/
theorem step_behind (hn : n < 3) (hc : c ≠ f.quote) :
    f.step (behind n) c = withFront (List.replicate n f.quote) (f.plainStep c) := by
  cases n with
  | zero => cases hstep : f.plainStep c <;> simp [behind, step, hstep, withFront]
  | succ n =>
    have hopen : ¬ 3 ≤ n + 1 := by omega
    simp only [behind, step, if_neg hc, if_neg hopen]

/-- One more quote on several lines. -/
theorem step_quote (hf : f.multiline = true) (hn : n < 5) :
    f.step (behind n) f.quote = .go [] (behind (n + 1)) := by
  cases n with
  | zero => simp [behind, step, plainStep, hf]
  | succ n => simp only [behind, step, if_true, if_pos hn]

/-- What is read behind a character that goes on. -/
theorem scan_go {place next : Place} {added : List Char} (h : f.step place c = .go added next) :
    f.scan place (c :: cs) = (f.scan next cs).map fun r => (added ++ r.1, r.2) := by
  simp only [scan, h]

/-- A character that means itself. -/
theorem plainStep_of_isPlain (hc : c ≠ f.quote) (hescape : ¬ (c = '\\' ∧ f.escapes = true))
    (hplain : isPlain c = true) : f.plainStep c = .go [c] .plain := by
  have hfeed : c ≠ '\n' := by
    rintro rfl
    exact absurd hplain (by decide)
  have hreturn : c ≠ '\r' := by
    rintro rfl
    exact absurd hplain (by decide)
  simp only [plainStep, if_neg hc, if_neg hescape, if_neg hfeed, if_neg hreturn, if_pos hplain]

/-- A line feed on several lines. -/
theorem plainStep_feed (hf : f.multiline = true) (hquote : '\n' ≠ f.quote) :
    f.plainStep '\n' = .go ['\n'] .plain := by
  have hescape : ¬ ('\n' = '\\' ∧ f.escapes = true) := fun h => absurd h.1 (by decide)
  simp only [plainStep, if_neg hquote, if_neg hescape, if_true, hf]

/-- A character in plain text, with the quotes in front of it. -/
theorem scan_behind_plain (hn : n < 3) (hc : c ≠ f.quote) {next : Place} {added : List Char}
    (h : f.plainStep c = .go added next) :
    f.scan (behind n) (c :: cs)
      = (f.scan next cs).map fun r => (List.replicate n f.quote ++ (added ++ r.1), r.2) := by
  have hstep : f.step (behind n) c = .go (List.replicate n f.quote ++ added) next := by
    rw [step_behind hn hc, h]
    rfl
  rw [scan_go hstep]
  simp only [List.append_assoc]

/-! ### The closing quotes -/

/-- On one line the next quote closes. -/
theorem scan_delimiter_line (hf : f.multiline = false) (rest : List Char) :
    f.scan .plain (f.delimiter ++ rest) = some ([], rest) := by
  have hstep : f.step .plain f.quote = .stop [] false := by
    simp [step, plainStep, hf]
  simp only [delimiter, hf, Bool.false_eq_true, if_false, List.replicate_one,
    List.singleton_append, scan, hstep]

/-- On several lines three quotes close, and up to two in front of them belong to the text. -/
theorem scan_delimiter (hf : f.multiline = true) (hn : n < 3) (hrest : rest.head? ≠ some f.quote) :
    f.scan (behind n) (f.delimiter ++ rest) = some (List.replicate n f.quote, rest) := by
  -- The three closing quotes are held back like the `n` in front of them.
  have hthree : f.delimiter ++ rest = f.quote :: f.quote :: f.quote :: rest := by
    simp [delimiter, hf, List.replicate]
  rw [hthree, scan_go (step_quote hf (by omega)), scan_go (step_quote hf (by omega)),
    scan_go (step_quote hf (by omega))]
  -- The string ends where the quotes do.
  have hclosed : 3 ≤ n + 1 + 1 + 1 := by omega
  have hend : f.scan (behind (n + 1 + 1 + 1)) rest = some (List.replicate n f.quote, rest) := by
    cases rest with
    | nil => simp [scan, behind, finish]
    | cons c rest =>
      have hc : c ≠ f.quote := fun hc => hrest (by rw [hc, List.head?_cons])
      have hstep : f.step (behind (n + 1 + 1 + 1)) c = .stop (List.replicate n f.quote) true := by
        simp only [behind, step, if_neg hc, if_pos hclosed]
        rfl
      simp only [scan, hstep, if_true]
  rw [hend]
  rfl

/-- The closing quotes, behind quotes that belong to the text. -/
theorem scan_close (hn : n < 3) (hline : f.multiline = false → n = 0)
    (hrest : rest.head? ≠ some f.quote) :
    f.scan (behind n) (f.delimiter ++ rest) = some (List.replicate n f.quote, rest) := by
  cases hf : f.multiline with
  | true => exact scan_delimiter hf hn hrest
  | false =>
    obtain rfl := hline hf
    exact scan_delimiter_line hf rest

/-! ### Texts with escapes -/

section Escapes

variable (hescapes : f.escapes = true) (hquote : f.quote = '"')

include hescapes hquote

/-- A backslash and what is read behind it. -/
theorem scan_escape (hn : n < 3) (cs : List Char) :
    f.scan (behind n) ('\\' :: cs)
      = (f.scan .escape cs).map fun r => (List.replicate n f.quote ++ r.1, r.2) := by
  have hc : '\\' ≠ f.quote := by
    rw [hquote]
    decide
  have hstep : f.plainStep '\\' = .go [] .escape := by
    simp only [plainStep, if_neg hc, hescapes, and_self, if_true]
  exact scan_behind_plain hn hc hstep

/-- An escape of one letter. -/
theorem scan_escaped (hn : n < 3) {d : Char} (hd : escaped? d = some c) (cs : List Char) :
    f.scan (behind n) ('\\' :: d :: cs)
      = (f.scan .plain cs).map fun r => (List.replicate n f.quote ++ c :: r.1, r.2) := by
  have hstep : f.step .escape d = .go [c] .plain := by
    simp only [step, escapeStep, hd]
  rw [scan_escape hescapes hquote hn, scan_go hstep, Option.map_map]
  rfl

end Escapes

theorem hexValue?_upperHexDigit {n : Nat} (h : n < 16) : hexValue? (upperHexDigit n) = some n := by
  have hall : ∀ n < 16, hexValue? (upperHexDigit n) = some n := by decide
  exact hall n h

/-- An escape of four digits, for a number of two. -/
theorem scan_hex (hc : c.toNat < 256) (cs : List Char) :
    f.scan .escape ('u' :: '0' :: '0' :: upperHexDigit (c.toNat / 16) ::
        upperHexDigit (c.toNat % 16) :: cs)
      = (f.scan .plain cs).map fun r => (c :: r.1, r.2) := by
  have hmark : f.step .escape 'u' = .go [] (.hex 3 0) := by
    simp [step, escapeStep, escaped?]
  have hzero : ∀ left, f.step (.hex (left + 1) 0) '0' = .go [] (.hex left 0) := fun left => rfl
  have hhigh : f.step (.hex 1 0) (upperHexDigit (c.toNat / 16))
      = .go [] (.hex 0 (c.toNat / 16)) := by
    have hdigit := hexValue?_upperHexDigit (show c.toNat / 16 < 16 by omega)
    simp only [step, hexStep, hdigit]
    simp
  have hvalue : 16 * (c.toNat / 16) + c.toNat % 16 = c.toNat := by omega
  -- A number below 256 is no surrogate, so it is that of a character.
  have hscalar : isScalarValue c.toNat = true := by
    simp only [isScalarValue, Bool.or_eq_true, decide_eq_true_eq]
    left
    omega
  have hlow : f.step (.hex 0 (c.toNat / 16)) (upperHexDigit (c.toNat % 16)) = .go [c] .plain := by
    have hdigit := hexValue?_upperHexDigit (show c.toNat % 16 < 16 by omega)
    simp only [step, hexStep, hdigit, hvalue, hscalar, if_true, Char.ofNat_toNat]
  rw [scan_go hmark, scan_go (hzero 2), scan_go (hzero 1), scan_go hhigh, scan_go hlow]
  simp only [Option.map_map]
  rfl

section Body

variable (hescapes : f.escapes = true) (hquote : f.quote = '"')

include hescapes hquote

/-- Whatever a character is written as, it is read. -/
theorem scan_escapedChar (hn : n < 3) (hc : c ≠ '"') (cs : List Char) :
    f.scan (behind n) (escapedChar f.multiline c ++ cs)
      = (f.scan .plain cs).map fun r => (List.replicate n f.quote ++ c :: r.1, r.2) := by
  have hletter : ∀ {d : Char}, escaped? d = some c → f.scan (behind n) ('\\' :: d :: cs)
      = (f.scan .plain cs).map fun r => (List.replicate n f.quote ++ c :: r.1, r.2) :=
    fun hd => scan_escaped hescapes hquote hn hd cs
  have hne : c ≠ f.quote := hquote ▸ hc
  rw [escapedChar]
  -- The cases are the ways in which a character is written.
  by_cases hbackslash : c = '\\'
  · rw [if_pos hbackslash]
    exact hletter (by simp [escaped?, hbackslash])
  by_cases htab : c = '\t'
  · rw [if_neg hbackslash, if_pos htab]
    exact hletter (by rw [htab]; decide)
  by_cases hreturn : c = '\r'
  · rw [if_neg hbackslash, if_neg htab, if_pos hreturn]
    exact hletter (by rw [hreturn]; decide)
  by_cases hfeed : c = '\n'
  · rw [if_neg hbackslash, if_neg htab, if_neg hreturn, if_pos hfeed]
    cases hf : f.multiline with
    | false => exact hletter (by rw [hfeed]; decide)
    | true =>
      subst hfeed
      exact scan_behind_plain hn hne (plainStep_feed hf hne)
  by_cases hbackspace : c = Char.ofNat 8
  · rw [if_neg hbackslash, if_neg htab, if_neg hreturn, if_neg hfeed, if_pos hbackspace]
    exact hletter (by rw [hbackspace]; decide)
  by_cases hform : c = Char.ofNat 12
  · rw [if_neg hbackslash, if_neg htab, if_neg hreturn, if_neg hfeed, if_neg hbackspace,
      if_pos hform]
    exact hletter (by rw [hform]; decide)
  rw [if_neg hbackslash, if_neg htab, if_neg hreturn, if_neg hfeed, if_neg hbackspace,
    if_neg hform]
  by_cases hplain : isPlain c = true
  · rw [if_pos hplain]
    exact scan_behind_plain hn hne
      (plainStep_of_isPlain hne (fun h => hbackslash h.1) hplain)
  · -- What is left are other control characters.
    have hsmall : c.toNat < 256 := by
      simp only [isPlain, Bool.or_eq_true, Bool.and_eq_true, decide_eq_true_eq] at hplain
      omega
    rw [if_neg hplain, List.cons_append, scan_escape hescapes hquote hn]
    show (f.scan .escape ('u' :: '0' :: '0' :: upperHexDigit (c.toNat / 16) ::
      upperHexDigit (c.toNat % 16) :: cs)).map _ = _
    rw [scan_hex hsmall, Option.map_map]
    rfl

/-- With escapes, every text is read back.  The number of quotes that were written as they are
    is that of the quotes which the scan still holds back. -/
theorem scan_body (hn : n < 3) (hline : f.multiline = false → n = 0)
    (hrest : rest.head? ≠ some f.quote) :
    f.scan (behind n) (f.body n cs ++ (f.delimiter ++ rest))
      = some (List.replicate n f.quote ++ cs, rest) := by
  -- The induction is on the text; the quotes held back change from step to step.
  induction cs generalizing n with
  | nil => simpa using scan_close hn hline hrest
  | cons c cs ih =>
    have hlater : f.scan .plain (f.body 0 cs ++ (f.delimiter ++ rest)) = some (cs, rest) :=
      ih (by decide) fun _ => rfl
    rw [body, hescapes]
    simp only [Bool.not_true, Bool.false_eq_true, if_false]
    by_cases hc : c = '"'
    · -- On several lines up to two quotes in a row are written as they are.
      rw [if_pos hc]
      by_cases hrun : (f.multiline && decide (n < 2)) = true
      · obtain ⟨hf, hlt⟩ : f.multiline = true ∧ n < 2 := by simpa using hrun
        have hnext := ih (n := n + 1) (by omega) fun hfalse => by simp [hf] at hfalse
        rw [if_pos hrun, List.cons_append, ← hquote, scan_go (step_quote hf (by omega)), hnext]
        simp only [Option.map_some, List.nil_append, List.replicate_succ', hc, hquote,
          List.append_assoc, List.singleton_append]
      · rw [if_neg hrun, List.cons_append, List.cons_append,
          scan_escaped hescapes hquote hn (show escaped? '"' = some '"' by decide), hlater, hc]
        rfl
    · rw [if_neg hc, List.append_assoc, scan_escapedChar hescapes hquote hn hc, hlater]
      rfl

end Body

/-! ### Texts without escapes -/

/-- Without escapes, a text is written as it is. -/
theorem body_verbatim (hescapes : f.escapes = false) (cs : List Char) : f.body n cs = cs := by
  induction cs generalizing n with
  | nil => rfl
  | cons c cs ih => simp [body, hescapes, ih]

/-- Three quotes in a row are still there with a character in front of them. -/
theorem hasTriple_of_cons {quote : Char} (h : hasTriple quote cs = true) :
    hasTriple quote (c :: cs) = true := by
  cases cs with
  | nil => simp [hasTriple] at h
  | cons d cs =>
    cases cs with
    | nil => simp [hasTriple] at h
    | cons e cs => simp [hasTriple, h]

/-- Three quotes in a row are still there with more text in front of them. -/
theorem hasTriple_of_append {quote : Char} (ds : List Char) (h : hasTriple quote cs = true) :
    hasTriple quote (ds ++ cs) = true := by
  induction ds with
  | nil => exact h
  | cons d ds ih => exact hasTriple_of_cons ih

/-- Without escapes, a text is read back if no three quotes stand in a row in it, those included
    that the scan still holds back, and no quote at all if it is on one line. -/
theorem scan_verbatim (hescapes : f.escapes = false) (hn : n < 3)
    (hline : f.multiline = false → n = 0 ∧ f.quote ∉ cs ∧ '\n' ∉ cs) (hfeed : '\n' ≠ f.quote)
    (hplain : ∀ c ∈ cs, isPlain c = true ∨ c = '\n')
    (htriple : f.multiline = true → hasTriple f.quote (List.replicate n f.quote ++ cs) = false)
    (hrest : rest.head? ≠ some f.quote) :
    f.scan (behind n) (cs ++ (f.delimiter ++ rest))
      = some (List.replicate n f.quote ++ cs, rest) := by
  induction cs generalizing n with
  | nil => simpa using scan_close hn (fun hf => (hline hf).1) hrest
  | cons c cs ih =>
    rw [List.forall_mem_cons] at hplain
    by_cases hc : c = f.quote
    · -- A quote is held back with those in front of it, which makes no three of them.
      have hf : f.multiline = true := by
        by_contra hf
        exact (hline (by simpa using hf)).2.1 (hc ▸ List.mem_cons_self)
      have hshift : List.replicate n f.quote ++ c :: cs = List.replicate (n + 1) f.quote ++ cs := by
        rw [hc, List.replicate_succ', List.append_assoc, List.singleton_append]
      have hroom : n + 1 < 3 := by
        by_contra hfull
        obtain rfl : n = 2 := by omega
        exact absurd (htriple hf) (by simp [hc, List.replicate, hasTriple])
      have hnext := ih hroom (fun hfalse => by simp [hf] at hfalse) hplain.2
        fun hf => hshift ▸ htriple hf
      rw [hshift, List.cons_append, hc, scan_go (step_quote hf (by omega)), hnext]
      rfl
    · -- Any other character shows that the quotes in front of it belong to the text.
      have hlater : f.scan .plain (cs ++ (f.delimiter ++ rest)) = some (cs, rest) := by
        refine ih (n := 0) (by decide) (fun hf => ?_) hplain.2 fun hf => ?_
        · obtain ⟨-, hquote, hfeeds⟩ := hline hf
          exact ⟨rfl, fun h => hquote (List.mem_cons_of_mem _ h),
            fun h => hfeeds (List.mem_cons_of_mem _ h)⟩
        · by_contra hfound
          have hfound : hasTriple f.quote cs = true := by simpa using hfound
          have hall := htriple hf
          rw [hasTriple_of_append _ (hasTriple_of_cons hfound)] at hall
          exact absurd hall (by decide)
      have hstep : f.plainStep c = .go [c] .plain := by
        rcases hplain.1 with hc' | rfl
        · exact plainStep_of_isPlain hc (fun h => by simp [hescapes] at h) hc'
        · refine plainStep_feed ?_ hfeed
          by_contra hf
          exact (hline (by simpa using hf)).2.2 List.mem_cons_self
      rw [List.cons_append, scan_behind_plain hn hc hstep, hlater]
      rfl

end Form

/-! ### The form in which a text is written -/

/-- What may stand on one line without escapes. -/
theorem Form.of_fits_line {f : Form} (hf : f.multiline = false) {cs : List Char}
    (h : f.fits cs = true) :
    (∀ c ∈ cs, isPlain c = true ∨ c = '\n') ∧ f.quote ∉ cs ∧ '\n' ∉ cs := by
  simp [fits, hf] at h
  exact ⟨h.1.1, h.2⟩

/-- What may stand on several lines without escapes. -/
theorem Form.of_fits_lines {f : Form} (hf : f.multiline = true) {cs : List Char}
    (h : f.fits cs = true) :
    (∀ c ∈ cs, isPlain c = true ∨ c = '\n') ∧ hasTriple f.quote cs = false := by
  simp [fits, hf] at h
  exact ⟨h.1.1, h.2⟩

/-- The forms with escapes take every text, the others only such as fit. -/
theorem formFor_cases (cs : List Char) :
    formFor cs = basic ∨ formFor cs = multilineBasic ∨
      (formFor cs = literal ∧ literal.fits cs = true ∧ cs ≠ []) ∨
      (formFor cs = multilineLiteral ∧ multilineLiteral.fits cs = true) := by
  rw [formFor]
  -- Either the first form that fits is taken, or one of the two with escapes.
  cases hfind : [basic, literal, multilineBasic, multilineLiteral].find? fun f => f.fits cs with
  | none =>
    rw [Option.getD_none]
    split
    · exact Or.inr (Or.inl rfl)
    · exact Or.inl rfl
  | some f =>
    have hfits : f.fits cs = true := by simpa using List.find?_some hfind
    have hmem := List.mem_of_find?_eq_some hfind
    simp only [List.mem_cons, List.not_mem_nil, or_false] at hmem
    rw [Option.getD_some]
    rcases hmem with rfl | rfl | rfl | rfl
    · exact Or.inl rfl
    · refine Or.inr (Or.inr (Or.inl ⟨rfl, hfits, ?_⟩))
      -- The empty text fits the form before.
      rintro rfl
      exact absurd hfind (by decide)
    · exact Or.inr (Or.inl rfl)
    · exact Or.inr (Or.inr (Or.inr ⟨rfl, hfits⟩))

/-- What is written of a character begins with no quote and no return, and with a line feed only
    in place of a line feed. -/
theorem head?_escapedChar {multiline : Bool} {c : Char} (hc : c ≠ '"') :
    ∃ d ds, escapedChar multiline c = d :: ds ∧ d ≠ '"' ∧ d ≠ '\r' ∧ (d = '\n' → c = '\n') := by
  have hescape : ∀ {ds : List Char}, ∃ e es, '\\' :: ds = e :: es ∧ e ≠ '"' ∧ e ≠ '\r' ∧
      (e = '\n' → c = '\n') :=
    fun {ds} => ⟨'\\', ds, rfl, by decide, by decide, fun h => absurd h (by decide)⟩
  -- All ways but two to write a character begin with a backslash.
  rw [escapedChar]
  split
  · exact hescape
  split
  · exact hescape
  split
  · exact hescape
  next hreturn =>
  split
  next hfeed =>
    split
    · exact ⟨'\n', [], rfl, by decide, by decide, fun _ => hfeed⟩
    · exact hescape
  split
  · exact hescape
  split
  · exact hescape
  split
  · exact ⟨c, [], rfl, hc, hreturn, id⟩
  · exact hescape

/-- What is written of a text with escapes begins with no return, on one line with no quote, and
    with a feed only if the text holds one. -/
theorem Form.head?_body {f : Form} (hescapes : f.escapes = true) {cs : List Char} {d : Char}
    (hd : d ∈ (f.body 0 cs).head?) :
    (f.multiline = false → d ≠ '"') ∧ d ≠ '\r' ∧ (d = '\n' → '\n' ∈ cs) := by
  cases cs with
  | nil => simp at hd
  | cons c cs =>
    rw [body, hescapes] at hd
    simp only [Bool.not_true, Bool.false_eq_true, if_false] at hd
    by_cases hc : c = '"'
    · rw [if_pos hc] at hd
      cases hf : f.multiline with
      | true =>
        obtain rfl : '"' = d := by simpa [hf] using hd
        exact ⟨by simp, by decide, fun h => absurd h (by decide)⟩
      | false =>
        obtain rfl : '\\' = d := by simpa [hf] using hd
        exact ⟨fun _ => by decide, by decide, fun h => absurd h (by decide)⟩
    · obtain ⟨e, es, hwritten, hquote, hreturn, hfeed⟩ := head?_escapedChar hc
      rw [if_neg hc, hwritten] at hd
      obtain rfl : e = d := by simpa using hd
      exact ⟨fun _ => hquote, hreturn, fun he => hfeed he ▸ List.mem_cons_self⟩

/-! ### From the opening quotes on -/

/-- One quote opens a string on one line, unless two more follow it. -/
theorem scanString_basic {cs : List Char} (h : ∀ ds, cs ≠ '"' :: '"' :: ds) :
    scanString ('"' :: cs) = basic.scan .plain cs := by
  unfold scanString
  split
  next ds heq => exact absurd (List.cons.inj heq).2 (h ds)
  next heq => exact absurd (List.cons.inj heq).1 (by decide)
  next => rfl

/-- One single quote opens a string on one line, unless two more follow it. -/
theorem scanString_literal {cs : List Char} (h : ∀ ds, cs ≠ '\'' :: '\'' :: ds) :
    scanString ('\'' :: cs) = literal.scan .plain cs := by
  unfold scanString
  split
  next heq => exact absurd (List.cons.inj heq).1 (by decide)
  next ds heq => exact absurd (List.cons.inj heq).2 (h ds)
  next => rfl

/-- Nothing is dropped in front of a text that begins with no line end. -/
theorem dropLineEnd_of_head? {cs : List Char} (h : ∀ c ∈ cs.head?, c ≠ '\n' ∧ c ≠ '\r') :
    dropLineEnd cs = cs := by
  unfold dropLineEnd
  split
  · exact absurd rfl (h '\n' rfl).1
  · exact absurd rfl (h '\r' rfl).2
  · rfl

/-- On several lines, the line end in front of the text is dropped again, and no other one. -/
theorem dropLineEnd_write {f : Form} (hf : f.multiline = true)
    (hquote : f.quote ≠ '\n' ∧ f.quote ≠ '\r') {cs : List Char}
    (hbody : ∀ d ∈ (f.body 0 cs).head?, d ≠ '\r' ∧ (d = '\n' → '\n' ∈ cs)) (rest : List Char) :
    dropLineEnd ((if f.multiline && cs.contains '\n' then ['\n'] else []) ++
        (f.body 0 cs ++ (f.delimiter ++ rest)))
      = f.body 0 cs ++ (f.delimiter ++ rest) := by
  -- A line end was written in front of the text only if the text has several lines.
  by_cases hfeed : '\n' ∈ cs
  · rw [if_pos (by simp [hf, hfeed])]
    rfl
  · rw [if_neg (by simp [hfeed]), List.nil_append]
    refine dropLineEnd_of_head? fun d hd => ?_
    cases hcs : f.body 0 cs with
    | nil =>
      rw [hcs, Form.delimiter, if_pos hf] at hd
      obtain rfl : f.quote = d := by simpa [List.replicate] using hd
      exact hquote
    | cons e es =>
      rw [hcs] at hd hbody
      obtain ⟨hreturn, hline⟩ := hbody d (by simpa using hd)
      exact ⟨fun he => hfeed (hline he), hreturn⟩

/-! ### Each form from its opening quotes on -/

section Write

variable {cs rest : List Char}

/-- What is written of a text: quotes, perhaps a line end, the body, and quotes again. -/
theorem Form.write_append (f : Form) (cs rest : List Char) :
    f.write cs ++ rest = f.delimiter ++
      ((if f.multiline && cs.contains '\n' then ['\n'] else []) ++
        (f.body 0 cs ++ (f.delimiter ++ rest))) := by
  simp only [write, List.append_assoc]

/-- A text on one line with escapes is read back. -/
theorem scanString_write_basic (hrest : rest.head? ≠ some '"') :
    scanString (basic.write cs ++ rest) = some (cs, rest) := by
  rw [Form.write_append]
  show scanString ('"' :: (basic.body 0 cs ++ '"' :: rest)) = _
  rw [scanString_basic]
  · exact Form.scan_body (n := 0) rfl rfl (by decide) (fun _ => rfl) hrest
  · -- Two more quotes would open a string on several lines.
    intro ds heq
    cases hbody : basic.body 0 cs with
    | nil =>
      rw [hbody] at heq
      exact hrest (by rw [(List.cons.inj heq).2]; rfl)
    | cons d ds' =>
      rw [hbody] at heq
      have hd : d ∈ (basic.body 0 cs).head? := by rw [hbody]; rfl
      exact (Form.head?_body rfl hd).1 rfl (List.cons.inj heq).1

/-- A text on several lines with escapes is read back. -/
theorem scanString_write_multilineBasic (hrest : rest.head? ≠ some '"') :
    scanString (multilineBasic.write cs ++ rest) = some (cs, rest) := by
  have hbody : ∀ d ∈ (multilineBasic.body 0 cs).head?, d ≠ '\r' ∧ (d = '\n' → '\n' ∈ cs) :=
    fun d hd => (Form.head?_body rfl hd).2
  rw [Form.write_append]
  show multilineBasic.scan .plain (dropLineEnd
    ((if multilineBasic.multiline && cs.contains '\n' then ['\n'] else []) ++
      (multilineBasic.body 0 cs ++ (multilineBasic.delimiter ++ rest)))) = _
  rw [dropLineEnd_write rfl (by decide) hbody]
  exact Form.scan_body (n := 0) rfl rfl (by decide) (fun _ => rfl) hrest

/-- A text on one line without escapes is read back, if it fits and is not empty. -/
theorem scanString_write_literal (hfits : literal.fits cs = true) (hne : cs ≠ [])
    (hrest : rest.head? ≠ some '\'') :
    scanString (literal.write cs ++ rest) = some (cs, rest) := by
  obtain ⟨hplain, hquote, hfeed⟩ := Form.of_fits_line rfl hfits
  rw [Form.write_append, Form.body_verbatim rfl]
  show scanString ('\'' :: (cs ++ '\'' :: rest)) = _
  rw [scanString_literal]
  · exact Form.scan_verbatim (n := 0) rfl (by decide) (fun _ => ⟨rfl, hquote, hfeed⟩) (by decide)
      hplain (fun hf => absurd hf (by decide)) hrest
  · -- Two more quotes would open a string on several lines, but the text holds none.
    intro ds heq
    obtain ⟨d, ds', rfl⟩ := List.exists_cons_of_ne_nil hne
    exact hquote ((List.cons.inj heq).1 ▸ List.mem_cons_self)

/-- A text on several lines without escapes is read back, if it fits. -/
theorem scanString_write_multilineLiteral (hfits : multilineLiteral.fits cs = true)
    (hrest : rest.head? ≠ some '\'') :
    scanString (multilineLiteral.write cs ++ rest) = some (cs, rest) := by
  obtain ⟨hplain, htriple⟩ := Form.of_fits_lines rfl hfits
  have hbody : ∀ d ∈ (multilineLiteral.body 0 cs).head?, d ≠ '\r' ∧ (d = '\n' → '\n' ∈ cs) := by
    intro d hd
    rw [Form.body_verbatim rfl] at hd
    have hd : d ∈ cs := List.mem_of_mem_head? hd
    refine ⟨?_, fun he => he ▸ hd⟩
    rintro rfl
    exact absurd (hplain _ hd) (by decide)
  rw [Form.write_append]
  show multilineLiteral.scan .plain (dropLineEnd
    ((if multilineLiteral.multiline && cs.contains '\n' then ['\n'] else []) ++
      (multilineLiteral.body 0 cs ++ (multilineLiteral.delimiter ++ rest)))) = _
  rw [dropLineEnd_write rfl (by decide) hbody, Form.body_verbatim rfl]
  exact Form.scan_verbatim (n := 0) rfl (by decide) (fun hf => absurd hf (by decide)) (by decide)
    hplain (fun _ => htriple) hrest

/-- **Strings are read back.**  What follows must not begin with a quote. -/
theorem scanString_stringChars (cs : List Char) (hrest : ∀ c ∈ rest.head?, c ≠ '"' ∧ c ≠ '\'') :
    scanString (stringChars cs ++ rest) = some (cs, rest) := by
  have hdouble : rest.head? ≠ some '"' := fun h => (hrest _ h).1 rfl
  have hsingle : rest.head? ≠ some '\'' := fun h => (hrest _ h).2 rfl
  rw [stringChars]
  -- One case for each of the four forms.
  rcases formFor_cases cs with h | h | ⟨h, hfits, hne⟩ | ⟨h, hfits⟩
  · rw [h]
    exact scanString_write_basic hdouble
  · rw [h]
    exact scanString_write_multilineBasic hdouble
  · rw [h]
    exact scanString_write_literal hfits hne hsingle
  · rw [h]
    exact scanString_write_multilineLiteral hfits hsingle

end Write

end QueryGraph.Toml
