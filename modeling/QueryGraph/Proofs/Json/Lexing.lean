import QueryGraph.Json.Printer
import QueryGraph.Json.Token
import QueryGraph.Proofs.Number.Reading

namespace QueryGraph.Json

/-!
# The lexemes of a printed value

* `tokens_token`, `tokens_space`: a text is read lexeme by lexeme, and the bound on their number
  is never met.
* `exists_pieces`: a string is read back from its escapes.
* `lexemes v`: the lexemes of a value, each once and in order.
* `tokens_prettyChars`: the text of a value has these lexemes.
-/

/-! ### One lexeme after the other -/

/-- The scan of a string ends at a closing quote, so what it leaves is shorter than what it was
    given. -/
theorem length_scanString_lt {place : StringPlace} {cs rest : List Char} {ps : List Piece}
    (h : scanString place cs = some (ps, rest)) : rest.length < cs.length := by
  -- One character is taken in every place, so the induction is on the characters and leaves the
  -- place open.
  induction cs generalizing place ps with
  | nil => cases place <;> exact absurd h (by simp [scanString])
  | cons c cs ih =>
    -- Behind the first character the scan goes on, perhaps with a piece in front.
    have hstep : ∀ {next : StringPlace} {qs : List Piece},
        scanString next cs = some (qs, rest) → rest.length < (c :: cs).length :=
      fun hnext => (ih hnext).trans (Nat.lt_succ_self _)
    have hpiece : ∀ {p : Piece}, (scanString .plain cs).map (fun r => (p :: r.1, r.2))
        = some (ps, rest) → rest.length < (c :: cs).length := by
      intro p hp
      obtain ⟨⟨qs, left⟩, hnext, heq⟩ := Option.map_eq_some_iff.mp hp
      obtain ⟨-, rfl⟩ := Prod.mk.inj heq
      exact hstep hnext
    cases place with
    | plain =>
      simp only [scanString] at h
      split at h
      · obtain ⟨-, rfl⟩ := Prod.mk.inj (Option.some.inj h)
        exact Nat.lt_succ_self _
      · split at h
        · exact hstep h
        · split at h
          · exact absurd h (by simp)
          · exact hpiece h
    | escape =>
      simp only [scanString] at h
      split at h
      · exact hstep h
      · split at h
        · exact absurd h (by simp)
        · exact hpiece h
    | hex left value =>
      simp only [scanString] at h
      split at h
      · exact absurd h (by simp)
      · split at h
        · exact hpiece h
        · exact hstep h

/-- What is left behind a word is no longer than the text. -/
theorem length_dropWord_le {word cs rest : List Char} (h : dropWord word cs = some rest) :
    rest.length ≤ cs.length := by
  induction word generalizing cs with
  | nil =>
    obtain rfl := Option.some.inj h
    exact le_rfl
  | cons w word ih =>
    cases cs with
    | nil => exact absurd h (by simp [dropWord])
    | cons c cs =>
      rw [dropWord] at h
      split at h
      · exact (ih h).trans (Nat.le_succ _)
      · exact absurd h (by simp)

/-- Where a scan leaves something, it has taken at least one character. -/
def Shortens (cs : List Char) (found : Option (Token × List Char)) : Prop :=
  ∀ r ∈ found, r.2.length < cs.length

/-- A choice between two scans shortens if both of them do. -/
theorem Shortens.ite {cs : List Char} {p : Prop} [Decidable p]
    {a b : Option (Token × List Char)} (ha : Shortens cs a) (hb : Shortens cs b) :
    Shortens cs (if p then a else b) := by
  split
  · exact ha
  · exact hb

/-- A scan whose result is only wrapped shortens as the scan does. -/
theorem Shortens.map {α : Type} {cs : List Char} {found : Option α}
    {f : α → Token × List Char} (h : ∀ r ∈ found, (f r).2.length < cs.length) :
    Shortens cs (found.map f) := by
  intro r hr
  obtain ⟨x, hx, rfl⟩ := Option.mem_map.mp hr
  exact h x hx

/-- A lexeme takes at least one character. -/
theorem shortens_scanToken (cs : List Char) : Shortens cs (scanToken cs) := by
  cases cs with
  | nil => exact fun r hr => absurd hr (by simp [scanToken])
  | cons c cs =>
    have hmark : ∀ u : Token, Shortens (c :: cs) (some (u, cs)) := by
      intro u r hr
      obtain rfl := Option.some.inj hr
      exact Nat.lt_succ_self _
    have hword : ∀ (word : List Char) (u : Token),
        Shortens (c :: cs) ((dropWord word cs).map fun r => (u, r)) := fun word u =>
      .map fun left hleft => Nat.lt_succ_of_le (length_dropWord_le hleft)
    -- The branches stand in the order of the scan: six marks, a string, three words, a number.
    refine .ite (hmark _) (.ite (hmark _) (.ite (hmark _) (.ite (hmark _) (.ite (hmark _)
      (.ite (hmark _) (.ite ?_ (.ite (hword _ _) (.ite (hword _ _) (.ite (hword _ _) ?_)))))))))
    · exact .map fun r hr => (length_scanString_lt hr).trans (Nat.lt_succ_self _)
    · exact .map fun r hr => Numeral.length_scan_lt hr

/-- The bound on the number of lexemes does not matter if the text is no longer. -/
theorem tokensUpTo_eq {n : Nat} {cs : List Char} (h : cs.length ≤ n) :
    tokensUpTo n cs = tokens cs := by
  -- Two bounds that are both large enough give the same.
  have hsame : ∀ {n m : Nat} {cs : List Char}, cs.length ≤ n → cs.length ≤ m →
      tokensUpTo n cs = tokensUpTo m cs := by
    intro n
    induction n with
    | zero =>
      intro m cs hn hm
      obtain rfl := List.length_eq_zero_iff.mp (Nat.le_zero.mp hn)
      cases m <;> rfl
    | succ n ih =>
      intro m cs hn hm
      cases m with
      | zero =>
        obtain rfl := List.length_eq_zero_iff.mp (Nat.le_zero.mp hm)
        rfl
      | succ m =>
        -- White space in front only shortens the text further.
        have hdrop := (List.dropWhile_suffix isSpace (l := cs)).length_le
        simp only [tokensUpTo]
        split
        · rfl
        next d ds heq =>
          rw [heq] at hdrop
          split
          · rfl
          next t rest hscan =>
            have hlt := shortens_scanToken _ _ hscan
            simp only [List.length_cons] at hdrop hlt
            exact congrArg _ (ih (by omega) (by omega))
  exact hsame h le_rfl

theorem tokens_nil : tokens [] = [] := rfl

/-- White space is skipped. -/
theorem tokens_space {c : Char} (hc : isSpace c = true) (cs : List Char) :
    tokens (c :: cs) = tokens cs := by
  have hskip : tokensUpTo (cs.length + 1) (c :: cs) = tokensUpTo (cs.length + 1) cs := by
    simp only [tokensUpTo, List.dropWhile_cons, hc, if_true]
  rw [tokens, List.length_cons, hskip]
  exact tokensUpTo_eq (Nat.le_succ _)

/-- The first lexeme is taken off, and what follows it is read on. -/
theorem tokens_token {c : Char} {cs rest : List Char} {t : Token} (hc : isSpace c = false)
    (h : scanToken (c :: cs) = some (t, rest)) : tokens (c :: cs) = t :: tokens rest := by
  have hlt := shortens_scanToken _ _ h
  rw [tokens, List.length_cons, tokensUpTo, List.dropWhile_cons, hc]
  simp only [h, Bool.false_eq_true, if_false]
  rw [tokensUpTo_eq (Nat.le_of_lt_succ hlt)]

/-- Indentation in front of a text does not change its lexemes. -/
theorem tokens_spaces (n : Nat) (cs : List Char) :
    tokens (List.replicate n ' ' ++ cs) = tokens cs := by
  induction n with
  | zero => rfl
  | succ n ih => rw [List.replicate_succ, List.cons_append, tokens_space (by decide), ih]

/-- A line break with its indentation does not change the lexemes of what follows. -/
theorem tokens_newline (depth : Nat) (cs : List Char) :
    tokens (newline depth ++ cs) = tokens cs := by
  rw [newline, List.cons_append, tokens_space (by decide), tokens_spaces]

/-! ### Strings -/

/-- The piece of a string is read as the character, whatever follows. -/
def Piece.StandsFor (p : Piece) (c : Char) : Prop :=
  ∀ ps, joinPieces (p :: ps) = (joinPieces ps).map (c :: ·)

theorem standsFor_char (c : Char) : (Piece.char c).StandsFor c := fun _ => rfl

/-- A unit below the surrogates is the character of that number. -/
theorem standsFor_unit {c : Char} (hc : c.toNat < 32) : (Piece.unit c.toNat).StandsFor c := by
  intro ps
  rw [joinPieces.eq_def]
  dsimp only
  rw [if_neg (by omega), if_neg (by omega), Char.ofNat_toNat]

theorem hexValue?_hexDigit : ∀ n < 16, hexValue? (hexDigit n) = some n := by decide

/-- A character is read back from the way it is written inside a string. -/
theorem exists_piece (c : Char) :
    ∃ p : Piece, p.StandsFor c ∧ ∀ cs, scanString .plain (escapeChar c ++ cs)
      = (scanString .plain cs).map fun r => (p :: r.1, r.2) := by
  unfold escapeChar
  split
  next h => exact ⟨.char '"', h ▸ standsFor_char _, fun cs => rfl⟩
  split
  next h => exact ⟨.char '\\', h ▸ standsFor_char _, fun cs => rfl⟩
  split
  next h => exact ⟨.char '\n', h ▸ standsFor_char _, fun cs => rfl⟩
  split
  next h => exact ⟨.char '\r', h ▸ standsFor_char _, fun cs => rfl⟩
  split
  next h => exact ⟨.char '\t', h ▸ standsFor_char _, fun cs => rfl⟩
  split
  next h => 
    obtain rfl : c = Char.ofNat 8 := by rw [← h, Char.ofNat_toNat]
    exact ⟨.char (Char.ofNat 8), standsFor_char _, fun cs => rfl⟩
  split
  next h => 
    obtain rfl : c = Char.ofNat 12 := by rw [← h, Char.ofNat_toNat]
    exact ⟨.char (Char.ofNat 12), standsFor_char _, fun cs => rfl⟩
  split
  next h =>
    -- A control character without a short escape is written as `\u00` and two digits.
    refine ⟨.unit c.toNat, standsFor_unit h, fun cs => ?_⟩
    have hhigh := hexValue?_hexDigit (c.toNat / 16) (by omega)
    have hlow := hexValue?_hexDigit (c.toNat % 16) (by omega)
    have hzero : hexValue? '0' = some 0 := rfl
    have hvalue : 16 * (c.toNat / 16) + c.toNat % 16 = c.toNat := by omega
    simp [scanString, hzero, hhigh, hlow, hvalue]
  next hquote hbackslash _ _ _ _ _ hcontrol =>
    -- Every other character stands for itself.
    refine ⟨.char c, standsFor_char c, fun cs => ?_⟩
    simp [scanString, hquote, hbackslash, hcontrol]

/-- A string is read back from its escapes, up to the closing quote and no further. -/
theorem exists_pieces (cs rest : List Char) :
    ∃ ps, scanString .plain (cs.flatMap escapeChar ++ '"' :: rest) = some (ps, rest) ∧
      joinPieces ps = some cs := by
  induction cs with
  | nil => exact ⟨[], rfl, rfl⟩
  | cons c cs ih =>
    obtain ⟨p, hp, hscan⟩ := exists_piece c
    obtain ⟨ps, hrest, hjoin⟩ := ih
    refine ⟨p :: ps, ?_, ?_⟩
    · rw [List.flatMap_cons, List.append_assoc, hscan, hrest]
      rfl
    · rw [hp, hjoin]
      rfl

/-- A written string is one lexeme, the string itself. -/
theorem tokens_string (s : String) (rest : List Char) :
    tokens (stringChars s ++ rest) = .string (some s) :: tokens rest := by
  obtain ⟨ps, hscan, hjoin⟩ := exists_pieces s.toList rest
  have htoken : scanToken ('"' :: (s.toList.flatMap escapeChar ++ '"' :: rest))
      = some (.string (some s), rest) := by
    rw [scanToken]
    simp only [Char.reduceEq, if_false, if_true, hscan, hjoin, Option.map_some,
      String.ofList_toList]
  rw [stringChars, List.cons_append, List.append_assoc]
  exact tokens_token (by decide) htoken

/-! ### Numbers -/

/-- Characters with which a number text can begin. -/
def StartsNumber (c : Char) : Prop := c.isDigit = true ∨ c = '-'

/-- A number begins with a digit or a hyphen, and so with no other character. -/
theorem StartsNumber.ne {c d : Char} (hc : StartsNumber c) (hdigit : d.isDigit = false)
    (hsign : d ≠ '-') : c ≠ d := by
  rintro rfl
  rcases hc with hc | hc
  · exact absurd hc (by simp [hdigit])
  · exact hsign hc

/-- A number does not begin with white space, so none of it is skipped. -/
theorem StartsNumber.isSpace {c : Char} (hc : StartsNumber c) : isSpace c = false := by
  have hblank : c ≠ ' ' := hc.ne (by decide) (by decide)
  have htab : c ≠ '\t' := hc.ne (by decide) (by decide)
  have hfeed : c ≠ '\n' := hc.ne (by decide) (by decide)
  have hreturn : c ≠ '\r' := hc.ne (by decide) (by decide)
  simp [Json.isSpace, hblank, htab, hfeed, hreturn]

/-- What begins like a number is scanned as one. -/
theorem scanToken_number {c : Char} (hc : StartsNumber c) (cs : List Char) :
    scanToken (c :: cs) = (Numeral.scan (c :: cs)).map fun r => (.number r.1.value?, r.2) := by
  have hne : ∀ d : Char, d.isDigit = false → d ≠ '-' → c ≠ d := fun d => hc.ne
  rw [scanToken, if_neg (hne _ (by decide) (by decide)), if_neg (hne _ (by decide) (by decide)),
    if_neg (hne _ (by decide) (by decide)), if_neg (hne _ (by decide) (by decide)),
    if_neg (hne _ (by decide) (by decide)), if_neg (hne _ (by decide) (by decide)),
    if_neg (hne _ (by decide) (by decide)), if_neg (hne _ (by decide) (by decide)),
    if_neg (hne _ (by decide) (by decide)), if_neg (hne _ (by decide) (by decide))]

/-- A signed number text is not empty and begins as a number does. -/
theorem exists_startsNumber {cs : List Char} (h : IsSigned cs) :
    ∃ c rest, cs = c :: rest ∧ StartsNumber c := by
  cases h with
  | plus h =>
    obtain ⟨c, rest, rfl, hc⟩ := h.head
    exact ⟨c, rest, rfl, .inl hc⟩
  | minus _ => exact ⟨'-', _, rfl, .inr rfl⟩

/-- A written number is one lexeme if what follows cannot go on with it. -/
theorem tokens_number (n : Number) {rest : List Char} (hrest : StopsNumber rest) :
    tokens (n.chars ++ rest) = .number (some n) :: tokens rest := by
  -- The text alone is read as `n`, and what follows it does not change that.
  obtain ⟨m, hscan, hvalue⟩ := n.scan_chars
  obtain ⟨c, cs, hchars, hc⟩ := exists_startsNumber n.isSigned_chars
  have happend := Numeral.scan_append hrest hscan
  rw [hchars, List.cons_append] at happend ⊢
  refine tokens_token hc.isSpace ?_
  rw [scanToken_number hc, happend, ← hvalue]
  rfl

/-! ### Whole values -/

mutual

/-- The lexemes of a value. -/
def lexemes : Json → List Token
  | .null => [.null]
  | .bool b => [.bool b]
  | .number n => [.number (some n)]
  | .string s => [.string (some s)]
  | .array items => .openBracket :: (itemLexemes items ++ [.closeBracket])
  | .object members => .openBrace :: (memberLexemes members ++ [.closeBrace])

/-- The lexemes of the items of an array, with their commas. -/
def itemLexemes : List Json → List Token
  | [] => []
  | v :: rest => lexemes v ++ (if rest.isEmpty then [] else .comma :: itemLexemes rest)

/-- The lexemes of the members of an object, with their commas. -/
def memberLexemes : List (String × Json) → List Token
  | [] => []
  | (k, v) :: rest =>
    .string (some k) :: .colon ::
      (lexemes v ++ (if rest.isEmpty then [] else .comma :: memberLexemes rest))

end

theorem stopsNumber_newline (depth : Nat) (cs : List Char) : StopsNumber (newline depth ++ cs) := by
  rw [newline, List.cons_append, stopsNumber_cons]
  decide

/-- A comma is a lexeme of its own, and so are the five other marks below. -/
theorem tokens_comma (cs : List Char) : tokens (',' :: cs) = .comma :: tokens cs :=
  tokens_token (by decide) rfl

theorem tokens_openBracket (cs : List Char) : tokens ('[' :: cs) = .openBracket :: tokens cs :=
  tokens_token (by decide) rfl

theorem tokens_closeBracket (cs : List Char) : tokens (']' :: cs) = .closeBracket :: tokens cs :=
  tokens_token (by decide) rfl

theorem tokens_openBrace (cs : List Char) : tokens ('{' :: cs) = .openBrace :: tokens cs :=
  tokens_token (by decide) rfl

theorem tokens_closeBrace (cs : List Char) : tokens ('}' :: cs) = .closeBrace :: tokens cs :=
  tokens_token (by decide) rfl

theorem tokens_colon (cs : List Char) : tokens (':' :: cs) = .colon :: tokens cs :=
  tokens_token (by decide) rfl

mutual

/-- **The text of a value has the lexemes of the value.** -/
theorem tokens_prettyChars (depth : Nat) (v : Json) {rest : List Char}
    (hrest : StopsNumber rest) :
    tokens (prettyChars depth v ++ rest) = lexemes v ++ tokens rest := by
  cases v with
  | null => exact tokens_token (by decide) rfl
  | bool b => cases b <;> exact tokens_token (by decide) rfl
  | number n => exact tokens_number n hrest
  | string s => exact tokens_string s rest
  | array items =>
    cases items with
    | nil =>
      show tokens ('[' :: ']' :: rest) = _
      rw [tokens_openBracket, tokens_closeBracket]
      rfl
    | cons v items =>
      -- The last item is followed by a line break, which ends a number.
      have hitems := tokens_prettyItems (depth + 1) (v :: items)
        (stopsNumber_newline depth (']' :: rest))
      rw [tokens_newline, tokens_closeBracket] at hitems
      simp only [prettyChars, List.isEmpty_cons, Bool.false_eq_true, if_false, List.cons_append,
        List.append_assoc, List.nil_append, tokens_openBracket, hitems, lexemes]
  | object members =>
    cases members with
    | nil =>
      show tokens ('{' :: '}' :: rest) = _
      rw [tokens_openBrace, tokens_closeBrace]
      rfl
    | cons m members =>
      have hmembers := tokens_prettyMembers (depth + 1) (m :: members)
        (stopsNumber_newline depth ('}' :: rest))
      rw [tokens_newline, tokens_closeBrace] at hmembers
      simp only [prettyChars, List.isEmpty_cons, Bool.false_eq_true, if_false, List.cons_append,
        List.append_assoc, List.nil_append, tokens_openBrace, hmembers, lexemes]

/-- The items of an array, each on a line of its own, have the lexemes of the items with their
    commas. -/
theorem tokens_prettyItems (depth : Nat) (items : List Json) {rest : List Char}
    (hrest : StopsNumber rest) :
    tokens (prettyItems depth items ++ rest) = itemLexemes items ++ tokens rest := by
  cases items with
  | nil => rfl
  | cons v items =>
    rw [prettyItems, itemLexemes, List.append_assoc, tokens_newline, List.append_assoc]
    -- Only an item with another one behind it has a comma.
    cases items with
    | nil =>
      simp only [List.isEmpty_nil, if_true, List.nil_append, List.append_nil]
      exact tokens_prettyChars depth v hrest
    | cons w items =>
      simp only [List.isEmpty_cons, Bool.false_eq_true, if_false, List.cons_append,
        List.append_assoc]
      rw [tokens_prettyChars depth v (stopsNumber_cons.mpr (by decide)), tokens_comma,
        tokens_prettyItems depth (w :: items) hrest]

/-- The members of an object, each on a line of its own, have the lexemes of the members. -/
theorem tokens_prettyMembers (depth : Nat) (members : List (String × Json)) {rest : List Char}
    (hrest : StopsNumber rest) :
    tokens (prettyMembers depth members ++ rest) = memberLexemes members ++ tokens rest := by
  cases members with
  | nil => rfl
  | cons m members =>
    obtain ⟨k, v⟩ := m
    rw [prettyMembers, memberLexemes, List.append_assoc, tokens_newline, List.append_assoc,
      tokens_string, List.cons_append, List.cons_append, tokens_colon, tokens_space (by decide),
      List.append_assoc]
    -- As for the items, the last member has no comma.
    cases members with
    | nil =>
      simp only [List.isEmpty_nil, if_true, List.nil_append, List.append_nil, List.cons_append]
      rw [tokens_prettyChars depth v hrest]
    | cons w members =>
      simp only [List.isEmpty_cons, Bool.false_eq_true, if_false, List.cons_append,
        List.append_assoc]
      rw [tokens_prettyChars depth v (stopsNumber_cons.mpr (by decide)), tokens_comma,
        tokens_prettyMembers depth (w :: members) hrest]

end

mutual

/-- Without white space the text of a value has the same lexemes. -/
theorem tokens_compactChars (v : Json) {rest : List Char} (hrest : StopsNumber rest) :
    tokens (compactChars v ++ rest) = lexemes v ++ tokens rest := by
  cases v with
  | null => exact tokens_token (by decide) rfl
  | bool b => cases b <;> exact tokens_token (by decide) rfl
  | number n => exact tokens_number n hrest
  | string s => exact tokens_string s rest
  | array items =>
    have hclose : StopsNumber (']' :: rest) := stopsNumber_cons.mpr (by decide)
    rw [compactChars, lexemes, List.cons_append, List.append_assoc, List.singleton_append,
      tokens_openBracket, tokens_compactItems items hclose, tokens_closeBracket, List.cons_append,
      List.append_assoc, List.singleton_append]
  | object members =>
    have hclose : StopsNumber ('}' :: rest) := stopsNumber_cons.mpr (by decide)
    rw [compactChars, lexemes, List.cons_append, List.append_assoc, List.singleton_append,
      tokens_openBrace, tokens_compactMembers members hclose, tokens_closeBrace, List.cons_append,
      List.append_assoc, List.singleton_append]

/-- The items of an array without white space have the same lexemes. -/
theorem tokens_compactItems (items : List Json) {rest : List Char} (hrest : StopsNumber rest) :
    tokens (compactItems items ++ rest) = itemLexemes items ++ tokens rest := by
  cases items with
  | nil => rfl
  | cons v items =>
    rw [compactItems, itemLexemes, List.append_assoc]
    cases items with
    | nil =>
      simp only [List.isEmpty_nil, if_true, List.nil_append, List.append_nil]
      exact tokens_compactChars v hrest
    | cons w items =>
      simp only [List.isEmpty_cons, Bool.false_eq_true, if_false, List.cons_append,
        List.append_assoc]
      rw [tokens_compactChars v (stopsNumber_cons.mpr (by decide)), tokens_comma,
        tokens_compactItems (w :: items) hrest]

/-- The members of an object without white space have the same lexemes. -/
theorem tokens_compactMembers (members : List (String × Json)) {rest : List Char}
    (hrest : StopsNumber rest) :
    tokens (compactMembers members ++ rest) = memberLexemes members ++ tokens rest := by
  cases members with
  | nil => rfl
  | cons m members =>
    obtain ⟨k, v⟩ := m
    rw [compactMembers, memberLexemes, List.append_assoc, tokens_string, List.cons_append,
      List.cons_append, tokens_colon, List.append_assoc]
    cases members with
    | nil =>
      simp only [List.isEmpty_nil, if_true, List.nil_append, List.append_nil, List.cons_append]
      rw [tokens_compactChars v hrest]
    | cons w members =>
      simp only [List.isEmpty_cons, Bool.false_eq_true, if_false, List.cons_append,
        List.append_assoc]
      rw [tokens_compactChars v (stopsNumber_cons.mpr (by decide)), tokens_comma,
        tokens_compactMembers (w :: members) hrest]

end

end QueryGraph.Json
