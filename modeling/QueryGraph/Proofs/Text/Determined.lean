import Mathlib.Data.List.TakeWhile
import QueryGraph.Text.Quoted

namespace QueryGraph.Text

/-!
# Texts that tell what they stand for

* `Ends rest`: nothing stands behind a text, or a space, a comma or a closing parenthesis.
* `Determined write f ok a`: in front of such a rest, the text of `a` tells `f a` among the values
  that are `ok`, and where the text ends.
* `append_inj_of_all`, `quoteChars_append_inj`: texts of one class of characters, and quoted
  literals, are told apart from what stands behind them.
* `Determined.intercalate`: a list between separators is determined if its items are.
-/

/-- What may stand behind a text that ends. -/
def Ends (rest : List Char) : Prop := ∀ c ∈ rest.head?, c = ' ' ∨ c = ',' ∨ c = ')'

theorem ends_nil : Ends [] := by simp [Ends]

theorem ends_cons {c : Char} (h : c = ' ' ∨ c = ',' ∨ c = ')') (cs : List Char) :
    Ends (c :: cs) := by simpa [Ends] using h

/-- A rest does not go on with any other character. -/
theorem Ends.head_ne {rest : List Char} (h : Ends rest) {c : Char}
    (hc : ¬ (c = ' ' ∨ c = ',' ∨ c = ')')) : rest.head? ≠ some c :=
  fun hhead => hc (h c hhead)

/-! ### Where a text ends -/

/-- A text of one class of characters goes on as long as the class does. -/
theorem append_inj_of_all {p : Char → Bool} {cs cs' rest rest' : List Char}
    (hall : ∀ c ∈ cs, p c = true) (hall' : ∀ c ∈ cs', p c = true)
    (hrest : ∀ c ∈ rest.head?, p c = false) (hrest' : ∀ c ∈ rest'.head?, p c = false)
    (h : cs ++ rest = cs' ++ rest') : cs = cs' ∧ rest = rest' := by
  have hstop : ∀ {r : List Char}, (∀ c ∈ r.head?, p c = false) → r.takeWhile p = [] := by
    intro r hr
    cases r with
    | nil => rfl
    | cons c r => rw [List.takeWhile_cons_of_neg (by simp [hr c rfl])]
  -- Each text is the longest prefix of its class.
  have hfirst : cs = cs' := by
    have htake := congrArg (List.takeWhile p) h
    rwa [List.takeWhile_append_of_pos hall, List.takeWhile_append_of_pos hall', hstop hrest,
      hstop hrest', List.append_nil, List.append_nil] at htake
  subst hfirst
  exact ⟨rfl, List.append_cancel_left h⟩

/-- The text of a literal starts with its first character, whichever that is. -/
theorem doubleQuotes_cons_append (c : Char) (cs rest : List Char) :
    doubleQuotes (c :: cs) ++ rest
      = c :: ((if c = '\'' then ['\''] else []) ++ (doubleQuotes cs ++ rest)) := by
  rw [doubleQuotes_cons]
  split
  next hc => simp [hc]
  next => simp

/-- A literal that goes on with a character does not end in front of it. -/
theorem end_ne_doubleQuotes_cons {c : Char} {cs rest rest' : List Char}
    (hrest : rest.head? ≠ some '\'') :
    '\'' :: rest ≠ doubleQuotes (c :: cs) ++ '\'' :: rest' := by
  intro h
  rw [doubleQuotes_cons_append, List.cons.injEq] at h
  obtain ⟨rfl, htail⟩ := h
  exact hrest (by simp [htail])

/-- A quote in a literal is doubled, so a single one ends it. -/
theorem doubleQuotes_append_inj {cs cs' rest rest' : List Char} (hrest : rest.head? ≠ some '\'')
    (hrest' : rest'.head? ≠ some '\'')
    (h : doubleQuotes cs ++ '\'' :: rest = doubleQuotes cs' ++ '\'' :: rest') :
    cs = cs' ∧ rest = rest' := by
  -- Both literals are read character by character, and a doubled quote counts as one.
  induction cs generalizing cs' with
  | nil =>
    cases cs' with
    | nil => simpa using h
    | cons c' cs' => exact absurd h (end_ne_doubleQuotes_cons hrest)
  | cons c cs ih =>
    cases cs' with
    | nil => exact absurd h.symm (end_ne_doubleQuotes_cons hrest')
    | cons c' cs' =>
      rw [doubleQuotes_cons_append, doubleQuotes_cons_append, List.cons.injEq] at h
      obtain ⟨rfl, htail⟩ := h
      obtain ⟨rfl, hrests⟩ := ih (List.append_cancel_left htail)
      exact ⟨rfl, hrests⟩

/-- Two literals that begin the same text are the same, if no further quote stands behind them. -/
theorem quoteChars_append_inj {cs cs' rest rest' : List Char} (hrest : rest.head? ≠ some '\'')
    (hrest' : rest'.head? ≠ some '\'')
    (h : quoteChars cs ++ rest = quoteChars cs' ++ rest') : cs = cs' ∧ rest = rest' := by
  simp only [quoteChars, List.cons_append, List.append_assoc, List.nil_append,
    List.cons.injEq, true_and] at h
  exact doubleQuotes_append_inj hrest hrest' h

/-! ### Lists between separators -/

section Determined

variable {α β : Type} {write : α → String} {f : α → β} {ok : α → Prop}

/-- The text of a value tells what it stands for, whatever it may be followed by. -/
def Determined (write : α → String) (f : α → β) (ok : α → Prop) (a : α) : Prop :=
  ∀ ⦃a' : α⦄ ⦃rest rest' : List Char⦄, ok a' → Ends rest → Ends rest' →
    (write a).toList ++ rest = (write a').toList ++ rest' → f a = f a' ∧ rest = rest'

/-- A separator ends the text in front of it. -/
structure IsSeparator (separator : String) (s : Char) : Prop where
  head : separator.toList.head? = some s
  ends : s = ' ' ∨ s = ',' ∨ s = ')'

/-- A list of texts begins with its first item. -/
theorem prefix_intercalate (separator s : String) (items : List String) :
    s.toList <+: (separator.intercalate (s :: items)).toList := by
  cases items with
  | nil => simp
  | cons t items =>
    rw [String.intercalate_cons_cons, String.append_assoc, String.toList_append]
    exact List.prefix_append _ _

/-- With one more separator in front, every item has its own. -/
theorem separator_append_intercalate (separator : String) {items : List α} (h : items ≠ []) :
    separator.toList ++ (separator.intercalate (items.map write)).toList
      = items.flatMap fun a => separator.toList ++ (write a).toList := by
  induction items with
  | nil => exact absurd rfl h
  | cons a items ih =>
    cases items with
    | nil => simp
    | cons a' items =>
      have htail := ih (List.cons_ne_nil _ _)
      rw [List.flatMap_cons, ← htail]
      simp [String.intercalate_cons_cons]

/-- Items behind separators begin with a separator, if there are any. -/
theorem IsSeparator.head_flatMap {separator : String} {s : Char} (hs : IsSeparator separator s)
    (items : List α) (rest : List Char) :
    ((items.flatMap fun a => separator.toList ++ (write a).toList) ++ rest).head?
      = if items.isEmpty then rest.head? else some s := by
  cases items with
  | nil => rfl
  | cons a items => simp [hs.head]

/-- Items behind separators may stand behind a text that ends. -/
theorem IsSeparator.ends_flatMap {separator : String} {s : Char} (hs : IsSeparator separator s)
    (items : List α) {rest : List Char} (hrest : Ends rest) :
    Ends ((items.flatMap fun a => separator.toList ++ (write a).toList) ++ rest) := by
  intro c hc
  rw [hs.head_flatMap] at hc
  split at hc
  · exact hrest c hc
  · obtain rfl := Option.some.inj hc
    exact hs.ends

/-- Items behind separators are told apart one by one. -/
theorem Determined.flatMap {separator : String} {s : Char} (hs : IsSeparator separator s)
    {items items' : List α} {rest rest' : List Char}
    (hitems : ∀ a ∈ items, Determined write f ok a) (hok : ∀ a ∈ items', ok a)
    (hrest : Ends rest) (hrest' : Ends rest') (hhead : rest.head? ≠ some s)
    (hhead' : rest'.head? ≠ some s)
    (h : (items.flatMap fun a => separator.toList ++ (write a).toList) ++ rest
      = (items'.flatMap fun a => separator.toList ++ (write a).toList) ++ rest') :
    items.map f = items'.map f ∧ rest = rest' := by
  induction items generalizing items' with
  | nil =>
    -- What stands behind a list begins with no separator, so both lists end here.
    cases items' with
    | nil => exact ⟨rfl, h⟩
    | cons a' items' =>
      have hfirst := congrArg List.head? h
      rw [hs.head_flatMap, hs.head_flatMap] at hfirst
      exact absurd hfirst hhead
  | cons a items ih =>
    cases items' with
    | nil =>
      have hfirst := congrArg List.head? h
      rw [hs.head_flatMap, hs.head_flatMap] at hfirst
      exact absurd hfirst.symm hhead'
    | cons a' items' =>
      rw [List.forall_mem_cons] at hitems hok
      simp only [List.flatMap_cons, List.append_assoc, List.append_cancel_left_eq] at h
      -- The first item is told by its text, since a separator or the rest ends it.
      obtain ⟨hvalue, htail⟩ := hitems.1 hok.1 (hs.ends_flatMap items hrest)
        (hs.ends_flatMap items' hrest') h
      obtain ⟨hvalues, hrests⟩ := ih hitems.2 hok.2 htail
      exact ⟨by rw [List.map_cons, List.map_cons, hvalue, hvalues], hrests⟩

/-- The text of a list tells its items, if what stands behind it cannot go on with a separator. -/
theorem Determined.intercalate {separator : String} {s : Char} (hs : IsSeparator separator s)
    {items items' : List α} {rest rest' : List Char} (hne : items ≠ []) (hne' : items' ≠ [])
    (hitems : ∀ a ∈ items, Determined write f ok a) (hok : ∀ a ∈ items', ok a)
    (hrest : Ends rest) (hrest' : Ends rest') (hhead : rest.head? ≠ some s)
    (hhead' : rest'.head? ≠ some s)
    (h : (separator.intercalate (items.map write)).toList ++ rest
      = (separator.intercalate (items'.map write)).toList ++ rest') :
    items.map f = items'.map f ∧ rest = rest' := by
  -- One more separator in front makes all items alike.
  have hbehind := congrArg (separator.toList ++ ·) h
  simp only [← List.append_assoc, separator_append_intercalate separator hne,
    separator_append_intercalate separator hne'] at hbehind
  exact Determined.flatMap hs hitems hok hrest hrest' hhead hhead' hbehind

end Determined

end QueryGraph.Text
