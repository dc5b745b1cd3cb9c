import Mathlib.Data.List.Induction
import Mathlib.Logic.Function.Iterate
import QueryGraph.Proofs.Text.Indent

namespace QueryGraph.Text

open scoped List

/-!
# Indentation undone

A text is the lines that a feed ends, and what stands behind its last feed.  Indentation acts on
these parts one by one, so what it keeps of a text is read off there.

* `Parts`: a text in parts; every text has them (`Parts.exists_chars`), in one way
  (`Parts.chars_inj`).
* `Tidy`: a text with no feed at its end and no return in front of a feed.
* `outdent`: every line without its first four characters; it undoes the indentation of a tidy
  text (`outdentChars_indentChars`).
* `indentEnded`: indentation of a text in front of a feed, which is what happens to a text inside
  others (`IsFrame.exists_indentChars`).
* `iterate_indentEnded_eq_iff`: what is left of a tidy text after it was indented once, and then
  again and again inside others.
-/

/-! ### Texts in parts -/

/-- The pieces of a text are those between its feeds. -/
theorem splitFeeds_eq_splitOn (cs : List Char) : splitFeeds cs = cs.splitOn '\n' := by
  induction cs with
  | nil => rfl
  | cons c cs ih =>
    obtain ⟨p, ps, h⟩ := exists_splitFeeds cs
    rw [List.splitOn_cons_eq_if_modifyHead, ← ih]
    by_cases hfeed : c = '\n'
    · rw [hfeed, splitFeeds_feed]
      rfl
    · rw [if_neg (by simpa using hfeed), h, splitFeeds_char hfeed h, List.modifyHead_cons]

/-- The last of several lines joined has no feed behind it, and all others have. -/
theorem intercalate_concat (ls : List (List Char)) (last : List Char) :
    ['\n'].intercalate (ls ++ [last]) = ls.flatMap (· ++ ['\n']) ++ last := by
  induction ls with
  | nil => simp
  | cons l ls ih =>
    rw [List.cons_append, List.intercalate_cons_of_ne_nil (by simp), ih, List.flatMap_cons]
    simp

/-- A text in parts: the lines that a feed ends, and what stands behind the last feed. -/
@[ext] structure Parts where
  ended : List (List Char)
  last : List Char
  feedless : ∀ l ∈ last :: ended, '\n' ∉ l

namespace Parts

/-- The text that has these parts. -/
def chars (p : Parts) : List Char := p.ended.flatMap (· ++ ['\n']) ++ p.last

/-- The text in front of one more feed. -/
def feed (p : Parts) : Parts where
  ended := p.ended ++ [p.last]
  last := []
  feedless := by
    intro l hl
    rcases List.mem_cons.mp hl with rfl | hl
    · exact List.not_mem_nil
    · exact p.feedless l ((List.perm_append_singleton p.last p.ended).mem_iff.mp hl)

@[simp] theorem chars_feed (p : Parts) : p.feed.chars = p.chars ++ ['\n'] := by
  simp [chars, feed]

/-- Every text has parts. -/
theorem exists_chars (cs : List Char) : ∃ p : Parts, p.chars = cs := by
  induction cs using List.reverseRecOn with
  | nil => exact ⟨⟨[], [], by simp⟩, rfl⟩
  | append_singleton cs c ih =>
    obtain ⟨p, rfl⟩ := ih
    -- A feed ends the last line, and any other character belongs to it.
    by_cases hfeed : c = '\n'
    · exact ⟨p.feed, by rw [chars_feed, hfeed]⟩
    · have hfeedless := p.feedless
      rw [List.forall_mem_cons] at hfeedless
      refine ⟨⟨p.ended, p.last ++ [c], ?_⟩, by simp [chars]⟩
      rw [List.forall_mem_cons]
      exact ⟨by simp [hfeedless.1, Ne.symm hfeed], hfeedless.2⟩

/-- The pieces of a text are its parts. -/
theorem splitFeeds_chars (p : Parts) : splitFeeds p.chars = p.ended ++ [p.last] := by
  rw [chars, ← intercalate_concat, splitFeeds_eq_splitOn]
  refine List.splitOn_intercalate '\n' (fun l hl => p.feedless l ?_) (by simp)
  exact (List.perm_append_singleton p.last p.ended).mem_iff.mp hl

/-- A text has one way to be in parts. -/
theorem chars_inj {p q : Parts} : p.chars = q.chars ↔ p = q := by
  refine ⟨fun h => ?_, congrArg chars⟩
  have hpieces := congrArg splitFeeds h
  rw [splitFeeds_chars, splitFeeds_chars] at hpieces
  obtain ⟨hended, hlast⟩ := List.append_inj' hpieces rfl
  exact Parts.ext hended (List.singleton_inj.mp hlast)

end Parts

/-! ### Lines of a text in parts -/

/-- All pieces but the last are lines, and the last one is if it is not empty. -/
theorem closeLines_concat (ls : List (List Char)) (last : List Char) :
    closeLines (ls ++ [last]) = ls.map dropReturn ++ if last.isEmpty then [] else [last] := by
  induction ls with
  | nil => rfl
  | cons l ls ih =>
    obtain ⟨q, qs, hq⟩ := List.exists_cons_of_ne_nil (List.append_ne_nil_of_right_ne_nil ls
      (List.cons_ne_nil last []))
    rw [List.cons_append, hq, closeLines, ← hq, ih, List.map_cons, List.cons_append]

/-- The lines of a text: its parts, less the returns in front of the feeds. -/
theorem Parts.lines_chars (p : Parts) :
    lines p.chars = p.ended.map dropReturn ++ if p.last.isEmpty then [] else [p.last] := by
  rw [lines, p.splitFeeds_chars, closeLines_concat]

/-! ### Tidy texts -/

/-- A text that does not end in a feed and has no return directly in front of a feed. -/
structure Tidy (cs : List Char) : Prop where
  last : cs.getLast? ≠ some '\n'
  returns : ¬ ['\r', '\n'] <:+: cs

theorem dropReturn_of_ne {l : List Char} (h : l.getLast? ≠ some '\r') : dropReturn l = l :=
  if_neg h

/-- Only the end of a line matters for a return that is dropped. -/
theorem dropReturn_append {l : List Char} (h : l.getLast? ≠ some '\r') (l' : List Char) :
    dropReturn (l ++ l') = l ++ dropReturn l' := by
  by_cases hl' : l' = []
  · rw [hl', List.append_nil, dropReturn_of_ne h]
    exact (List.append_nil l).symm
  · rw [dropReturn, dropReturn, List.getLast?_append_of_ne_nil l hl',
      List.dropLast_append_of_ne_nil hl']
    split <;> rfl

namespace Tidy

variable {p : Parts}

/-- The lines of a tidy text that a feed ends have no return at their end. -/
theorem dropReturn_ended (h : Tidy p.chars) : ∀ l ∈ p.ended, dropReturn l = l := by
  intro l hl
  -- A return at the end of such a line stands in front of its feed.
  refine dropReturn_of_ne fun hreturn => h.returns ?_
  obtain ⟨body, rfl⟩ := List.getLast?_eq_some_iff.mp hreturn
  obtain ⟨before, after, hended⟩ := List.append_of_mem hl
  refine ⟨before.flatMap (· ++ ['\n']) ++ body, after.flatMap (· ++ ['\n']) ++ p.last, ?_⟩
  rw [Parts.chars, hended]
  simp

/-- Behind a feed a tidy text goes on. -/
theorem ended_eq_nil (h : Tidy p.chars) (hlast : p.last = []) : p.ended = [] := by
  rcases List.eq_nil_or_concat p.ended with hnil | ⟨ls, l, hls⟩
  · exact hnil
  · refine absurd ?_ h.last
    rw [Parts.chars, hlast, hls]
    simp

/-- A tidy text is empty if nothing stands behind its last feed. -/
theorem chars_eq_nil_iff (h : Tidy p.chars) : p.chars = [] ↔ p.last = [] := by
  refine ⟨fun hnil => ?_, fun hlast => ?_⟩
  · exact (List.append_eq_nil_iff.mp hnil).2
  · rw [Parts.chars, hlast, h.ended_eq_nil hlast]
    rfl

end Tidy

/-! ### Lines moved -/

/-- A line that is not empty is moved by four spaces. -/
theorem indentLine_of_ne_nil {l : List Char} (h : l ≠ []) :
    indentLine l = List.replicate 4 ' ' ++ l := by
  rw [indentLine, if_neg (by simpa using h)]
  rfl

/-- Dropping a return adds no feed to a line. -/
theorem feed_not_mem_dropReturn {l : List Char} (h : '\n' ∉ l) : '\n' ∉ dropReturn l := by
  rw [dropReturn]
  split
  · exact fun hmem => h (List.mem_of_mem_dropLast hmem)
  · exact h

theorem feed_not_mem_indentLine {l : List Char} (h : '\n' ∉ l) : '\n' ∉ indentLine l := by
  cases l <;> simp_all [indentLine]

/-- What becomes of a line, the first indentation included, when it is indented and then `n`
    times more in front of a feed: each time it loses a return at its end. -/
def shiftLine : Nat → List Char → List Char
  | 0, l => indentLine l
  | n + 1, l => indentLine (dropReturn (shiftLine n l))

/-- A line that is shifted is still one line. -/
theorem feed_not_mem_shiftLine (n : Nat) {l : List Char} (h : '\n' ∉ l) :
    '\n' ∉ shiftLine n l := by
  induction n with
  | zero => exact feed_not_mem_indentLine h
  | succ n ih => exact feed_not_mem_indentLine (feed_not_mem_dropReturn ih)

/-- A line that lost returns is still one line. -/
theorem feed_not_mem_iterate_dropReturn (n : Nat) {l : List Char} (h : '\n' ∉ l) :
    '\n' ∉ dropReturn^[n] l := by
  induction n with
  | zero => exact h
  | succ n ih =>
    rw [Function.iterate_succ_apply']
    exact feed_not_mem_dropReturn ih

/-- However many returns are dropped, only the end of the line matters. -/
theorem iterate_dropReturn_append {l : List Char} (h : l.getLast? ≠ some '\r') (n : Nat)
    (l' : List Char) : dropReturn^[n] (l ++ l') = l ++ dropReturn^[n] l' := by
  have hstep : Function.Semiconj (l ++ ·) dropReturn dropReturn :=
    fun l' => (dropReturn_append h l').symm
  exact (hstep.iterate_right n l').symm

theorem iterate_dropReturn_nil (n : Nat) : dropReturn^[n] [] = [] := Function.iterate_fixed rfl n

/-- An empty line stays empty. -/
theorem shiftLine_nil (n : Nat) : shiftLine n [] = [] := by
  induction n with
  | zero => rfl
  | succ n ih => rw [shiftLine, ih]; rfl

/-- A line that is not empty has a margin, also if nothing is left behind it. -/
theorem shiftLine_of_ne_nil {l : List Char} (h : l ≠ []) (n : Nat) :
    shiftLine n l = List.replicate (4 * (n + 1)) ' ' ++ dropReturn^[n] l := by
  induction n with
  | zero => exact indentLine_of_ne_nil h
  | succ n ih =>
    have hmargin : (List.replicate (4 * (n + 1)) ' ').getLast? ≠ some '\r' := by
      simp [List.getLast?_replicate]
    -- With its margin the line is not empty, even if the returns were all that it had.
    have hne : List.replicate (4 * (n + 1)) ' ' ++ dropReturn (dropReturn^[n] l) ≠ [] := by
      simp
    have hwidth : 4 * (n + 1 + 1) = 4 + 4 * (n + 1) := by omega
    rw [shiftLine, ih, dropReturn_append hmargin, indentLine_of_ne_nil hne, hwidth,
      List.replicate_add, List.append_assoc, Function.iterate_succ_apply']

/-- Behind its margin a shifted line is what it was, less returns at its end. -/
theorem drop_shiftLine (n : Nat) (l : List Char) :
    (shiftLine n l).drop (4 * (n + 1)) = dropReturn^[n] l := by
  by_cases h : l = []
  · rw [h, shiftLine_nil, List.drop_nil, iterate_dropReturn_nil]
  · rw [shiftLine_of_ne_nil h]
    exact List.drop_left' List.length_replicate

/-- Only an empty line becomes empty. -/
theorem shiftLine_eq_nil_iff {n : Nat} {l : List Char} : shiftLine n l = [] ↔ l = [] := by
  refine ⟨fun h => ?_, fun h => h ▸ shiftLine_nil n⟩
  by_contra hne
  rw [shiftLine_of_ne_nil hne] at h
  simp at h

/-- Two lines are shifted alike if both are empty or neither is, and if they agree but for the
    returns that are lost. -/
theorem shiftLine_eq_iff {n : Nat} {l l' : List Char} :
    shiftLine n l = shiftLine n l'
      ↔ (l = [] ↔ l' = []) ∧ dropReturn^[n] l = dropReturn^[n] l' := by
  constructor
  · intro h
    exact ⟨by rw [← shiftLine_eq_nil_iff (n := n), h, shiftLine_eq_nil_iff],
      by rw [← drop_shiftLine, h, drop_shiftLine]⟩
  · rintro ⟨hnil, hleft⟩
    by_cases h : l = []
    · rw [h, hnil.mp h]
    · rw [shiftLine_of_ne_nil h, shiftLine_of_ne_nil (mt hnil.mpr h), hleft]

/-! ### Tidy texts indented -/

/-- The lines of a text shifted. -/
def Parts.shift (n : Nat) (p : Parts) : Parts where
  ended := p.ended.map (shiftLine n)
  last := shiftLine n p.last
  feedless := by
    rw [← List.map_cons, List.forall_mem_map]
    exact fun l hl => feed_not_mem_shiftLine n (p.feedless l hl)

/-- A text without up to `n` returns at its end. -/
def Parts.trim (n : Nat) (p : Parts) : Parts where
  ended := p.ended
  last := dropReturn^[n] p.last
  feedless := by
    have hfeedless := p.feedless
    rw [List.forall_mem_cons] at hfeedless ⊢
    exact ⟨feed_not_mem_iterate_dropReturn n hfeedless.1, hfeedless.2⟩

/-- Indentation of a text in front of a feed: its last line is then a line like the others. -/
def indentEnded (cs : List Char) : List Char := indentChars (cs ++ ['\n'])

section Tidy

variable {p q : Parts}

/-- Nothing is lost between the lines of a tidy text. -/
theorem Parts.intercalate_map_lines (h : Tidy p.chars) {f : List Char → List Char}
    (hf : f [] = []) :
    ['\n'].intercalate ((lines p.chars).map f)
      = (p.ended.map f).flatMap (· ++ ['\n']) ++ f p.last := by
  have hended := List.map_congr_left (g := id) h.dropReturn_ended
  rw [p.lines_chars, hended, List.map_id]
  by_cases hlast : p.last = []
  · simp [hlast, h.ended_eq_nil hlast, hf]
  · rw [if_neg (by simpa using hlast), List.map_append, List.map_singleton, intercalate_concat]

/-- A tidy text is indented line by line. -/
theorem Parts.indentChars_chars (h : Tidy p.chars) : indentChars p.chars = (p.shift 0).chars :=
  intercalate_map_lines h rfl

/-- Each further indentation shifts the lines once more. -/
theorem Parts.indentEnded_shift (n : Nat) (p : Parts) :
    indentEnded (p.shift n).chars = (p.shift (n + 1)).chars := by
  -- Nothing stands behind the last feed, so that all lines are ended.
  have hlast : (p.shift n).feed.last.isEmpty = true := rfl
  rw [indentEnded, ← chars_feed, indentChars, lines_chars, if_pos hlast, List.append_nil,
    feed, List.map_append, List.map_append, List.map_singleton, List.map_singleton,
    intercalate_concat, List.map_map]
  simp [shift, shiftLine, chars, Function.comp_def]

/-- Indented once and then `n` times in front of a feed, a tidy text has its lines shifted. -/
theorem Parts.iterate_indentEnded (h : Tidy p.chars) (n : Nat) :
    indentEnded^[n] (indentChars p.chars) = (p.shift n).chars := by
  induction n with
  | zero => exact indentChars_chars h
  | succ n ih => rw [Function.iterate_succ_apply', ih, indentEnded_shift]

/-- The returns at the end of a text are those of its last part. -/
theorem Parts.iterate_dropReturn_chars (n : Nat) (p : Parts) :
    dropReturn^[n] p.chars = (p.trim n).chars := by
  refine iterate_dropReturn_append (fun hreturn => ?_) n p.last
  -- Either nothing is ended, or a feed stands in front of the last part.
  rcases List.eq_nil_or_concat p.ended with hnil | ⟨ls, l, hls⟩
  · simp [hnil] at hreturn
  · simp [hls] at hreturn

/-- The lines of a tidy text that a feed ends can be told from their shifted forms. -/
theorem Parts.ended_of_shift (h : Tidy p.chars) (n : Nat) :
    (p.shift n).ended.map (List.drop (4 * (n + 1))) = p.ended := by
  show (p.ended.map (shiftLine n)).map (List.drop (4 * (n + 1))) = p.ended
  rw [List.map_map]
  refine (List.map_congr_left fun l hl => ?_).trans (List.map_id _)
  exact (drop_shiftLine n l).trans (Function.iterate_fixed (h.dropReturn_ended l hl) n)

/-- Two tidy texts are shifted alike if they agree but for the returns at their ends, and both or
    neither end in an empty line. -/
theorem Parts.shift_eq_iff (hp : Tidy p.chars) (hq : Tidy q.chars) (n : Nat) :
    p.shift n = q.shift n ↔ (p.last = [] ↔ q.last = []) ∧ p.trim n = q.trim n := by
  constructor
  · intro h
    -- The ended lines have no returns to lose, so they can be read back.
    have hended : p.ended = q.ended := by
      rw [← ended_of_shift hp n, ← ended_of_shift hq n, h]
    have hlast : shiftLine n p.last = shiftLine n q.last := congrArg Parts.last h
    rw [shiftLine_eq_iff] at hlast
    exact ⟨hlast.1, Parts.ext hended hlast.2⟩
  · rintro ⟨hnil, htrim⟩
    obtain ⟨hended, hlast⟩ := Parts.ext_iff.mp htrim
    exact Parts.ext (congrArg (List.map (shiftLine n)) hended)
      (shiftLine_eq_iff.mpr ⟨hnil, hlast⟩)

end Tidy

/-- What two tidy texts have in common if they are the same after one indentation and `n` more
    in front of a feed: all but returns at their ends, of which each of the `n` drops one. -/
theorem iterate_indentEnded_eq_iff {cs ds : List Char} (hcs : Tidy cs) (hds : Tidy ds) (n : Nat) :
    indentEnded^[n] (indentChars cs) = indentEnded^[n] (indentChars ds)
      ↔ (cs = [] ↔ ds = []) ∧ dropReturn^[n] cs = dropReturn^[n] ds := by
  obtain ⟨p, rfl⟩ := Parts.exists_chars cs
  obtain ⟨q, rfl⟩ := Parts.exists_chars ds
  rw [Parts.iterate_indentEnded hcs, Parts.iterate_indentEnded hds, Parts.chars_inj,
    Parts.shift_eq_iff hcs hds, hcs.chars_eq_nil_iff, hds.chars_eq_nil_iff,
    Parts.iterate_dropReturn_chars, Parts.iterate_dropReturn_chars, Parts.chars_inj]

/-! ### The way back -/

/-- A text without the first four characters of each of its lines; an empty line has none. -/
def outdentChars (cs : List Char) : List Char :=
  ['\n'].intercalate ((lines cs).map (List.drop 4))

/-- A text without the first four characters of every non-empty line. -/
def outdent (s : String) : String := String.ofList (outdentChars s.toList)

/-- A line without a return at its end has none when it is moved. -/
theorem dropReturn_indentLine {l : List Char} (h : dropReturn l = l) :
    dropReturn (indentLine l) = indentLine l := by
  by_cases hl : l = []
  · rw [hl]
    rfl
  · rw [indentLine_of_ne_nil hl, dropReturn_append (by decide), h]

/-- The lines of a tidy text are indented one by one. -/
theorem lines_indentChars {cs : List Char} (h : Tidy cs) :
    lines (indentChars cs) = (lines cs).map indentLine := by
  obtain ⟨p, rfl⟩ := Parts.exists_chars cs
  -- No ended line has a return to lose, before its margin or behind it.
  have hended : ∀ l ∈ p.ended, (dropReturn ∘ shiftLine 0) l = (indentLine ∘ dropReturn) l := by
    intro l hl
    have hl := h.dropReturn_ended l hl
    exact (dropReturn_indentLine hl).trans (congrArg indentLine hl.symm)
  rw [Parts.indentChars_chars h, Parts.lines_chars, Parts.lines_chars, List.map_append,
    List.map_map, Parts.shift, List.map_map, List.map_congr_left hended]
  congr 1
  show (if (indentLine p.last).isEmpty then [] else [indentLine p.last]) = _
  cases p.last <;> rfl

/-- The indentation of a tidy text can be undone. -/
theorem outdentChars_indentChars {cs : List Char} (h : Tidy cs) :
    outdentChars (indentChars cs) = cs := by
  have hline : List.drop 4 ∘ indentLine = id := funext fun l => drop_shiftLine 0 l
  rw [outdentChars, lines_indentChars h, List.map_map, hline]
  obtain ⟨p, rfl⟩ := Parts.exists_chars cs
  rw [Parts.intercalate_map_lines h rfl, List.map_id]
  rfl

/-! ### Texts inside others -/

/-- What stands around the lines of a text: a line in front that is ended, and more than line ends
    behind. -/
structure IsFrame (front back : List Char) : Prop where
  opens : ∃ text, front = text ++ ['\n']
  closes : ∃ text, back = '\n' :: text ∧ ∃ c ∈ text, IsSolid c

/-- More text may stand around a frame. -/
theorem IsFrame.append {front back : List Char} (h : IsFrame front back)
    (before after : List Char) : IsFrame (before ++ front) (back ++ after) := by
  obtain ⟨⟨text, rfl⟩, text', rfl, c, hmem, hc⟩ := h
  exact ⟨⟨before ++ text, by simp⟩, text' ++ after, rfl, c, List.mem_append_left _ hmem, hc⟩

/-- The lines of a text inside another are indented with it, in front of a feed. -/
theorem IsFrame.exists_indentChars {front back : List Char} (h : IsFrame front back) :
    ∃ front' back', IsFrame front' back' ∧
      ∀ cs, indentChars (front ++ cs ++ back) = front' ++ indentEnded cs ++ back' := by
  obtain ⟨⟨before, rfl⟩, after, rfl, c, hmem, hc⟩ := h
  refine ⟨indentFrom true (before ++ ['\n']) ++ ['\n'], '\n' :: indentFrom true after,
    ⟨⟨_, rfl⟩, _, rfl, c, mem_indentFrom true hc hmem, hc⟩, fun cs => ?_⟩
  -- Indentation starts anew behind the feed in front of the text, and behind the one that ends it.
  have htext : before ++ ['\n'] ++ cs ++ '\n' :: after
      = before ++ '\n' :: (cs ++ '\n' :: after) := by simp
  rw [indentChars_eq, htext, indentFrom_append_feed true before (by simp),
    indentFrom_append_feed true cs (List.ne_nil_of_mem hmem), indentEnded, indentChars_eq]
  simp

end QueryGraph.Text
