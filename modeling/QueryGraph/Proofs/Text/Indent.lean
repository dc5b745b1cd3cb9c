import Mathlib.Data.List.Infix
import QueryGraph.Text.Lines

namespace QueryGraph.Text

open scoped List

/-!
# Indentation character by character

Indentation splits a text into lines and joins them again.  Most of what is inside a text does
not notice, which shows when it is done in one pass.

* `indentFrom`: indentation in one pass over the characters, and `indentChars_eq`.
* `indentInside`: what becomes of a piece inside a text that is indented.
* `indentInside_of_no_feed`: a piece of one line stays as it is.
* `infix_indentChars`: a piece of a text that is enclosed in characters other than line ends is,
  with its own lines moved, a piece of the indented text.
-/

/-! ### One pass -/

/-- What stands in front of a character at the start of a line, and elsewhere. -/
def margin : Bool → List Char
  | true => [' ', ' ', ' ', ' ']
  | false => []

/-- Indentation in one pass; the flag says whether a line starts here.  A carriage return in
    front of a feed is dropped, and so is a feed at the end. -/
def indentFrom : Bool → List Char → List Char
  | _, [] => []
  | start, c :: cs =>
    if c = '\n' then if cs.isEmpty then [] else '\n' :: indentFrom true cs
    else if c = '\r' ∧ cs.head? = some '\n' then indentFrom start cs
    else margin start ++ c :: indentFrom false cs

@[simp] theorem indentFrom_nil (start : Bool) : indentFrom start [] = [] := rfl

theorem indentFrom_feed (start : Bool) {cs : List Char} (h : cs ≠ []) :
    indentFrom start ('\n' :: cs) = '\n' :: indentFrom true cs := by
  simp [indentFrom, h]

theorem indentFrom_return_feed (start : Bool) (cs : List Char) :
    indentFrom start ('\r' :: '\n' :: cs) = indentFrom start ('\n' :: cs) := by
  rw [indentFrom, if_neg (by decide), if_pos ⟨rfl, rfl⟩]

/-- Any other character is kept, behind a margin at the start of a line. -/
theorem indentFrom_char (start : Bool) {c : Char} {cs : List Char} (hfeed : c ≠ '\n')
    (hreturn : ¬ (c = '\r' ∧ cs.head? = some '\n')) :
    indentFrom start (c :: cs) = margin start ++ c :: indentFrom false cs := by
  rw [indentFrom, if_neg hfeed, if_neg hreturn]

/-! ### Pieces and lines -/

theorem splitFeeds_feed (cs : List Char) : splitFeeds ('\n' :: cs) = [] :: splitFeeds cs := rfl

/-- Any other character belongs to the first piece. -/
theorem splitFeeds_char {c : Char} {cs p : List Char} {ps : List (List Char)} (hfeed : c ≠ '\n')
    (h : splitFeeds cs = p :: ps) : splitFeeds (c :: cs) = (c :: p) :: ps := by
  rw [splitFeeds_cons, h]
  exact if_neg hfeed

/-- Every text has a first piece. -/
theorem exists_splitFeeds (cs : List Char) : ∃ p ps, splitFeeds cs = p :: ps := by
  induction cs with
  | nil => exact ⟨[], [], rfl⟩
  | cons c cs ih =>
    obtain ⟨p, ps, h⟩ := ih
    by_cases hfeed : c = '\n'
    · exact ⟨[], splitFeeds cs, hfeed ▸ splitFeeds_feed cs⟩
    · exact ⟨c :: p, ps, splitFeeds_char hfeed h⟩

/-- The first of several pieces is empty exactly if the text starts with a feed. -/
theorem head?_eq_feed_iff {cs p : List Char} {ps : List (List Char)}
    (h : splitFeeds cs = p :: ps) : cs.head? = some '\n' ↔ p = [] ∧ ps ≠ [] := by
  cases cs with
  | nil =>
    rw [splitFeeds_nil, List.cons.injEq] at h
    simp [← h.2]
  | cons c cs =>
    obtain ⟨q, qs, hq⟩ := exists_splitFeeds cs
    by_cases hfeed : c = '\n'
    · rw [hfeed, splitFeeds_feed, hq, List.cons.injEq] at h
      simp [hfeed, ← h.1, ← h.2]
    · rw [splitFeeds_char hfeed hq, List.cons.injEq] at h
      simp [hfeed, ← h.1]

/-- The line that a first piece makes: if there are more, it was ended by a feed. -/
def firstLine (p : List Char) (ps : List (List Char)) : List Char :=
  if ps.isEmpty then p else dropReturn p

/-- The indented lines after the first one, with the feed in front of them. -/
def laterLines (ps : List (List Char)) : List Char :=
  if (closeLines ps).isEmpty then []
  else '\n' :: ['\n'].intercalate ((closeLines ps).map indentLine)

/-- A character in front of others is kept when a return at the end is dropped. -/
theorem dropReturn_cons {c : Char} {p : List Char} (h : ¬ (c = '\r' ∧ p = [])) :
    dropReturn (c :: p) = c :: dropReturn p := by
  cases p with
  | nil =>
    have hc : c ≠ '\r' := fun hc => h ⟨hc, rfl⟩
    simp [dropReturn, hc]
  | cons d p =>
    simp only [dropReturn, List.getLast?_cons_cons, List.dropLast_cons_cons]
    split <;> rfl

/-- One more character in front of a piece is one more in front of its line, unless it is the return
    that is dropped. -/
theorem firstLine_cons {c : Char} {p : List Char} {ps : List (List Char)}
    (h : ¬ (c = '\r' ∧ p = [] ∧ ps ≠ [])) : firstLine (c :: p) ps = c :: firstLine p ps := by
  cases ps with
  | nil => rfl
  | cons q qs => exact dropReturn_cons fun hc => h ⟨hc.1, hc.2, List.cons_ne_nil q qs⟩

/-- A text without lines is empty. -/
theorem lines_eq_nil_iff {cs : List Char} : lines cs = [] ↔ cs = [] := by
  cases cs with
  | nil => simp [lines, closeLines]
  | cons c cs =>
    obtain ⟨p, ps, h⟩ := exists_splitFeeds cs
    simp only [reduceCtorEq, iff_false, lines]
    by_cases hfeed : c = '\n'
    · rw [hfeed, splitFeeds_feed, h]
      exact List.cons_ne_nil _ _
    · rw [splitFeeds_char hfeed h]
      cases ps <;> simp [closeLines]

/-- Line by line, indentation moves the first line and then the later ones. -/
theorem indentChars_eq_lines {cs p : List Char} {ps : List (List Char)}
    (h : splitFeeds cs = p :: ps) :
    indentChars cs = indentLine (firstLine p ps) ++ laterLines ps := by
  rw [indentChars, lines, h]
  cases ps with
  | nil => cases p <;> simp [closeLines, firstLine, laterLines, indentLine]
  | cons q qs =>
    rw [closeLines, laterLines, firstLine]
    cases hlines : closeLines (q :: qs) with
    | nil => simp
    | cons l ls => simp [List.intercalate_cons_cons]

/-- In one pass the same comes out, except that the first line is moved only if it starts here. -/
theorem indentFrom_eq_lines {cs p : List Char} {ps : List (List Char)} (start : Bool)
    (h : splitFeeds cs = p :: ps) :
    indentFrom start cs =
      (if start then indentLine (firstLine p ps) else firstLine p ps) ++ laterLines ps := by
  induction cs generalizing start p ps with
  | nil =>
    rw [splitFeeds_nil, List.cons.injEq] at h
    rw [← h.1, ← h.2]
    cases start <;> rfl
  | cons c cs ih =>
    obtain ⟨q, qs, hq⟩ := exists_splitFeeds cs
    by_cases hfeed : c = '\n'
    · -- A feed ends the first line, which is empty; the lines of the rest come later.
      rw [hfeed, splitFeeds_feed, hq, List.cons.injEq] at h
      obtain ⟨rfl, rfl⟩ := h
      have hfirst : firstLine [] (q :: qs) = [] := rfl
      have hlater : laterLines (q :: qs) = if cs.isEmpty then [] else '\n' :: indentChars cs := by
        have hiff : lines cs = [] ↔ cs = [] := lines_eq_nil_iff
        rw [laterLines, ← hq]
        show (if (lines cs).isEmpty then [] else '\n' :: indentChars cs) = _
        simp only [List.isEmpty_iff, hiff]
      rw [hfirst, hlater, indentFrom, if_pos hfeed, ih true hq, indentChars_eq_lines hq]
      cases start <;> rfl
    · rw [splitFeeds_char hfeed hq, List.cons.injEq] at h
      obtain ⟨rfl, rfl⟩ := h
      have hhead := head?_eq_feed_iff hq
      by_cases hreturn : c = '\r' ∧ cs.head? = some '\n'
      · obtain ⟨rfl, hnext⟩ := hreturn
        -- The line holds nothing but the return, so it is empty without it.
        obtain ⟨rfl, hqs⟩ := hhead.mp hnext
        obtain ⟨r, rs, rfl⟩ := List.exists_cons_of_ne_nil hqs
        rw [indentFrom, if_neg hfeed, if_pos ⟨rfl, hnext⟩, ih start hq]
        rfl
      · rw [indentFrom_char start hfeed hreturn, ih false hq,
          firstLine_cons fun hc => hreturn ⟨hc.1, hhead.mpr hc.2⟩]
        cases start <;> simp [margin, indentLine]

/-- Indentation is one pass that begins at the start of a line. -/
theorem indentChars_eq (cs : List Char) : indentChars cs = indentFrom true cs := by
  obtain ⟨p, ps, h⟩ := exists_splitFeeds cs
  rw [indentChars_eq_lines h, indentFrom_eq_lines true h, if_pos rfl]

/-! ### Pieces of a text -/

section Pieces

variable {c : Char} {cs : List Char}

/-- A character that neither ends a line nor may be dropped before its end. -/
def IsSolid (c : Char) : Prop := c ≠ '\n' ∧ c ≠ '\r'

theorem isSolid_quote : IsSolid '\'' := by
  constructor <;> decide

/-- A solid character is kept, whatever stands behind it. -/
theorem indentFrom_solid (start : Bool) (h : IsSolid c) (cs : List Char) :
    indentFrom start (c :: cs) = margin start ++ c :: indentFrom false cs :=
  indentFrom_char start h.1 fun hc => h.2 hc.1

/-- Indentation comes to a character of a text in one of its two states, whatever stands behind
    that character. -/
theorem exists_indentFrom_append (start : Bool) (cs : List Char) (c : Char) :
    ∃ done start', ∀ rest, indentFrom start (cs ++ c :: rest)
      = done ++ indentFrom start' (c :: rest) := by
  induction cs generalizing start with
  | nil => exact ⟨[], start, fun _ => rfl⟩
  | cons d cs ih =>
    -- The next character decides whether a return is dropped; it is `c` or comes before it.
    have hhead : ∀ rest, (cs ++ c :: rest).head? = (cs ++ [c]).head? := by
      intro rest
      cases cs <;> rfl
    by_cases hfeed : d = '\n'
    · obtain ⟨done, start', hdone⟩ := ih true
      refine ⟨'\n' :: done, start', fun rest => ?_⟩
      rw [List.cons_append, hfeed, indentFrom_feed start (by simp), hdone, List.cons_append]
    · by_cases hreturn : d = '\r' ∧ (cs ++ [c]).head? = some '\n'
      · obtain ⟨done, start', hdone⟩ := ih start
        refine ⟨done, start', fun rest => ?_⟩
        rw [List.cons_append, indentFrom, if_neg hfeed, hhead, if_pos hreturn, hdone]
      · obtain ⟨done, start', hdone⟩ := ih false
        refine ⟨margin start ++ d :: done, start', fun rest => ?_⟩
        rw [List.cons_append, indentFrom_char start hfeed (hhead rest ▸ hreturn), hdone,
          List.append_assoc, List.cons_append]

/-- After a solid character, indentation goes on within the line. -/
theorem indentFrom_append (start : Bool) (h : IsSolid c) (cs rest : List Char) :
    indentFrom start (cs ++ c :: rest)
      = indentFrom start (cs ++ [c]) ++ indentFrom false rest := by
  obtain ⟨done, start', hdone⟩ := exists_indentFrom_append start cs c
  rw [hdone, hdone, indentFrom_solid start' h, indentFrom_solid start' h]
  simp

/-- After a feed, indentation goes on at the start of a line. -/
theorem indentFrom_append_feed (start : Bool) (cs : List Char) {rest : List Char}
    (h : rest ≠ []) :
    indentFrom start (cs ++ '\n' :: rest)
      = indentFrom start (cs ++ ['\n']) ++ '\n' :: indentFrom true rest := by
  obtain ⟨done, start', hdone⟩ := exists_indentFrom_append start cs '\n'
  have hend : indentFrom start' ['\n'] = [] := rfl
  rw [hdone, hdone, indentFrom_feed start' h, hend, List.append_nil]

/-- Solid characters are never dropped. -/
theorem mem_indentFrom (start : Bool) (h : IsSolid c) (hmem : c ∈ cs) :
    c ∈ indentFrom start cs := by
  obtain ⟨before, after, rfl⟩ := List.append_of_mem hmem
  obtain ⟨done, start', hdone⟩ := exists_indentFrom_append start before c
  rw [hdone, indentFrom_solid start' h]
  simp

/-- What becomes of a piece inside a line when the text around it is indented: the lines after
    its first one are moved. -/
def indentInside (cs : List Char) : List Char := indentFrom false cs

/-- Within a line nothing is moved. -/
theorem indentInside_of_no_feed (h : '\n' ∉ cs) : indentInside cs = cs := by
  induction cs with
  | nil => rfl
  | cons c cs ih =>
    rw [List.mem_cons, not_or] at h
    have hreturn : ¬ (c = '\r' ∧ cs.head? = some '\n') :=
      fun hc => h.2 (List.mem_of_mem_head? hc.2)
    rw [indentInside, indentFrom_char false (Ne.symm h.1) hreturn]
    exact congrArg (c :: ·) (ih h.2)

/-- A piece that starts and ends with the same character. -/
def Enclosed (c : Char) (cs : List Char) : Prop := ∃ body, cs = c :: (body ++ [c])

/-- What is enclosed in a solid character still is when it is indented. -/
theorem Enclosed.indentInside (hc : IsSolid c) (h : Enclosed c cs) :
    Enclosed c (indentInside cs) := by
  obtain ⟨body, rfl⟩ := h
  -- A margin in front of the closing character becomes part of the body.
  obtain ⟨done, start, hdone⟩ := exists_indentFrom_append false body c
  refine ⟨done ++ margin start, ?_⟩
  rw [Text.indentInside, indentFrom_solid false hc, hdone, indentFrom_solid start hc]
  simp [margin]

/-- A piece that is enclosed in solid characters is still in the text when this is indented,
    with its own lines moved. -/
theorem infix_indentChars (hc : IsSolid c) (h : Enclosed c cs) {text : List Char}
    (hpiece : cs <:+: text) : Text.indentInside cs <:+: indentChars text := by
  obtain ⟨body, rfl⟩ := h
  obtain ⟨before, after, rfl⟩ := hpiece
  -- Indentation comes to the piece in some state, and goes on behind it as within a line.
  obtain ⟨done, start, hdone⟩ := exists_indentFrom_append true before c
  refine ⟨done ++ margin start, indentFrom false after, ?_⟩
  have htext : before ++ c :: (body ++ [c]) ++ after = before ++ c :: (body ++ c :: after) := by
    simp
  rw [indentChars_eq, htext, hdone, indentFrom_solid start hc, indentFrom_append false hc,
    Text.indentInside, indentFrom_solid false hc]
  simp [margin]

end Pieces

end QueryGraph.Text
