import QueryGraph.Proofs.Text.Erasure

namespace QueryGraph.Text

/-!
# Texts that differ inside of their comments only

* `eraseComments`: a text with its comments deleted, but not the line feeds that end them.
* `Leads`: from where to where a text leads a lexer, as a triple of a precondition, a text and a
  postcondition.
* `Lockstep`: two texts that a lexer reads in step, except that it may read a character of a
  comment in one of them only.
* `Lockstep.indentFrom`: indentation keeps texts in step.
* `SameButComments`: two texts in step that leave the lexer in the same way.
-/

/-! ### Deleting comments -/

/-- What is kept when one more character is read: nothing within a comment but the line feed at
    its end.  A hyphen is kept back until it is clear that it begins no comment. -/
def Mode.kept : Mode → Char → List Char
  | .literal, c => [c]
  | .comment, c => if c = '\n' then [c] else []
  | .hyphen, c => if c = '-' then [] else ['-', c]
  | .code, c | .ended, c => if c = '-' then [] else [c]

/-- What is kept at the end of a text. -/
def Mode.keptLast : Mode → List Char
  | .hyphen => ['-']
  | _ => []

/-- What is kept of a text, for a lexer that stands somewhere before it. -/
def eraseCommentsFrom : Mode → List Char → List Char
  | m, [] => m.keptLast
  | m, c :: cs => m.kept c ++ eraseCommentsFrom (m.next c) cs

/-- A text without its comments.  They reach from two hyphens outside of literals to the end of
    the line. -/
def eraseComments (s : String) : String := String.ofList (eraseCommentsFrom .code s.toList)

/-- The hyphens within a literal and a single one are kept. -/
example : eraseComments "a - '--' -- b\nc--" = "a - '--' \nc" := by decide

/-! ### Where a text leads the lexer -/

/-- Behind the text the lexer is where the second predicate says if it was where the first one
    says. -/
def Leads (P Q : Mode → Prop) (s : String) : Prop := ∀ m, P m → Q (m.after s.toList)

/-- Outside of literals and comments. -/
def Mode.Outside (m : Mode) : Prop := m.isOutside = true

instance (m : Mode) : Decidable m.Outside := inferInstanceAs (Decidable (_ = _))

theorem Mode.outside_iff {m : Mode} : m.Outside ↔ m = .code ∨ m = .hyphen ∨ m = .ended := by
  cases m <;> decide

namespace Leads

variable {P P' Q Q' R : Mode → Prop} {s t : String}

/-- A text leads on from where the text in front of it leads. -/
theorem append (hs : Leads P Q s) (ht : Leads Q R t) : Leads P R (s ++ t) := by
  intro m hm
  rw [String.toList_append, Mode.after_append]
  exact ht _ (hs m hm)

theorem mono (h : Leads P Q s) (hpre : ∀ m, P' m → P m) (hpost : ∀ m, Q m → Q' m) :
    Leads P' Q' s :=
  fun m hm => hpost _ (h m (hpre m hm))

/-- A text that settles the lexer leads it outside. -/
theorem outside (h : Leads P Mode.IsSettled s) : Leads P Mode.Outside s :=
  h.mono (fun _ hm => hm) fun _ hm => hm.isOutside

/-- A text that copes with a hyphen in front of it copes with none. -/
theorem of_outside (h : Leads Mode.Outside Q s) : Leads Mode.IsSettled Q s :=
  h.mono (fun _ hm => hm.isOutside) fun _ hm => hm

/-- Fixed texts are tried out from each of the modes in question. -/
theorem of_all (h : ∀ m ∈ [Mode.code, .hyphen, .ended], (m.after s.toList).IsSettled) :
    Leads Mode.Outside Mode.IsSettled s := by
  intro m hm
  refine h m ?_
  rw [Mode.outside_iff] at hm
  simpa using hm

/-- A fixed text behind which the lexer is settled. -/
theorem fixed (h : ∀ m ∈ [Mode.code, .hyphen, .ended], (m.after s.toList).IsSettled) :
    Leads Mode.IsSettled Mode.IsSettled s :=
  (of_all h).of_outside

/-- From the two settled modes the lexer goes on in the same way, so that one of them is enough. -/
theorem of_code (h : (Mode.code.after s.toList).Outside) : Leads Mode.IsSettled Mode.Outside s := by
  intro m hm
  cases hs : s.toList with
  | nil => exact hm.isOutside
  | cons c cs =>
    rw [hs] at h
    rw [Mode.after_cons, hm.next_eq]
    exact h

theorem of_neutral (h : Neutral s.toList) : Leads Mode.IsSettled Mode.IsSettled s :=
  fun _ hm => h.isSettled_after hm

/-- Raw characters lead out of a hyphen, but an empty text leaves the lexer behind it. -/
theorem of_raw (h : isRaw s = true) : Leads Mode.Outside Mode.Outside s := by
  unfold isRaw at h
  unfold Leads
  generalize s.toList = cs at h
  intro m hm
  -- Behind the first raw character the lexer stands in code.
  induction cs generalizing m with
  | nil => exact hm
  | cons c cs ih =>
    rw [List.all_cons, Bool.and_eq_true] at h
    rw [Mode.after_cons, Mode.next_raw hm h.1]
    exact ih h.2 .code rfl

theorem empty : Leads P P "" := fun _ hm => hm

/-- Items that end outside of literals and comments may be listed, if the separator settles the
    lexer. -/
theorem intercalate {separator : String} (hseparator : Leads Mode.Outside Mode.IsSettled separator)
    {items : List String} (h : ∀ item ∈ items, Leads Mode.IsSettled Mode.Outside item) :
    Leads Mode.IsSettled Mode.Outside (separator.intercalate items) := by
  induction items with
  | nil => exact empty.outside
  | cons item rest ih =>
    rw [List.forall_mem_cons] at h
    -- The last item has no separator behind it.
    cases rest with
    | nil => simpa using h.1
    | cons next rest =>
      rw [String.intercalate_cons_cons]
      exact (h.1.append hseparator).append (ih h.2)

end Leads

/-- The lexer takes no notice of the spaces in front of a line, nor of a return in front of a
    feed. -/
theorem Mode.overlooksMargins : OverlooksMargins Mode.next := by
  constructor <;> intro m <;> cases m <;> rfl

/-- A text that is set off leaves the lexer settled: the line feed behind it makes up for a
    hyphen at its end. -/
theorem Leads.setOff {s : String} (h : Leads Mode.IsSettled Mode.Outside s) :
    Leads Mode.Outside Mode.IsSettled ("\n" ++ indent s ++ "\n") := by
  intro m hm
  have hfeed : ∀ m : Mode, m.Outside → m.next '\n' = .code := by
    intro m hm
    exact Mode.next_raw hm rfl
  -- Up to the feed behind the text, indentation makes no difference to the lexer.
  have hmoved : Mode.code.after (indentChars s.toList ++ ['\n'])
      = Mode.code.after (s.toList ++ ['\n']) := by
    rw [indentChars_eq]
    exact foldl_indentFrom Mode.overlooksMargins true s.toList _ fun _ => rfl
  rw [toList_setOff, Text.setOff, Mode.after_cons, hfeed m hm, hmoved, Mode.after_append,
    Mode.after_cons, hfeed _ (h .code Mode.isSettled_code)]
  exact Mode.isSettled_code

/-! ### Texts in step -/

/-- The lexer reads the same in both texts, or what it reads in one of them only is part of a
    comment, and does not end it. -/
inductive Lockstep : Mode → List Char → List Char → Prop
  | nil (m : Mode) : Lockstep m [] []
  | both {m : Mode} (c : Char) {cs cs' : List Char} (h : Lockstep (m.next c) cs cs') :
      Lockstep m (c :: cs) (c :: cs')
  | left {c : Char} (hc : c ≠ '\n') {cs cs' : List Char} (h : Lockstep .comment cs cs') :
      Lockstep .comment (c :: cs) cs'
  | right {c : Char} (hc : c ≠ '\n') {cs cs' : List Char} (h : Lockstep .comment cs cs') :
      Lockstep .comment cs (c :: cs')

namespace Lockstep

variable {m : Mode} {cs cs' ds ds' : List Char} {start : Bool}

/-- A text is in step with itself. -/
theorem refl (m : Mode) (cs : List Char) : Lockstep m cs cs := by
  induction cs generalizing m with
  | nil => exact .nil m
  | cons c cs ih => exact .both c (ih _)

theorem next_comment {c : Char} (hc : c ≠ '\n') : Mode.comment.next c = .comment := if_neg hc

/-- Texts in step leave the lexer in the same mode. -/
theorem after_eq (h : Lockstep m cs cs') : m.after cs = m.after cs' := by
  induction h with
  | nil m => rfl
  | both c h ih => exact ih
  | left hc h ih => rwa [Mode.after_cons, next_comment hc]
  | right hc h ih => rwa [Mode.after_cons, next_comment hc]

/-- Texts in step may be continued with texts in step. -/
theorem append (h : Lockstep m cs cs') (h' : Lockstep (m.after cs) ds ds') :
    Lockstep m (cs ++ ds) (cs' ++ ds') := by
  induction h with
  | nil m => exact h'
  | both c h ih => exact .both c (ih h')
  | left hc h ih =>
    rw [Mode.after_cons, next_comment hc] at h'
    exact .left hc (ih h')
  | right hc h ih => exact .right hc (ih h')

/-- Texts in step are the same without their comments. -/
theorem eraseCommentsFrom_eq (h : Lockstep m cs cs') :
    eraseCommentsFrom m cs = eraseCommentsFrom m cs' := by
  -- A character of a comment is not kept, so it may stand in one text only.
  have hskip : ∀ {c : Char} {cs : List Char}, c ≠ '\n' →
      eraseCommentsFrom .comment (c :: cs) = eraseCommentsFrom .comment cs := by
    intro c cs hc
    simp [eraseCommentsFrom, Mode.kept, next_comment hc, hc]
  induction h with
  | nil m => rfl
  | both c h ih => exact congrArg (_ ++ ·) ih
  | left hc h ih => rw [hskip hc, ih]
  | right hc h ih => rw [hskip hc, ih]

/-- Within a comment, any two lines are in step. -/
theorem of_lines (hcs : '\n' ∉ cs) (hcs' : '\n' ∉ cs') (h : Lockstep .comment ds ds') :
    Lockstep .comment (cs ++ ds) (cs' ++ ds') := by
  -- The characters of the left line first, then those of the right one.
  induction cs with
  | nil =>
    induction cs' with
    | nil => exact h
    | cons c cs' ih =>
      rw [List.mem_cons, not_or] at hcs'
      exact .right (Ne.symm hcs'.1) (ih hcs'.2)
  | cons c cs ih =>
    rw [List.mem_cons, not_or] at hcs
    exact .left (Ne.symm hcs.1) (ih hcs.2)

/-- Outside of comments the next character is the same. -/
theorem head?_eq (h : Lockstep m cs cs') (hm : m ≠ .comment) : cs.head? = cs'.head? := by
  cases h with
  | nil => rfl
  | both c h => rfl
  | left hc h => exact absurd rfl hm
  | right hc h => exact absurd rfl hm

/-! ### Indentation -/

/-- Within a comment, indentation keeps a character, or drops it as a return. -/
theorem indentFrom_within {c : Char} (hc : c ≠ '\n') (cs : List Char) :
    indentFrom false (c :: cs) = c :: indentFrom false cs ∨
      indentFrom false (c :: cs) = indentFrom false cs := by
  by_cases hreturn : c = '\r' ∧ cs.head? = some '\n'
  · right
    rw [indentFrom, if_neg hc, if_pos hreturn]
  · left
    rw [indentFrom_char false hc hreturn]
    rfl

/-- Within a comment of the left text, one more character stays part of the comment when it is
    indented. -/
theorem left_indented {c : Char} (hc : c ≠ '\n')
    (h : Lockstep .comment (indentFrom false cs) ds) :
    Lockstep .comment (indentFrom false (c :: cs)) ds := by
  rcases indentFrom_within hc cs with heq | heq
  · exact heq ▸ .left hc h
  · exact heq ▸ h

/-- Within a comment of the right text, one more character stays part of it when it is indented. -/
theorem right_indented {c : Char} (hc : c ≠ '\n')
    (h : Lockstep .comment ds (indentFrom false cs)) :
    Lockstep .comment ds (indentFrom false (c :: cs)) := by
  rcases indentFrom_within hc cs with heq | heq
  · exact heq ▸ .right hc h
  · exact heq ▸ h

/-- No line starts within a comment. -/
theorem start_eq_false (hstart : start = true → Mode.comment = .code ∨ Mode.comment = .literal) :
    start = false := by
  cases start with
  | false => rfl
  | true => rcases hstart rfl with h | h <;> cases h

/-- An indented text that began with a line feed still does, unless nothing is left. -/
theorem head?_indentFrom_feed (start : Bool) (cs : List Char) :
    ∀ c ∈ (indentFrom start ('\n' :: cs)).head?, c = '\n' := by
  intro c hc
  cases cs with
  | nil => simp [indentFrom] at hc
  | cons d cs => simpa [indentFrom_feed start (List.cons_ne_nil d cs), eq_comm] using hc

/-- A line starts in code or in a literal, where spaces are read without any effect. -/
theorem margin_append (hstart : start = true → m = .code ∨ m = .literal) (h : Lockstep m cs cs') :
    Lockstep m (margin start ++ cs) (margin start ++ cs') := by
  refine (refl m _).append ?_
  cases start with
  | false => exact h
  | true => rcases hstart rfl with rfl | rfl <;> exact h

/-- A return does not begin a comment. -/
theorem next_return_ne (hm : m ≠ .comment) : m.next '\r' ≠ .comment := by
  cases m with
  | comment => exact absurd rfl hm
  | code | hyphen | literal | ended => decide

/-- A line feed makes up for a return that was dropped in front of it. -/
theorem of_return (hm : m ≠ .comment) (hhead : ∀ c ∈ cs.head?, c = '\n')
    (h : Lockstep (m.next '\r') cs cs') : Lockstep m cs cs' := by
  have hfeed : (m.next '\r').next '\n' = m.next '\n' := Mode.overlooksMargins.return_feed m
  have hreturn := next_return_ne hm
  -- The mode behind the return matters only through the feed that follows it.
  generalize m.next '\r' = m' at h hfeed hreturn
  cases h with
  | nil => exact .nil m
  | both c h =>
    obtain rfl := hhead c rfl
    exact .both '\n' (hfeed ▸ h)
  | left hc h => exact absurd rfl hreturn
  | right hc h => exact absurd rfl hreturn

/-- What is dropped at the end of a line is dropped in both texts, for outside of comments the
    character behind it is the same. -/
theorem indentFrom (h : Lockstep m cs cs') (hstart : start = true → m = .code ∨ m = .literal) :
    Lockstep m (indentFrom start cs) (indentFrom start cs') := by
  induction h generalizing start with
  | nil m => exact .nil m
  | @both m c cs cs' h ih =>
    -- Outside of comments both texts agree on the next character; within one they need not.
    by_cases hfeed : c = '\n'
    · subst hfeed
      have hnext : m.next '\n' = .code ∨ m.next '\n' = .literal := by
        cases m <;> simp [Mode.next]
      have hne : m.next '\n' ≠ .comment := by
        rcases hnext with hnext | hnext <;> rw [hnext] <;> decide
      have hhead := h.head?_eq hne
      by_cases hnil : cs = []
      · subst hnil
        obtain rfl : cs' = [] := by simpa using hhead.symm
        exact .nil m
      · have hnil' : cs' ≠ [] := by
          rintro rfl
          exact hnil (by simpa using hhead)
        rw [indentFrom_feed start hnil, indentFrom_feed start hnil']
        exact .both '\n' (ih fun _ => hnext)
    · by_cases hm : m = .comment
      · subst hm
        obtain rfl := start_eq_false hstart
        rw [next_comment hfeed] at ih
        have hrest : Lockstep .comment (Text.indentFrom false cs) (Text.indentFrom false cs') :=
          ih fun hfalse => absurd hfalse (by decide)
        exact left_indented hfeed (right_indented hfeed hrest)
      · have hhead : c = '\r' → cs.head? = cs'.head? := by
          rintro rfl
          exact h.head?_eq (next_return_ne hm)
        -- A return is dropped in front of a feed, and the feed is there in both texts or in
        -- neither.
        by_cases hreturn : c = '\r' ∧ cs.head? = some '\n'
        · obtain ⟨rfl, hcs⟩ := hreturn
          have hcs' := (hhead rfl).symm.trans hcs
          obtain ⟨rest, rfl⟩ := List.head?_eq_some_iff.mp hcs
          obtain ⟨rest', rfl⟩ := List.head?_eq_some_iff.mp hcs'
          rw [indentFrom_return_feed, indentFrom_return_feed]
          refine of_return hm (head?_indentFrom_feed start rest) (ih fun htrue => ?_)
          rcases hstart htrue with rfl | rfl
          · exact Or.inl rfl
          · exact Or.inr rfl
        · have hreturn' : ¬ (c = '\r' ∧ cs'.head? = some '\n') := fun h' =>
            hreturn ⟨h'.1, (hhead h'.1).trans h'.2⟩
          rw [indentFrom_char start hfeed hreturn, indentFrom_char start hfeed hreturn']
          exact margin_append hstart (.both c (ih fun hfalse => absurd hfalse (by decide)))
  | left hc h ih =>
    obtain rfl := start_eq_false hstart
    exact left_indented hc (ih hstart)
  | right hc h ih =>
    obtain rfl := start_eq_false hstart
    exact right_indented hc (ih hstart)

/-- Texts in step stay so when they are set off. -/
theorem setOff (hm : m.Outside) (h : Lockstep .code cs cs') :
    Lockstep m (Text.setOff cs) (Text.setOff cs') := by
  have hfeed : m.next '\n' = .code := Mode.next_raw hm rfl
  refine .both '\n' ?_
  rw [hfeed, indentChars_eq, indentChars_eq]
  exact (h.indentFrom fun _ => Or.inl rfl).append (refl _ _)

end Lockstep

/-- Two texts that are in step wherever they stand outside of comments and literals, and that
    lead to certain modes. -/
structure SameButComments (Q : Mode → Prop) (s s' : String) : Prop where
  leads : Leads Mode.IsSettled Q s
  lockstep : ∀ m : Mode, m.IsSettled → Lockstep m s.toList s'.toList

namespace SameButComments

variable {Q : Mode → Prop} {s s' t t' : String}

theorem refl (h : Leads Mode.IsSettled Q s) : SameButComments Q s s :=
  ⟨h, fun m _ => .refl m s.toList⟩

/-- Texts that are the same but for their comments may be continued with such texts. -/
theorem append (h : SameButComments Mode.IsSettled s s') (h' : SameButComments Q t t') :
    SameButComments Q (s ++ t) (s' ++ t') := by
  refine ⟨h.leads.append h'.leads, fun m hm => ?_⟩
  rw [String.toList_append, String.toList_append]
  exact (h.lockstep m hm).append (h'.lockstep _ (h.leads m hm))

/-- What is put behind two texts may have to cope with a hyphen at their end. -/
theorem append_right (h : SameButComments Mode.Outside s s') (ht : Leads Mode.Outside Q t) :
    SameButComments Q (s ++ t) (s' ++ t) := by
  refine ⟨h.leads.append ht, fun m hm => ?_⟩
  rw [String.toList_append, String.toList_append]
  exact (h.lockstep m hm).append (.refl _ _)

/-- Setting texts off keeps them the same but for their comments. -/
theorem setOff (h : SameButComments Mode.Outside s s') :
    SameButComments Mode.IsSettled ("\n" ++ indent s ++ "\n") ("\n" ++ indent s' ++ "\n") := by
  refine ⟨h.leads.setOff.of_outside, fun m hm => ?_⟩
  rw [toList_setOff, toList_setOff]
  exact .setOff hm.isOutside (h.lockstep .code Mode.isSettled_code)

/-- Two lines of comment. -/
theorem comment (hs : '\n' ∉ s.toList) (hs' : '\n' ∉ s'.toList) :
    SameButComments Mode.IsSettled ("--" ++ s ++ "\n") ("--" ++ s' ++ "\n") := by
  have hchars : ∀ s : String, ("--" ++ s ++ "\n").toList = '-' :: '-' :: (s.toList ++ ['\n']) := by
    simp
  refine ⟨.of_neutral (hchars s ▸ neutral_comment hs), fun m hm => ?_⟩
  -- The two hyphens begin a comment in both texts, in step.
  have hhyphens : (m.next '-').next '-' = .comment := by
    rcases hm with rfl | rfl <;> rfl
  rw [hchars, hchars]
  refine .both '-' (.both '-' ?_)
  rw [hhyphens]
  exact .of_lines hs hs' (.refl _ _)

/-- Texts that are the same but for their comments are equal once those are deleted. -/
theorem eraseComments_eq (h : SameButComments Q s s') : eraseComments s = eraseComments s' :=
  congrArg String.ofList (h.lockstep .code Mode.isSettled_code).eraseCommentsFrom_eq

end SameButComments

end QueryGraph.Text
