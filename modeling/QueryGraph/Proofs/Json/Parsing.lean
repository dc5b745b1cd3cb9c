import QueryGraph.Json.Tree
import QueryGraph.Proofs.Json.Lexing

namespace QueryGraph.Json

/-!
# Texts and trees

* `depth v`, `Tree.depth t`: how deep containers nest; in a tree those that were read to their
  end.
* `Parser.run_lexemes`: the lexemes of a value are read as its tree.
* `parse_pretty`: the text of a value that does not nest too deep is read as its tree.
* `depth_parse_le`: no text is read as a tree that nests deeper.
-/

/-! ### Depth -/

mutual

/-- How many containers stand around each other in a value. -/
def depth : Json → Nat
  | .array items => itemsDepth items + 1
  | .object members => membersDepth members + 1
  | .null | .bool _ | .number _ | .string _ => 0

/-- The largest depth among the items of an array. -/
def itemsDepth : List Json → Nat
  | [] => 0
  | v :: rest => max (depth v) (itemsDepth rest)

/-- The largest depth among the members of an object. -/
def membersDepth : List (String × Json) → Nat
  | [] => 0
  | (_, v) :: rest => max (depth v) (membersDepth rest)

end

/-- The items of an array nest within a bound if each of them does. -/
theorem itemsDepth_le_iff {items : List Json} {k : Nat} :
    itemsDepth items ≤ k ↔ ∀ v ∈ items, v.depth ≤ k := by
  induction items with
  | nil => simp [itemsDepth]
  | cons v items ih => rw [itemsDepth, Nat.max_le, ih, List.forall_mem_cons]

/-- The members of an object nest within a bound if each value does. -/
theorem membersDepth_le_iff {members : List (String × Json)} {k : Nat} :
    membersDepth members ≤ k ↔ ∀ m ∈ members, m.2.depth ≤ k := by
  induction members with
  | nil => simp [membersDepth]
  | cons m members ih => rw [membersDepth, Nat.max_le, ih, List.forall_mem_cons]

namespace Tree

mutual

/-- How many closed containers stand around each other in a tree. -/
def depth : Tree → Nat
  | .array items .closed => itemsDepth items + 1
  | .object members .closed => membersDepth members + 1
  | _ => 0

/-- The largest depth among the items of an array. -/
def itemsDepth : List Tree → Nat
  | [] => 0
  | t :: rest => max (depth t) (itemsDepth rest)

/-- The largest depth among the members of an object. -/
def membersDepth : List (Key × Tree) → Nat
  | [] => 0
  | (_, t) :: rest => max (depth t) (membersDepth rest)

end

/-- The items of a tree nest within a bound if each of them does. -/
theorem itemsDepth_le_iff {items : List Tree} {k : Nat} :
    itemsDepth items ≤ k ↔ ∀ t ∈ items, t.depth ≤ k := by
  induction items with
  | nil => simp [itemsDepth]
  | cons t items ih => rw [itemsDepth, Nat.max_le, ih, List.forall_mem_cons]

/-- The members of a tree nest within a bound if each value does. -/
theorem membersDepth_le_iff {members : List (Key × Tree)} {k : Nat} :
    membersDepth members ≤ k ↔ ∀ m ∈ members, m.2.depth ≤ k := by
  induction members with
  | nil => simp [membersDepth]
  | cons m members ih => rw [membersDepth, Nat.max_le, ih, List.forall_mem_cons]

end Tree

/-! ### The lexemes of a value -/

namespace Parser

/-- A lexeme that is accepted hands the rest of the text to the next state. -/
theorem run_step {stack : List Frame} {expected : Expected} {t : Token} {q : Parser}
    (h : step ⟨stack, expected, none⟩ t = some q) (ts : List Token) :
    run ⟨stack, expected, none⟩ (t :: ts) = q.run ts := by
  simp only [run, h]

/-- A value may stand first in an array as well as later. -/
theorem run_valueOrClose (stack : List Frame) (v : Json) (ts : List Token) :
    run ⟨stack, .valueOrClose, none⟩ (lexemes v ++ ts)
      = run ⟨stack, .value, none⟩ (lexemes v ++ ts) := by
  -- Only the two closing marks close a container.
  have hclose : ∀ t, t ≠ .closeBracket → t ≠ .closeBrace → stepClose stack t = none := by
    intro t hbracket hbrace
    unfold stepClose
    split <;> simp_all
  -- No value begins with one of them.
  have hfirst : ∀ (t : Token) (rest : List Token), t ≠ .closeBracket → t ≠ .closeBrace →
      run ⟨stack, .valueOrClose, none⟩ (t :: rest) = run ⟨stack, .value, none⟩ (t :: rest) := by
    intro t rest hbracket hbrace
    simp only [run, step, hclose t hbracket hbrace, Option.none_or]
  cases v with
  | null | bool | number | string => exact hfirst _ _ (by simp) (by simp)
  | array | object => exact hfirst _ _ (by simp) (by simp)

mutual

/-- **The lexemes of a value are read as its tree.** -/
theorem run_lexemes (v : Json) {stack : List Frame} (ts : List Token)
    (h : stack.length + v.depth ≤ maxDepth) :
    run ⟨stack, .value, none⟩ (lexemes v ++ ts) = (put (Tree.ofJson v) stack).run ts := by
  cases v with
  | null | bool | number | string => exact run_step rfl ts
  | array items =>
    rw [Json.depth] at h
    have hclosed : stack.length < maxDepth := by omega
    have hinner : stack.length + 1 + itemsDepth items ≤ maxDepth := by omega
    rw [lexemes, List.cons_append, run_step rfl, List.append_assoc, List.singleton_append]
    cases items with
    | nil =>
      rw [itemLexemes, List.nil_append, run_step rfl, Frame.close, if_pos hclosed]
      rfl
    | cons v items =>
      -- Behind the bracket the array might close at once, but a value does not begin like that.
      have hitems := run_items (v :: items) (List.cons_ne_nil _ _) [] ts hinner
      rw [itemLexemes, List.append_assoc] at hitems ⊢
      rw [run_valueOrClose, hitems]
      rfl
  | object members =>
    rw [Json.depth] at h
    have hclosed : stack.length < maxDepth := by omega
    have hinner : stack.length + 1 + membersDepth members ≤ maxDepth := by omega
    rw [lexemes, List.cons_append, run_step rfl, List.append_assoc, List.singleton_append]
    cases members with
    | nil =>
      rw [memberLexemes, List.nil_append, run_step rfl, Frame.close, if_pos hclosed]
      rfl
    | cons m members =>
      -- The same for an object, whose first lexeme behind the brace is a key.
      have hmembers := run_members (m :: members) (List.cons_ne_nil _ _) [] none ts hinner
      rw [memberLexemes, List.cons_append, List.cons_append, run_step rfl] at hmembers ⊢
      exact hmembers

/-- The items of an array that has others already. -/
theorem run_items (items : List Json) (hne : items ≠ []) {stack : List Frame} (acc : List Tree)
    (ts : List Token) (h : stack.length + 1 + itemsDepth items ≤ maxDepth) :
    run ⟨.array acc :: stack, .value, none⟩ (itemLexemes items ++ .closeBracket :: ts)
      = (put (.array (acc.reverse ++ Tree.ofItems items) .closed) stack).run ts := by
  cases items with
  | nil => exact absurd rfl hne
  | cons v items =>
    rw [itemsDepth] at h
    have hvalue : (Frame.array acc :: stack).length + v.depth ≤ maxDepth := by
      rw [List.length_cons]
      omega
    have hrest : stack.length + 1 + itemsDepth items ≤ maxDepth := by omega
    -- The first item is put into the open array, and a comma or the bracket follows.
    rw [itemLexemes, List.append_assoc, run_lexemes v _ hvalue, put]
    cases items with
    | nil =>
      have hclosed : stack.length < maxDepth := by omega
      simp only [List.isEmpty_nil, if_true, List.nil_append]
      rw [run_step rfl, Frame.close, if_pos hclosed, List.reverse_cons]
      rfl
    | cons w items =>
      simp only [List.isEmpty_cons, Bool.false_eq_true, if_false, List.cons_append]
      rw [run_step rfl, run_items (w :: items) (List.cons_ne_nil _ _) _ _ hrest,
        List.reverse_cons, List.append_assoc]
      rfl

/-- The members of an object that has others already. -/
theorem run_members (members : List (String × Json)) (hne : members ≠ []) {stack : List Frame}
    (acc : List (Key × Tree)) (key : Option Key) (ts : List Token)
    (h : stack.length + 1 + membersDepth members ≤ maxDepth) :
    run ⟨.object acc key :: stack, .key, none⟩ (memberLexemes members ++ .closeBrace :: ts)
      = (put (.object (acc.reverse ++ Tree.ofMembers members) .closed) stack).run ts := by
  cases members with
  | nil => exact absurd rfl hne
  | cons m members =>
    obtain ⟨k, v⟩ := m
    rw [membersDepth] at h
    have hvalue : ∀ f : Frame, (f :: stack).length + v.depth ≤ maxDepth := by
      intro f
      rw [List.length_cons]
      omega
    have hrest : stack.length + 1 + membersDepth members ≤ maxDepth := by omega
    -- A key and a colon lead to the value, which is put into the open object.
    rw [memberLexemes, List.cons_append, List.cons_append, run_step rfl, run_step rfl,
      List.append_assoc, run_lexemes v _ (hvalue _), put]
    cases members with
    | nil =>
      have hclosed : stack.length < maxDepth := by omega
      simp only [List.isEmpty_nil, if_true, List.nil_append]
      rw [run_step rfl, Frame.close, if_pos hclosed, List.reverse_cons]
      rfl
    | cons w members =>
      simp only [List.isEmpty_cons, Bool.false_eq_true, if_false, List.cons_append]
      rw [run_step rfl, run_members (w :: members) (List.cons_ne_nil _ _) _ _ _ hrest,
        List.reverse_cons, List.append_assoc]
      rfl

end

end Parser

/-- A text that has the lexemes of a value is read as the tree of the value, if that does not nest
    too deep. -/
theorem parse_of_tokens {cs : List Char} {v : Json} (htokens : tokens cs = lexemes v)
    (h : v.depth ≤ maxDepth) : parse cs = (Tree.ofJson v, true) := by
  have hrun := Parser.run_lexemes v [] (by rw [List.length_nil]; omega)
  rw [List.append_nil] at hrun
  rw [parse, htokens, Parser.start, hrun]
  rfl

/-- **The text of a value is read as its tree**, and nothing is left. -/
theorem parse_pretty (v : Json) (h : v.depth ≤ maxDepth) :
    parse (prettyChars 0 v) = (Tree.ofJson v, true) := by
  have htokens := tokens_prettyChars 0 v stopsNumber_nil
  rw [List.append_nil, tokens_nil, List.append_nil] at htokens
  exact parse_of_tokens htokens h

/-- So is its text on one line. -/
theorem parse_compact (v : Json) (h : v.depth ≤ maxDepth) :
    parse (compactChars v) = (Tree.ofJson v, true) := by
  have htokens := tokens_compactChars v stopsNumber_nil
  rw [List.append_nil, tokens_nil, List.append_nil] at htokens
  exact parse_of_tokens htokens h

/-! ### The depth of what is read -/

/-- What a container holds so far nests at most this deep. -/
def Frame.Within (k : Nat) : Frame → Prop
  | .array items => ∀ t ∈ items, t.depth ≤ k
  | .object members _ => ∀ m ∈ members, m.2.depth ≤ k

/-- What the open containers hold does not nest too deep for the place where it stands. -/
def StackWithin : List Frame → Prop
  | [] => True
  | f :: outer => f.Within (maxDepth - (outer.length + 1)) ∧ StackWithin outer

/-- A container nests no deeper than its place allows, since it is kept only where a further
    level is allowed. -/
theorem Frame.Within.depth_close_le {f : Frame} {outer : List Frame}
    (h : f.Within (maxDepth - (outer.length + 1))) :
    (f.close outer).depth ≤ maxDepth - outer.length := by
  cases f with
  | array items =>
    rw [Frame.close]
    split
    · have hitems : Tree.itemsDepth items.reverse ≤ maxDepth - (outer.length + 1) :=
        Tree.itemsDepth_le_iff.mpr fun t ht => h t (List.mem_reverse.mp ht)
      rw [Tree.depth]
      omega
    · exact Nat.zero_le _
  | object members key =>
    rw [Frame.close]
    split
    · have hmembers : Tree.membersDepth members.reverse ≤ maxDepth - (outer.length + 1) :=
        Tree.membersDepth_le_iff.mpr fun m hm => h m (List.mem_reverse.mp hm)
      rw [Tree.depth]
      omega
    · exact Nat.zero_le _

/-- A container in which the text breaks off does not count for the depth. -/
theorem Frame.depth_break (outer : List Frame) (hole : Option Tree) (f : Frame) :
    (f.break outer hole).depth = 0 := by
  by_cases h : outer.length < maxDepth
  · cases f <;> simp only [Frame.break, h, if_true, Tree.depth]
  · cases f <;> simp only [Frame.break, h, if_false, Tree.depth]

namespace Parser

/-- What was read so far nests no deeper than allowed. -/
structure Within (p : Parser) : Prop where
  stack : StackWithin p.stack
  result : ∀ t ∈ p.result, t.depth ≤ maxDepth

/-- A value that fits its place is put there without nesting too deep. -/
theorem within_put {t : Tree} {stack : List Frame} (hstack : StackWithin stack)
    (ht : t.depth ≤ maxDepth - stack.length) : (put t stack).Within := by
  -- On the outermost level it is the result, otherwise it goes into the innermost container.
  cases stack with
  | nil => exact ⟨trivial, fun u hu => Option.some.inj hu ▸ ht⟩
  | cons f outer =>
    cases f with
    | array items =>
      exact ⟨⟨List.forall_mem_cons.mpr ⟨ht, hstack.1⟩, hstack.2⟩, fun u hu => nomatch hu⟩
    | object members key =>
      cases key with
      | none => exact ⟨hstack, fun u hu => nomatch hu⟩
      | some key =>
        exact ⟨⟨List.forall_mem_cons.mpr ⟨ht, hstack.1⟩, hstack.2⟩, fun u hu => nomatch hu⟩

/-- A container is opened with nothing in it. -/
theorem within_open {stack : List Frame} (hstack : StackWithin stack) {f : Frame}
    (hf : ∀ k, f.Within k) (expected : Expected) : Within ⟨f :: stack, expected, none⟩ :=
  ⟨⟨hf _, hstack⟩, fun _ hu => nomatch hu⟩

/-- A lexeme that begins or is a value keeps what was read within its depth. -/
theorem within_stepValue {stack : List Frame} (hstack : StackWithin stack) (t : Token) :
    ∀ q ∈ stepValue stack t, q.Within := by
  intro q hq
  -- A scalar does not nest at all.
  have hscalar : ∀ v ∈ scalar? t, v.depth = 0 := by
    intro v hv
    cases t <;> simp only [scalar?, Option.mem_def, Option.some.injEq, reduceCtorEq] at hv
    all_goals
      subst hv
      rfl
  unfold stepValue at hq
  split at hq
  · obtain rfl := Option.some.inj hq
    exact within_open hstack (fun _ => by simp [Frame.Within]) _
  · obtain rfl := Option.some.inj hq
    exact within_open hstack (fun _ => by simp [Frame.Within]) _
  · obtain ⟨v, hv, rfl⟩ := Option.mem_map.mp hq
    exact within_put hstack (by rw [hscalar v hv]; exact Nat.zero_le _)

/-- A key adds no value yet. -/
theorem within_stepKey {stack : List Frame} (hstack : StackWithin stack) (t : Token) :
    ∀ q ∈ stepKey stack t, q.Within := by
  intro q hq
  unfold stepKey at hq
  split at hq
  · obtain rfl := Option.some.inj hq
    exact ⟨hstack, fun _ hu => nomatch hu⟩
  · exact nomatch hq

/-- A closing mark puts the container into the one around it, one level further out. -/
theorem within_stepClose {stack : List Frame} (hstack : StackWithin stack) (t : Token) :
    ∀ q ∈ stepClose stack t, q.Within := by
  intro q hq
  unfold stepClose at hq
  split at hq
  · obtain rfl := Option.some.inj hq
    exact within_put hstack.2 hstack.1.depth_close_le
  · obtain rfl := Option.some.inj hq
    exact within_put hstack.2 hstack.1.depth_close_le
  · exact nomatch hq

/-- A comma changes only what is expected next. -/
theorem within_stepComma {stack : List Frame} (hstack : StackWithin stack) (t : Token) :
    ∀ q ∈ stepComma stack t, q.Within := by
  intro q hq
  unfold stepComma at hq
  split at hq
  · obtain rfl := Option.some.inj hq
    exact ⟨hstack, fun _ hu => nomatch hu⟩
  · obtain rfl := Option.some.inj hq
    exact ⟨hstack, fun _ hu => nomatch hu⟩
  · exact nomatch hq

/-- A lexeme keeps what was read within its depth. -/
theorem Within.step {p : Parser} (hp : p.Within) (t : Token) : ∀ q ∈ p.step t, q.Within := by
  -- Two readings of a lexeme are tried one after the other in two of the states.
  have hor : ∀ {a b : Option Parser}, (∀ q ∈ a, q.Within) → (∀ q ∈ b, q.Within) →
      ∀ q ∈ a.or b, q.Within := by
    intro a b ha hb
    cases a with
    | none => exact hb
    | some p => exact ha
  unfold Parser.step
  split
  · exact within_stepValue hp.stack t
  · exact hor (within_stepClose hp.stack t) (within_stepValue hp.stack t)
  · exact within_stepKey hp.stack t
  · exact hor (within_stepClose hp.stack t) (within_stepKey hp.stack t)
  · split
    · intro q hq
      obtain rfl := Option.some.inj hq
      exact ⟨hp.stack, fun _ hu => nomatch hu⟩
    · exact fun q hq => nomatch hq
  · exact hor (within_stepClose hp.stack t) (within_stepComma hp.stack t)
  · exact fun q hq => nomatch hq

/-- Closing everything where the text breaks off leaves a tree that does not count for the depth. -/
theorem depth_unwind {hole : Option Tree} (stack : List Frame)
    (h : ∀ t ∈ hole, t.depth = 0) : (unwind hole stack).depth = 0 := by
  induction stack generalizing hole with
  | nil =>
    cases hole with
    | none => rfl
    | some t => exact h t rfl
  | cons f outer ih =>
    refine ih fun t ht => ?_
    obtain rfl := Option.some.inj ht
    exact f.depth_break outer hole

/-- Whatever the lexemes are, the tree that is read nests no deeper than allowed. -/
theorem Within.depth_run_le {p : Parser} (hp : p.Within) (ts : List Token) :
    (p.run ts).1.depth ≤ maxDepth := by
  -- Where the text breaks off, all open containers are broken, and those do not count.
  have hbroken : ∀ stack, (unwind none stack).depth ≤ maxDepth := by
    intro stack
    rw [depth_unwind stack (by simp)]
    exact Nat.zero_le _
  -- Every lexeme keeps the invariant, so the induction carries it to the end of the text.
  induction ts generalizing p with
  | nil =>
    rw [run]
    split
    next t heq => exact hp.result t heq
    · exact hbroken _
  | cons t ts ih =>
    rw [run]
    split
    next v heq => exact hp.result v heq
    · split
      next q heq => exact ih (hp.step t q heq)
      · exact hbroken _

theorem within_start : start.Within := ⟨trivial, fun _ hu => nomatch hu⟩

end Parser

/-- **No text is read as a tree that nests deeper than allowed.** -/
theorem depth_parse_le (cs : List Char) : (parse cs).1.depth ≤ maxDepth :=
  Parser.within_start.depth_run_le (tokens cs)

end QueryGraph.Json
