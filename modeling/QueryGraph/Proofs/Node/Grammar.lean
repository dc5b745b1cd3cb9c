import QueryGraph.Proofs.Node.Literal
import QueryGraph.Proofs.Node.Shape
import QueryGraph.Proofs.Query.Grammar
import QueryGraph.Proofs.Text.Erasure

namespace QueryGraph

open Text (Lexeme Reads Opens Separates)
open Query (isIdentifier)

/-!
# The fragments of nodes are queries

* `Text.reads_identifier`, `Query.exists_reads_literal`: names and literals as lexemes.
* `Query.IsQueryText`: a text that reads as a query wherever it stands apart.
* `Event.isQueryText` and its like: the fragments of the kinds other than outputs, given that
  their inputs are queries.
* `Node.isQueryText_of_compile`: the same for any node.
* `Output.isStatement`: an output makes a statement of a query.
-/

/-! ### Names -/

namespace Text

/-- What may stand in an identifier may stand in a word. -/
theorem isWordChar_of_isIdentifierChar {c : Char} (h : Query.isIdentifierChar c = true) :
    isWordChar c = true := by
  simp only [Query.isIdentifierChar, Char.isAlphanum, Bool.or_eq_true, decide_eq_true_eq] at h
  rcases h with ((halpha | hdigit) | rfl) | rfl
  · exact isWordChar_of_isAlpha halpha
  · exact isWordChar_of_isDigit hdigit
  · decide
  · decide

/-- An identifier reads as one word. -/
theorem reads_identifier {s : String} (h : isIdentifier s = true) : Reads s [.word s] := by
  rw [isIdentifier, Bool.and_eq_true, List.all_eq_true] at h
  refine reads_word (fun c hc => isWordChar_of_isIdentifierChar (h.1 c hc)) ?_
  rintro rfl
  simp at h

/-- An identifier may go on with more of its characters, though they could not begin one. -/
theorem isIdentifier_append {s t : String} (hs : isIdentifier s = true)
    (ht : t.toList.all Query.isIdentifierChar = true) : isIdentifier (s ++ t) = true := by
  rw [isIdentifier, Bool.and_eq_true] at hs ⊢
  obtain ⟨c, hhead, hc⟩ := (Option.any_eq_true _ _).mp hs.2
  obtain ⟨rest, hrest⟩ := List.head?_eq_some_iff.mp hhead
  refine ⟨?_, ?_⟩
  · rw [String.toList_append, List.all_append, hs.1, ht]
    rfl
  · rw [String.toList_append, hrest, List.cons_append, List.head?_cons, Option.any_some]
    exact hc

/-- Two names with a dot between them. -/
theorem isIdentifier_dot {s t : String} (hs : isIdentifier s = true) (ht : isIdentifier t = true) :
    isIdentifier (s ++ "." ++ t) = true := by
  rw [String.append_assoc]
  refine isIdentifier_append hs ?_
  rw [isIdentifier, Bool.and_eq_true] at ht
  rw [String.toList_append, List.all_append, ht.1]
  rfl

theorem Reads.congr {s : String} {ls ms : List Lexeme} (h : Reads s ls) (heq : ls = ms) :
    Reads s ms := heq ▸ h

theorem separates_blank : Separates " " [] := separates_of_read (by decide) (by decide)

theorem separates_comma : Separates ", " [.comma] :=
  separates_of_read (by decide) (by decide)

theorem opens_parenthesis : Opens "(" [.opening] := opens_of_read (by decide)

theorem separates_parenthesis : Separates ")" [.closing] :=
  separates_of_read (by decide) (by decide)

/-- What stands in parentheses. -/
theorem Reads.parens {s : String} {ls : List Lexeme} (h : Reads s ls) :
    Opens ("(" ++ s ++ ")") (.opening :: (ls ++ [.closing])) :=
  (opens_parenthesis.reads h).opens separates_parenthesis

/-- A name with arguments. -/
theorem Reads.call {callee s : String} {ks ls : List Lexeme} (hcallee : Reads callee ks)
    (h : Reads s ls) :
    Opens (callee ++ ("(" ++ s ++ ")")) (ks ++ .opening :: (ls ++ [.closing])) :=
  hcallee.opens (h.parens.separates (by rw [toList_parens]; rfl))

/-- Something under a name. -/
theorem Opens.as_name {s name : String} {ls : List Lexeme} (h : Opens s ls)
    (hname : isIdentifier name = true) :
    Reads (s ++ (" AS " ++ name)) (ls ++ [.word "AS", .word name]) := by
  have hopens : Opens " AS " [.word "AS"] := opens_of_read (by decide)
  exact h.reads (hopens.reads (reads_identifier hname))

end Text

/-! ### Literals and conditions -/

namespace Query

mutual

/-- Every value is written as one. -/
theorem exists_reads_literal : ∀ v : Json, ∃ ls, IsValue ls ∧ Reads (literal v) ls
  | .null => ⟨[.word "NULL"], .constant (by decide), Text.reads_of_read (by decide)⟩
  | .bool true => ⟨[.word "true"], .constant (by decide), Text.reads_of_read (by decide)⟩
  | .bool false => ⟨[.word "false"], .constant (by decide), Text.reads_of_read (by decide)⟩
  | .number n => by
    have hsigned : IsSigned n.text.toList := by simpa [Number.text] using n.isSigned_chars
    have hne : n.text ≠ "" := fun heq => hsigned.ne_nil (by rw [heq]; rfl)
    exact ⟨_, .number hsigned, by
      simpa only [literal] using (Text.goesOn_of_isNumeral hsigned.isNumeral).reads hne⟩
  | .string s => ⟨_, .literal, by simpa only [literal] using Text.reads_quote s⟩
  | .object members => ⟨_, .literal, by simpa only [literal] using Text.reads_quote _⟩
  | .array items => by
    obtain ⟨lss, hvalues, hitems⟩ := exists_reads_literals items
    refine ⟨_, .list hvalues, ?_⟩
    simpa only [literal] using
      (Text.reads_intercalate Text.separates_comma hitems).parens.toReads

/-- The items of an array are written as values, each as one. -/
theorem exists_reads_literals : ∀ vs : List Json,
    ∃ lss, (∀ ls ∈ lss, IsValue ls) ∧ List.Forall₂ Reads (literals vs) lss
  | [] => ⟨[], by simp, by simp⟩
  | v :: rest => by
    obtain ⟨ls, hvalue, hv⟩ := exists_reads_literal v
    obtain ⟨lss, hvalues, hrest⟩ := exists_reads_literals rest
    refine ⟨ls :: lss, List.forall_mem_cons.mpr ⟨hvalue, hvalues⟩, ?_⟩
    simpa only [literals] using List.Forall₂.cons hv hrest

end

/-- A comparison is written as an operator of its kind. -/
theorem exists_reads_symbol (c : Comparison) :
    ∃ op, op ∈ (if c.isUnary then unaryOperators else binaryOperators) ∧ Reads c.symbol op := by
  cases c with
  | eq => exact ⟨[.word "="], by decide, Text.reads_of_read (by decide)⟩
  | ne => exact ⟨[.word "!="], by decide, Text.reads_of_read (by decide)⟩
  | lt => exact ⟨[.word "<"], by decide, Text.reads_of_read (by decide)⟩
  | le => exact ⟨[.word "<="], by decide, Text.reads_of_read (by decide)⟩
  | gt => exact ⟨[.word ">"], by decide, Text.reads_of_read (by decide)⟩
  | ge => exact ⟨[.word ">="], by decide, Text.reads_of_read (by decide)⟩
  | like => exact ⟨[.word "LIKE"], by decide, Text.reads_of_read (by decide)⟩
  | notLike => exact ⟨[.word "NOT", .word "LIKE"], by decide, Text.reads_of_read (by decide)⟩
  | inSet => exact ⟨[.word "IN"], by decide, Text.reads_of_read (by decide)⟩
  | notInSet => exact ⟨[.word "NOT", .word "IN"], by decide, Text.reads_of_read (by decide)⟩
  | isNull => exact ⟨[.word "IS", .word "NULL"], by decide, Text.reads_of_read (by decide)⟩
  | isNotNull =>
    exact ⟨[.word "IS", .word "NOT", .word "NULL"], by decide, Text.reads_of_read (by decide)⟩

/-- A text that reads as a condition. -/
def IsConditionText (s : String) : Prop := ∃ ls, IsCondition ls ∧ Reads s ls

/-- A name with an operator that needs no operand is a condition. -/
theorem isConditionText_unary {name : String} (hname : isIdentifier name = true) {c : Comparison}
    (hc : c.isUnary = true) : IsConditionText (name ++ " " ++ c.symbol) := by
  obtain ⟨op, hop, hsymbol⟩ := exists_reads_symbol c
  rw [if_pos hc] at hop
  have hreads := ((Text.reads_identifier hname).opens Text.separates_blank).reads hsymbol
  exact ⟨_, .unary hname hop, hreads.congr (by simp)⟩

/-- A name, an operator and an operand behind it are a condition. -/
theorem isConditionText_binary {name right : String} (hname : isIdentifier name = true)
    {c : Comparison} (hc : c.isUnary = false) {ls : List Lexeme} (hls : IsOperand ls)
    (hright : Reads right ls) : IsConditionText (name ++ " " ++ c.symbol ++ " " ++ right) := by
  obtain ⟨op, hop, hsymbol⟩ := exists_reads_symbol c
  rw [if_neg (by simp [hc])] at hop
  have hreads := ((Text.reads_identifier hname).opens Text.separates_blank).reads hsymbol
  exact ⟨_, .binary (.name hname) hop hls,
    ((hreads.opens Text.separates_blank).reads hright).congr (by simp)⟩

/-- Conditions with `AND` between them. -/
theorem exists_reads_predicate {texts : List String} (hne : texts ≠ [])
    (h : ∀ s ∈ texts, IsConditionText s) :
    ∃ ls, IsPredicate ls ∧ Reads (" AND ".intercalate texts) ls := by
  obtain ⟨lss, hlss, hreads⟩ := Text.exists_forall₂_reads h
  have hand : Separates " AND " [.word "AND"] :=
    Text.separates_of_read (by decide) (by decide)
  refine ⟨_, ⟨lss, ?_, hlss, rfl⟩, Text.reads_intercalate hand hreads⟩
  rintro rfl
  exact hne (List.forall₂_nil_right_iff.mp hreads)

end Query

/-! ### Tables and clauses -/

namespace Query

/-- A text that reads as a query. -/
def IsQueryText (s : String) : Prop := ∃ q, IsQuery q ∧ Reads s q

/-- A query in parentheses, with an alias, reads as a table. -/
theorem reads_derivedTable {text name : String} {q : List Lexeme} (hname : isIdentifier name = true)
    (h : Reads text q) : Reads (derivedTable text name) (derived q name) := by
  have hfeed : Opens "\n" [] := Text.opens_of_read (by decide)
  have hlines : Opens ("\n" ++ Text.indent text ++ "\n") q := by
    rw [String.append_assoc]
    exact hfeed.append h.setOff
  -- The lexemes do not show that the lines of the query are indented.
  rw [derivedTable_eq]
  exact (hlines.toReads.parens.as_name hname).congr (by simp [derived])

theorem opens_selectAll : Opens "SELECT *\nFROM " [.word "SELECT", .word "*", .word "FROM"] :=
  Text.opens_of_read (by decide)

theorem separates_from : Separates "\nFROM " [.word "FROM"] :=
  Text.separates_of_read (by decide) (by decide)

/-- A select list, with an item on each line. -/
theorem exists_reads_selectList {items : List String} (hne : items ≠ [])
    (h : ∀ item ∈ items, ∃ ls, IsItem ls ∧ Reads item ls) :
    ∃ ls, IsSelectList ls ∧ Reads ("SELECT\n" ++ selectList items) (.word "SELECT" :: ls) := by
  have hmargin : Opens "    " [] := Text.opens_of_read (by decide)
  have hlines : ∀ line ∈ items.map fun item => "    " ++ item,
      ∃ ls, IsItem ls ∧ Reads line ls := by
    intro line hline
    obtain ⟨item, hitem, rfl⟩ := List.mem_map.mp hline
    obtain ⟨ls, hls, hreads⟩ := h item hitem
    exact ⟨ls, hls, hmargin.reads hreads⟩
  obtain ⟨lss, hlss, hreads⟩ := Text.exists_forall₂_reads hlines
  have hcomma : Separates ",\n" [.comma] :=
    Text.separates_of_read (by decide) (by decide)
  have hselect : Opens "SELECT\n" [.word "SELECT"] := Text.opens_of_read (by decide)
  -- No lexemes of a list at all would have to come from no items.
  refine ⟨_, Or.inr ⟨lss, ?_, hlss, rfl⟩,
    hselect.reads (Text.reads_intercalate hcomma hreads)⟩
  rintro rfl
  exact hne (List.map_eq_nil_iff.mp (List.forall₂_nil_right_iff.mp hreads))

end Query

/-! ### The kinds of nodes -/

section Kinds

open Query (IsQueryText IsItem IsFilter IsGrouping)

variable {settings : Settings} {context : Context} {input : Input}

/-- An item of an event reads as a column or as a call that has its name. -/
theorem Event.exists_reads_item (hnames : ∀ name ∈ settings.names, isIdentifier name = true)
    {f : EventField} (hname : isIdentifier f.name = true) :
    ∃ ls, IsItem ls ∧ Reads (item settings f) ls := by
  obtain ⟨name, source⟩ := f
  cases source with
  | column => exact ⟨_, .column hname, Text.reads_identifier hname⟩
  | parameter path =>
    have hcolumn := hnames settings.parametersColumn (by simp [Settings.names])
    have hcallee : Reads "JSON_VALUE" [.word "JSON_VALUE"] := Text.reads_of_read (by decide)
    -- The arguments are a column and a literal; the path counts for nothing here.
    have harguments := ((Text.reads_identifier hcolumn).opens Text.separates_comma).reads
      (Text.reads_quote (rootedPath path))
    rw [parameterItem_eq]
    exact ⟨_, .parameter hcolumn hname, ((hcallee.call harguments).as_name hname).congr (by simp)⟩

/-- The condition on the event name, behind another text. -/
theorem Event.exists_reads_condition (eventName : Option String) :
    ∃ ls, IsFilter ls ∧ ∀ s ms, Reads s ms → Reads (s ++ condition eventName) (ms ++ ls) := by
  cases hname : Text.content? eventName with
  | none =>
    refine ⟨[], Or.inl rfl, fun s ms h => ?_⟩
    rw [condition, hname]
    simpa using h
  | some name =>
    have hwhere : Separates "\nWHERE event_name = "
        [.word "WHERE", .word "event_name", .word "="] :=
      Text.separates_of_read (by decide) (by decide)
    have hcondition : Query.IsCondition ([.word "event_name"] ++ ([.word "="] ++ [.literal])) :=
      .binary (.name (by decide)) (by decide) (.value .literal)
    refine ⟨[.word "WHERE", .word "event_name", .word "=", .literal],
      Or.inr ⟨_, ⟨[_], by simp, by simpa using hcondition, rfl⟩, rfl⟩, fun s ms h => ?_⟩
    have hreads := (h.opens hwhere).reads (Text.reads_quote name)
    rw [condition, hname]
    simpa [String.append_assoc] using hreads

/-- A selection from the events table, unless it selects nothing. -/
theorem Event.isQueryText (hnames : ∀ name ∈ settings.names, isIdentifier name = true)
    (hdatabase : isIdentifier context.database = true) {config : EventConfig}
    (hfields : ∀ f ∈ config.fields, isIdentifier f.name = true)
    (hselects : config.fields ≠ [] ∨ settings.fallbackColumns ≠ []) :
    IsQueryText (fragment settings context config).text := by
  have hitems : ∀ text ∈ items settings config, ∃ ls, IsItem ls ∧ Reads text ls := by
    intro text htext
    rw [items] at htext
    split at htext
    -- The columns to fall back on are items like the others.
    · have hname := hnames text (by simp [Settings.names, htext])
      exact ⟨_, .column hname, Text.reads_identifier hname⟩
    · obtain ⟨f, hf, rfl⟩ := List.mem_map.mp htext
      exact exists_reads_item hnames (hfields f hf)
  have hne : items settings config ≠ [] := by
    rw [items]
    split
    next hempty => exact hselects.resolve_left (by simpa using hempty)
    next hsome => simpa using hsome
  obtain ⟨list, hlist, hreads⟩ := Query.exists_reads_selectList hne hitems
  obtain ⟨filter, hfilter, hcondition⟩ := exists_reads_condition config.eventName
  -- The table is named by its database and its own name, with a dot between.
  have htable := Text.isIdentifier_dot hdatabase
    (hnames settings.eventsTable (by simp [Settings.names]))
  have hsource := (hreads.opens Query.separates_from).reads (Text.reads_identifier htable)
  refine ⟨_, .fromTable hlist htable hfilter (Or.inl rfl), ?_⟩
  have htext := (hcondition _ _ hsource).congr (by simp [Query.selection] :
    _ = Query.selection list [.word (context.database ++ "." ++ settings.eventsTable)] filter [])
  simpa only [fragment, String.append_assoc] using htext

/-- There is one block for each input. -/
theorem UnionAll.length_blocks (inputs : List Input) (position : Nat) :
    (blocks position inputs).length = inputs.length := by
  induction inputs generalizing position with
  | nil => rfl
  | cons i rest ih => rw [blocks, List.length_cons, List.length_cons, ih]

/-- Two or more queries, one after the other. -/
theorem UnionAll.isQueryText {inputs : List Input} (hcount : 2 ≤ inputs.length)
    (hids : ∀ i ∈ inputs, '\n' ∉ i.node.text.toList)
    (hinputs : ∀ i ∈ inputs, IsQueryText i.text) : IsQueryText (fragment inputs).text := by
  have hblocks : ∀ position, ∃ queries : List (List Lexeme), (∀ q ∈ queries, Query.IsQuery q) ∧
      List.Forall₂ Reads (blocks position inputs) (queries.map fun q => .comment :: q) := by
    clear hcount
    -- Positions count up along the list, so the induction is for all of them at once.
    induction inputs with
    | nil => exact fun position => ⟨[], by simp, .nil⟩
    | cons i rest ih =>
      rw [List.forall_mem_cons] at hids hinputs
      intro position
      obtain ⟨q, hq, hreads⟩ := hinputs.1
      obtain ⟨queries, hqueries, hrest⟩ := ih hids.2 hinputs.2 (position + 1)
      have hcomment := Text.opens_comment (feed_not_mem_header hids.1 position)
      refine ⟨q :: queries, List.forall_mem_cons.mpr ⟨hq, hqueries⟩, .cons ?_ hrest⟩
      rw [block_eq]
      exact hcomment.reads hreads
  obtain ⟨queries, hqueries, hreads⟩ := hblocks 1
  have hlength : queries.length = inputs.length := by
    have hsame := hreads.length_eq
    rw [List.length_map, length_blocks] at hsame
    exact hsame.symm
  have hunion : Separates "\nUNION ALL\n" [.word "UNION", .word "ALL"] :=
    Text.separates_of_read (by decide) (by decide)
  exact ⟨_, .union (hlength ▸ hcount) hqueries, Text.reads_intercalate hunion hreads⟩

/-- A join condition reads as one. -/
theorem Join.isConditionText {c : JoinCondition}
    (h : ∀ name ∈ (if c.operator.isUnary then [c.left] else [c.left, c.right]),
      isIdentifier name = true) : Query.IsConditionText (condition c) := by
  cases hunary : c.operator.isUnary with
  | true =>
    rw [hunary, if_pos rfl, List.forall_mem_singleton] at h
    rw [condition, if_pos hunary]
    exact Query.isConditionText_unary h hunary
  | false =>
    rw [hunary, if_neg (by decide), List.forall_mem_cons, List.forall_mem_singleton] at h
    rw [condition, if_neg (by simp [hunary])]
    exact Query.isConditionText_binary h.1 hunary (.name h.2) (Text.reads_identifier h.2)

/-- Every keyword of a join is one of the grammar. -/
theorem JoinType.exists_reads_keyword (t : JoinType) :
    ∃ ls, ls ∈ Query.joins ∧ Reads t.keyword ls := by
  cases t with
  | inner =>
    exact ⟨[.word "INNER", .word "JOIN"], by decide, Text.reads_of_read (by decide)⟩
  | left => exact ⟨[.word "LEFT", .word "JOIN"], by decide, Text.reads_of_read (by decide)⟩
  | right => exact ⟨[.word "RIGHT", .word "JOIN"], by decide, Text.reads_of_read (by decide)⟩
  | full =>
    exact ⟨[.word "FULL", .word "OUTER", .word "JOIN"], by decide,
      Text.reads_of_read (by decide)⟩

/-- A selection of all columns from two joined queries. -/
theorem Join.isQueryText (hnames : ∀ name ∈ settings.names, isIdentifier name = true)
    {config : JoinConfig} (hcomplete : config.conditions ≠ [])
    (hcontent : ∀ name ∈ (Content.join config).names, isIdentifier name = true)
    {left right : Input} (hleft : IsQueryText left.text) (hright : IsQueryText right.text) :
    IsQueryText (fragment settings config left right).text := by
  obtain ⟨q, hq, hq_reads⟩ := hleft
  obtain ⟨q', hq', hq'_reads⟩ := hright
  obtain ⟨join, hjoin, hkeyword⟩ := (config.joinType.getD .inner).exists_reads_keyword
  obtain ⟨on, hon, hconditions⟩ := Query.exists_reads_predicate
    (List.map_eq_nil_iff.not.mpr hcomplete) (fun text htext => by
      obtain ⟨c, hc, rfl⟩ := List.mem_map.mp htext
      exact isConditionText fun name hname =>
        hcontent name (List.mem_flatMap.mpr ⟨c, hc, hname⟩))
  have hleftAlias := hnames settings.leftAlias (by simp [Settings.names])
  have hrightAlias := hnames settings.rightAlias (by simp [Settings.names])
  have hfeed : Separates "\n" [] := Text.separates_of_read (by decide) (by decide)
  have hon' : Separates "\nON " [.word "ON"] :=
    Text.separates_of_read (by decide) (by decide)
  -- The text is read from left to right: left input, keyword, right input, conditions.
  have hfrom := Query.opens_selectAll.reads (Query.reads_derivedTable hleftAlias hq_reads)
  have hjoined := (((hfrom.opens hfeed).reads hkeyword).opens Text.separates_blank).reads
    (Query.reads_derivedTable hrightAlias hq'_reads)
  exact ⟨_, .fromJoin (Or.inl rfl) hq hleftAlias hjoin hq' hrightAlias hon (Or.inl rfl)
    (Or.inl rfl), ((hjoined.opens hon').reads hconditions).congr (by simp [Query.selection])⟩

/-- The right-hand side of a comparison reads as a value. -/
theorem Filter.exists_reads_operand (c : FilterCondition) :
    ∃ ls, Query.IsValue ls ∧ Reads (operand c) ls := by
  obtain ⟨ls, hls, hliteral⟩ := Query.exists_reads_literal c.value
  obtain ⟨field, operator, value⟩ := c
  cases value with
  | array items => exact ⟨ls, hls, hliteral⟩
  | null | bool b | number n | string s | object members =>
    cases hset : operator.isSet with
    | false => exact ⟨ls, hls, by simpa only [operand, hset] using hliteral⟩
    | true =>
      -- A single value stands for a list of one.
      have hlist : Query.IsValue (.opening :: ([.comma].intercalate [ls] ++ [.closing])) :=
        .list (by simpa using hls)
      refine ⟨_, hlist, ?_⟩
      simpa only [operand, hset, List.intercalate_singleton] using hliteral.parens.toReads

/-- A filter condition reads as one. -/
theorem Filter.isConditionText {c : FilterCondition} (h : isIdentifier c.field = true) :
    Query.IsConditionText (condition c) := by
  cases hunary : c.operator.isUnary with
  | true =>
    rw [condition, if_pos hunary]
    exact Query.isConditionText_unary h hunary
  | false =>
    obtain ⟨ls, hls, hoperand⟩ := exists_reads_operand c
    rw [condition, if_neg (by simp [hunary])]
    exact Query.isConditionText_binary h hunary (.value hls) hoperand

/-- All conditions of a filter together read as a predicate. -/
theorem Filter.exists_reads_predicate {config : FilterConfig}
    (h : ∀ c ∈ config.conditions, isIdentifier c.field = true) :
    ∃ ls, Query.IsPredicate ls ∧ Reads (predicate config) ls := by
  rw [predicate]
  split
  -- Without conditions, one is compared with one.
  · have hone : Query.IsOperand [.word "1"] := .value (.number (.plus ⟨.cons (by decide) .nil,
      '1', [], rfl, by decide⟩))
    have hcondition : Query.IsCondition ([.word "1"] ++ ([.word "="] ++ [.word "1"])) :=
      .binary hone (by decide) hone
    exact ⟨[.word "1", .word "=", .word "1"],
      ⟨[_], by simp, by simpa using hcondition, by simp⟩, Text.reads_of_read (by decide)⟩
  next hsome =>
    refine Query.exists_reads_predicate ?_ fun text htext => ?_
    · simpa [FilterConfig.isPassthrough] using hsome
    · obtain ⟨c, hc, rfl⟩ := List.mem_map.mp htext
      exact isConditionText (h c hc)

/-- A selection of all columns from a query, with a condition. -/
theorem Filter.isQueryText (hnames : ∀ name ∈ settings.names, isIdentifier name = true)
    {config : FilterConfig} (h : ∀ c ∈ config.conditions, isIdentifier c.field = true)
    (hinput : IsQueryText input.text) : IsQueryText (fragment settings config input).text := by
  obtain ⟨q, hq, hreads⟩ := hinput
  obtain ⟨p, hp, hpredicate⟩ := exists_reads_predicate h
  have halias := hnames settings.subqueryAlias (by simp [Settings.names])
  have hwhere : Separates "\nWHERE " [.word "WHERE"] :=
    Text.separates_of_read (by decide) (by decide)
  have hfrom := Query.opens_selectAll.reads (Query.reads_derivedTable halias hreads)
  exact ⟨_, .fromQuery (Or.inl rfl) hq halias (Or.inr ⟨p, hp, rfl⟩) (Or.inl rfl),
    ((hfrom.opens hwhere).reads hpredicate).congr (by simp [Query.selection])⟩

theorem AggregateFunction.callee_mem (f : AggregateFunction) :
    f.callee ∈ ["count", "sum", "avg", "min", "max"] := by
  cases f <;> decide

/-- What stands before the argument is a keyword or nothing. -/
theorem AggregateFunction.exists_opens_qualifier (f : AggregateFunction) :
    ∃ ls, ls ∈ [[], [.word "DISTINCT"]] ∧ Opens f.qualifier ls := by
  cases f with
  | countDistinct => exact ⟨[.word "DISTINCT"], by decide, Text.opens_of_read (by decide)⟩
  | count | sum | avg | min | max => exact ⟨[], by decide, Text.opens_empty⟩

/-- An aggregation reads as a call that has its name. -/
theorem Aggregate.exists_reads_item {a : Aggregation} (hname : isIdentifier a.name = true)
    (hfield : ∀ field ∈ field? a, isIdentifier field = true) :
    ∃ ls, IsItem ls ∧ Reads (item a) ls := by
  obtain ⟨qualifier, hqualifier, hopens⟩ := a.function.exists_opens_qualifier
  -- Without a field the argument is a star.
  obtain ⟨argument, hargument, hreads⟩ : ∃ argument : String,
      (argument = "*" ∨ isIdentifier argument = true) ∧
        Reads ((field? a).getD "*") [.word argument] := by
    cases hsome : field? a with
    | none => exact ⟨"*", Or.inl rfl, Text.reads_of_read (by decide)⟩
    | some field =>
      have hidentifier := hfield field hsome
      exact ⟨field, Or.inr hidentifier, Text.reads_identifier hidentifier⟩
  have hcallee : isIdentifier a.function.callee = true := by
    cases a.function <;> decide
  have hcall := (Text.reads_identifier hcallee).call (hopens.reads hreads)
  rw [item_eq]
  exact ⟨_, .aggregation a.function.callee_mem hqualifier hargument hname,
    (hcall.as_name hname).congr (by simp)⟩

/-- The select clause of an aggregate, of all columns if it has no items. -/
theorem Aggregate.exists_reads_selection {config : AggregateConfig}
    (h : ∀ name ∈ (Content.aggregate config).names, isIdentifier name = true) :
    ∃ ls, Query.IsSelectList ls ∧ Reads (selection config) (.word "SELECT" :: ls) := by
  have hitems : ∀ text ∈ items config, ∃ ls, IsItem ls ∧ Reads text ls := by
    intro text htext
    rcases List.mem_append.mp htext with hgroup | haggregation
    · have hname := h text (List.mem_append_left _ hgroup)
      exact ⟨_, .column hname, Text.reads_identifier hname⟩
    · obtain ⟨a, ha, rfl⟩ := List.mem_map.mp haggregation
      have hnames : ∀ name ∈ a.name :: (field? a).toList, isIdentifier name = true :=
        fun name hname => h name
          (List.mem_append_right _ (List.mem_flatMap.mpr ⟨a, ha, hname⟩))
      exact exists_reads_item (hnames _ List.mem_cons_self) fun field hfield =>
        hnames field (List.mem_cons_of_mem _ (Option.mem_toList.mpr hfield))
  rw [selection]
  split
  next => exact ⟨[.word "*"], Or.inl rfl, Text.reads_of_read (by decide)⟩
  next hsome =>
    exact Query.exists_reads_selectList (by simpa using hsome) hitems

/-- The grouping clause, behind another text. -/
theorem Aggregate.exists_reads_grouping {config : AggregateConfig}
    (h : ∀ name ∈ config.groupBy, isIdentifier name = true) :
    ∃ ls, IsGrouping ls ∧ ∀ s ms, Reads s ms → Reads (s ++ grouping config) (ms ++ ls) := by
  rw [grouping]
  split
  next => exact ⟨[], Or.inl rfl, fun s ms hs => by simpa using hs⟩
  next hsome =>
    have hgroup : Separates "\nGROUP BY " [.word "GROUP", .word "BY"] :=
      Text.separates_of_read (by decide) (by decide)
    have hnames : List.Forall₂ Reads config.groupBy
        (config.groupBy.map fun name => [Lexeme.word name]) := by
      rw [List.forall₂_map_right_iff, List.forall₂_same]
      exact fun name hname => Text.reads_identifier (h name hname)
    refine ⟨_, Or.inr ⟨config.groupBy, by simpa using hsome, h, rfl⟩, fun s ms hs => ?_⟩
    have hreads := (hs.opens hgroup).reads (Text.reads_intercalate Text.separates_comma hnames)
    simpa [String.append_assoc] using hreads

/-- A selection of groups and aggregations from a query. -/
theorem Aggregate.isQueryText (hnames : ∀ name ∈ settings.names, isIdentifier name = true)
    {config : AggregateConfig}
    (h : ∀ name ∈ (Content.aggregate config).names, isIdentifier name = true)
    (hinput : IsQueryText input.text) : IsQueryText (fragment settings config input).text := by
  obtain ⟨q, hq, hreads⟩ := hinput
  obtain ⟨list, hlist, hselection⟩ := exists_reads_selection h
  obtain ⟨groups, hgroups, hgrouping⟩ := exists_reads_grouping
    fun name hname => h name (List.mem_append_left _ hname)
  have halias := hnames settings.subqueryAlias (by simp [Settings.names])
  -- The clauses are read in the order in which they stand in the text.
  have hsource :=
    (hselection.opens Query.separates_from).reads (Query.reads_derivedTable halias hreads)
  exact ⟨_, .fromQuery hlist hq halias (Or.inl rfl) hgroups,
    (hgrouping _ _ hsource).congr (by simp [Query.selection])⟩

/-- A view of a query. -/
theorem Output.isStatement (hstem : isIdentifier settings.namespaceStem = true)
    {viewName : String} (hname : isIdentifier viewName = true) (hinput : IsQueryText input.text) :
    Query.IsStatement (Text.lexemes (fragment settings context viewName input).text) := by
  obtain ⟨q, hq, hreads⟩ := hinput
  have hspace : isIdentifier (settings.namespaceFor context.game) = true := by
    -- The number of the game makes the stem longer, and digits may stand in an identifier.
    refine Text.isIdentifier_append hstem ?_
    rw [List.all_eq_true]
    intro c hc
    simp [Query.isIdentifierChar, Char.isAlphanum, isDigit_of_mem_toString hc]
  have hcreate : Opens "CREATE OR REPLACE VIEW " Query.createView :=
    Text.opens_of_read (by decide)
  have has : Separates " AS\n" [.word "AS"] :=
    Text.separates_of_read (by decide) (by decide)
  have hview := Text.reads_identifier (Text.isIdentifier_dot hspace hname)
  have htext := ((hcreate.reads hview).opens has).reads hreads
  rw [← String.append_assoc, ← String.append_assoc] at htext
  refine ⟨_, viewName, q, hspace, hname, hq, htext.lexemes_eq.trans ?_⟩
  simp

end Kinds

/-! ### Any node -/

/-- An event without fields selects the fallback columns, so there have to be some. -/
def Content.Selects (settings : Settings) : Content → Prop
  | .event config => config.fields ≠ [] ∨ settings.fallbackColumns ≠ []
  | _ => True

instance (settings : Settings) : (c : Content) → Decidable (c.Selects settings)
  | .event _ => inferInstanceAs (Decidable (_ ∨ _))
  | .unionAll | .join _ | .filter _ | .aggregate _ | .output _ => inferInstanceAs (Decidable True)

namespace Node

open Query (IsQueryText)

variable {settings : Settings} {context : Context} {n : Node} {inputs : List Input}
  {f : Fragment}

/-- On queries, a node that is no output makes a query. -/
theorem isQueryText_of_compile (h : n.compile settings context inputs = .ok f)
    (hnames : ∀ name ∈ configuredNames settings context [n], isIdentifier name = true)
    (hkind : n.kind ≠ .output) (hselects : n.content.Selects settings)
    (hids : n.kind = .unionAll → ∀ i ∈ inputs, '\n' ∉ i.node.text.toList)
    (hinputs : ∀ i ∈ inputs, IsQueryText i.text) : IsQueryText f.text := by
  have hcomplete : n.content.Complete := (exists_compile_iff.mp ⟨f, h⟩).2
  have hsettings := names_settings hnames
  have hcontent := names_content hnames n (List.mem_singleton_self n)
  obtain ⟨id, content⟩ := n
  have hyields : content.Yields settings context inputs f := yields_of_compile h
  cases hyields with
  | event =>
    -- An event needs something to select, its fields or the fallback columns.
    exact Event.isQueryText hsettings (names_database hnames)
      (fun f hf => hcontent _ (List.mem_map_of_mem hf)) hselects
  | unionAll hcount => exact UnionAll.isQueryText hcount (hids rfl) hinputs
  | @join config first second =>
    rw [List.forall_mem_cons, List.forall_mem_singleton] at hinputs
    -- Whichever way the handles go, both sides are inputs.
    rcases Join.sides_cases first second with heq | heq
    · rw [heq]
      exact Join.isQueryText hsettings hcomplete hcontent hinputs.1 hinputs.2
    · rw [heq]
      exact Join.isQueryText hsettings hcomplete hcontent hinputs.2 hinputs.1
  | filter =>
    exact Filter.isQueryText hsettings (fun c hc => hcontent _ (List.mem_map_of_mem hc))
      (hinputs _ (List.mem_singleton_self _))
  | aggregate =>
    exact Aggregate.isQueryText hsettings hcontent (hinputs _ (List.mem_singleton_self _))
  | output => exact absurd rfl hkind

/-- On a query, an output makes a statement. -/
theorem isStatement_of_compile (h : n.compile settings context inputs = .ok f)
    (hnames : ∀ name ∈ configuredNames settings context [n], isIdentifier name = true)
    (hkind : n.kind = .output) (hinputs : ∀ i ∈ inputs, IsQueryText i.text) :
    Query.IsStatement (Text.lexemes f.text) := by
  have hstem := names_settings hnames settings.namespaceStem (by simp [Settings.names])
  have hcontent := names_content hnames n (List.mem_singleton_self n)
  obtain ⟨id, content⟩ := n
  have hyields : content.Yields settings context inputs f := yields_of_compile h
  cases hyields with
  | output hname =>
    exact Output.isStatement hstem (hcontent _ (by simp [Content.names, hname]))
      (hinputs _ (List.mem_singleton_self _))
  | event | unionAll | join | filter | aggregate => cases hkind

end Node

end QueryGraph
