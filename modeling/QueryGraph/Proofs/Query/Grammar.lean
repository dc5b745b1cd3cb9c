import Mathlib.Data.List.Chain
import QueryGraph.Proofs.Text.Lexeme

namespace QueryGraph.Query

open Text (Lexeme)

/-!
# A grammar of queries

* `isIdentifier`: the names that may stand in a query.
* `IsValue`, `IsCondition`, `IsPredicate`, `IsItem`, `IsSelectList`: the parts of a query.
* `IsQuery`: a selection from a table, from a query in parentheses or from two joined ones, or
  several queries below comments with `UNION ALL` between them.
* `IsStatement`: a view created from a query.
* `IsQuery.selects`, `IsQuery.length_le`: how a query begins, and how long it is at least.
* `IsStatement.opens_once`: a statement creates nothing but its view.
-/

/-! ### Names, values and conditions -/

/-- Letters, digits, underscores and dots. -/
def isIdentifierChar (c : Char) : Bool := c.isAlphanum || c = '_' || c = '.'

/-- A name that needs no quotes, or several of them with dots between them. -/
def isIdentifier (s : String) : Bool :=
  s.toList.all isIdentifierChar && s.toList.head?.any fun c => c.isAlpha || c = '_'

/-- A constant, a literal, or a list of values in parentheses. -/
inductive IsValue : List Lexeme → Prop
  | literal : IsValue [.literal]
  | number {s : String} (h : IsSigned s.toList) : IsValue [.word s]
  | constant {s : String} (h : s ∈ ["NULL", "true", "false"]) : IsValue [.word s]
  | list {items : List (List Lexeme)} (h : ∀ item ∈ items, IsValue item) :
      IsValue (.opening :: ([.comma].intercalate items ++ [.closing]))

/-- What may be compared. -/
inductive IsOperand : List Lexeme → Prop
  | name {s : String} (h : isIdentifier s = true) : IsOperand [.word s]
  | value {v : List Lexeme} (h : IsValue v) : IsOperand v

/-- The comparisons with two sides. -/
def binaryOperators : List (List Lexeme) :=
  [[.word "="], [.word "!="], [.word "<"], [.word "<="], [.word ">"], [.word ">="],
    [.word "LIKE"], [.word "NOT", .word "LIKE"], [.word "IN"], [.word "NOT", .word "IN"]]

/-- The comparisons with one side. -/
def unaryOperators : List (List Lexeme) :=
  [[.word "IS", .word "NULL"], [.word "IS", .word "NOT", .word "NULL"]]

/-- A comparison. -/
inductive IsCondition : List Lexeme → Prop
  | unary {s : String} {op : List Lexeme} (hs : isIdentifier s = true)
      (hop : op ∈ unaryOperators) : IsCondition (.word s :: op)
  | binary {l op r : List Lexeme} (hl : IsOperand l) (hop : op ∈ binaryOperators)
      (hr : IsOperand r) : IsCondition (l ++ (op ++ r))

/-- One or more conditions, all of which have to hold. -/
def IsPredicate (ls : List Lexeme) : Prop :=
  ∃ conditions : List (List Lexeme), conditions ≠ [] ∧ (∀ c ∈ conditions, IsCondition c) ∧
    ls = [.word "AND"].intercalate conditions

/-! ### Clauses -/

/-- An item of a select list: a column, a value from the parameters, or an aggregation. -/
inductive IsItem : List Lexeme → Prop
  | column {name : String} (h : isIdentifier name = true) : IsItem [.word name]
  | parameter {column name : String} (hcolumn : isIdentifier column = true)
      (hname : isIdentifier name = true) :
      IsItem [.word "JSON_VALUE", .opening, .word column, .comma, .literal, .closing,
        .word "AS", .word name]
  | aggregation {function argument name : String} {qualifier : List Lexeme}
      (hfunction : function ∈ ["count", "sum", "avg", "min", "max"])
      (hqualifier : qualifier ∈ [[], [.word "DISTINCT"]])
      (hargument : argument = "*" ∨ isIdentifier argument = true)
      (hname : isIdentifier name = true) :
      IsItem (.word function :: .opening :: (qualifier ++
        [.word argument, .closing, .word "AS", .word name]))

/-- All columns, or one or more items. -/
def IsSelectList (ls : List Lexeme) : Prop :=
  ls = [.word "*"] ∨ ∃ items : List (List Lexeme), items ≠ [] ∧ (∀ item ∈ items, IsItem item) ∧
    ls = [.comma].intercalate items

/-- Possibly a condition on the rows. -/
def IsFilter (ls : List Lexeme) : Prop := ls = [] ∨ ∃ p, IsPredicate p ∧ ls = .word "WHERE" :: p

/-- Possibly a grouping by one or more columns. -/
def IsGrouping (ls : List Lexeme) : Prop :=
  ls = [] ∨ ∃ names : List String, names ≠ [] ∧ (∀ name ∈ names, isIdentifier name = true) ∧
    ls = .word "GROUP" :: .word "BY" :: [.comma].intercalate (names.map fun name => [.word name])

/-- The ways to join. -/
def joins : List (List Lexeme) :=
  [[.word "INNER", .word "JOIN"], [.word "LEFT", .word "JOIN"], [.word "RIGHT", .word "JOIN"],
    [.word "FULL", .word "OUTER", .word "JOIN"]]

/-! ### Queries -/

/-- A selection from something. -/
def selection (list source filter groups : List Lexeme) : List Lexeme :=
  .word "SELECT" :: (list ++ .word "FROM" :: (source ++ (filter ++ groups)))

/-- A query in parentheses under a name. -/
def derived (q : List Lexeme) (name : String) : List Lexeme :=
  .opening :: (q ++ [.closing, .word "AS", .word name])

/-- Queries one after the other, each below a comment. -/
def union (queries : List (List Lexeme)) : List Lexeme :=
  [.word "UNION", .word "ALL"].intercalate (queries.map fun q => .comment :: q)

/-- A query. -/
inductive IsQuery : List Lexeme → Prop
  | fromTable {list filter groups : List Lexeme} {table : String} (hlist : IsSelectList list)
      (htable : isIdentifier table = true) (hfilter : IsFilter filter)
      (hgroups : IsGrouping groups) : IsQuery (selection list [.word table] filter groups)
  | fromQuery {list q filter groups : List Lexeme} {name : String} (hlist : IsSelectList list)
      (hq : IsQuery q) (hname : isIdentifier name = true) (hfilter : IsFilter filter)
      (hgroups : IsGrouping groups) : IsQuery (selection list (derived q name) filter groups)
  | fromJoin {list q q' join on filter groups : List Lexeme} {left right : String}
      (hlist : IsSelectList list) (hq : IsQuery q) (hleft : isIdentifier left = true)
      (hjoin : join ∈ joins) (hq' : IsQuery q') (hright : isIdentifier right = true)
      (hon : IsPredicate on) (hfilter : IsFilter filter) (hgroups : IsGrouping groups) :
      IsQuery (selection list
        (derived q left ++ (join ++ (derived q' right ++ .word "ON" :: on))) filter groups)
  | union {queries : List (List Lexeme)} (hcount : 2 ≤ queries.length)
      (h : ∀ q ∈ queries, IsQuery q) : IsQuery (union queries)

/-- The words that create a view. -/
def createView : List Lexeme := [.word "CREATE", .word "OR", .word "REPLACE", .word "VIEW"]

/-- A statement that creates a view from a query. -/
def IsStatement (ls : List Lexeme) : Prop :=
  ∃ (space view : String) (q : List Lexeme), isIdentifier space = true ∧
    isIdentifier view = true ∧ IsQuery q ∧
    ls = createView ++ .word (space ++ "." ++ view) :: .word "AS" :: q

/-! ### The form of queries -/

/-- A select list is not empty. -/
theorem IsSelectList.ne_nil {ls : List Lexeme} (h : IsSelectList ls) : ls ≠ [] := by
  rcases h with rfl | ⟨items, hne, hitems, rfl⟩
  · simp
  · obtain ⟨item, rest, rfl⟩ := List.exists_cons_of_ne_nil hne
    have hitem := hitems item List.mem_cons_self
    cases rest with
    | nil => cases hitem <;> simp
    | cons item' rest => simp [List.intercalate_cons_cons]

/-- No query is shorter than a selection of one column from a table. -/
theorem IsQuery.length_le {q : List Lexeme} (h : IsQuery q) : 4 ≤ q.length := by
  induction h with
  | fromTable hlist htable hfilter hgroups =>
    have hpos := List.length_pos_iff.mpr hlist.ne_nil
    simp [selection]
    omega
  | fromQuery hlist hq hname hfilter hgroups ih =>
    simp [selection, derived]
    omega
  | fromJoin hlist hq hleft hjoin hq' hright hon hfilter hgroups ih ih' =>
    simp [selection, derived]
    omega
  | @union queries hcount h ih =>
    -- A union has two queries at least, and already the first one is long enough.
    obtain ⟨q, rest, rfl⟩ := List.exists_cons_of_ne_nil
      (List.ne_nil_of_length_pos (by omega : 0 < queries.length))
    have hrest : 0 < rest.length := by
      simp at hcount
      omega
    obtain ⟨q', rest, rfl⟩ := List.exists_cons_of_ne_nil (List.ne_nil_of_length_pos hrest)
    have hq := ih q List.mem_cons_self
    simp [Query.union, List.intercalate_cons_cons]
    omega

/-- A query selects something, right at its beginning or below comments. -/
theorem IsQuery.selects {q : List Lexeme} (h : IsQuery q) :
    (q.dropWhile (· = .comment)).head? = some (.word "SELECT") := by
  induction h with
  | fromTable hlist htable hfilter hgroups => rfl
  | fromQuery hlist hq hname hfilter hgroups => rfl
  | fromJoin hlist hq hleft hjoin hq' hright hon hfilter hgroups => rfl
  | @union queries hcount h ih =>
    obtain ⟨q, rest, rfl⟩ := List.exists_cons_of_ne_nil
      (List.ne_nil_of_length_pos (by omega : 0 < queries.length))
    have hq := ih q List.mem_cons_self
    obtain ⟨after, hafter⟩ : ∃ after, Query.union (q :: rest) = .comment :: (q ++ after) := by
      cases rest with
      | nil => exact ⟨[], by simp [Query.union]⟩
      | cons q' rest =>
        exact ⟨_, by
          simp only [Query.union, List.map_cons, List.intercalate_cons_cons, List.cons_append,
            List.append_assoc]
          rfl⟩
    -- Below the first comment the first of the queries begins.
    have hne : (q.dropWhile (· = .comment)).isEmpty = false := by
      cases hdrop : q.dropWhile (· = .comment) with
      | nil => simp [hdrop] at hq
      | cons l ls => rfl
    rw [hafter, List.dropWhile_cons_of_pos (by simp), List.dropWhile_append, hne]
    simp [List.head?_append, hq]

/-! ### Nothing is created within a query -/

/-- Nowhere do the first two words of the creation of a view stand next to each other. -/
def CreatesNothing (ls : List Lexeme) : Prop :=
  ls.IsChain fun l l' => ¬ (l = .word "CREATE" ∧ l' = .word "OR")

/-- A lexeme that is neither of these two words. -/
def isNeutral (l : Lexeme) : Bool := l ≠ .word "CREATE" && l ≠ .word "OR"

section CreatesNothing

variable {xs ys ls : List Lexeme} {l : Lexeme}

theorem isNeutral_iff : isNeutral l = true ↔ l ≠ .word "CREATE" ∧ l ≠ .word "OR" := by
  simp [isNeutral]

@[simp] theorem createsNothing_nil : CreatesNothing [] := .nil

@[simp] theorem createsNothing_singleton (l : Lexeme) : CreatesNothing [l] := .singleton l

/-- A lexeme in front matters only if it is the first of the two words. -/
theorem createsNothing_cons (hl : l ≠ .word "CREATE") :
    CreatesNothing (l :: ls) ↔ CreatesNothing ls := by
  simp [CreatesNothing, List.isChain_cons, hl]

/-- A neutral lexeme keeps what is on its two sides apart. -/
theorem createsNothing_append_cons (hl : isNeutral l = true) :
    CreatesNothing (xs ++ l :: ys) ↔ CreatesNothing xs ∧ CreatesNothing ys := by
  obtain ⟨hcreate, hor⟩ := isNeutral_iff.mp hl
  rw [CreatesNothing, List.isChain_append]
  change _ ∧ CreatesNothing (l :: ys) ∧ _ ↔ _
  rw [createsNothing_cons hcreate]
  simp [CreatesNothing, hor]

/-- A neutral lexeme keeps what is behind it apart from a name before it. -/
theorem createsNothing_cons_cons {l' : Lexeme} (hl : isNeutral l = true) :
    CreatesNothing (l' :: l :: ls) ↔ CreatesNothing ls := by
  have happend : CreatesNothing ([l'] ++ l :: ls) ↔ CreatesNothing [l'] ∧ CreatesNothing ls :=
    createsNothing_append_cons hl
  simpa using happend

/-- Neutral lexemes keep what is on their two sides apart. -/
theorem createsNothing_between (hne : ls ≠ []) (h : ∀ l ∈ ls, isNeutral l = true) :
    CreatesNothing (xs ++ (ls ++ ys)) ↔ CreatesNothing xs ∧ CreatesNothing ys := by
  obtain ⟨l, ls, rfl⟩ := List.exists_cons_of_ne_nil hne
  rw [List.forall_mem_cons] at h
  have hrest : CreatesNothing (ls ++ ys) ↔ CreatesNothing ys := by
    clear hne
    induction ls with
    | nil => rfl
    | cons l' ls ih =>
      have h' := List.forall_mem_cons.mp h.2
      rw [List.cons_append, createsNothing_cons (isNeutral_iff.mp h'.1).1]
      exact ih ⟨h.1, h'.2⟩
  rw [List.cons_append, createsNothing_append_cons h.1, hrest]

/-- A clause that may be missing stands apart from what is before it. -/
theorem createsNothing_append_clause
    (h : ys = [] ∨ ∃ l rest, ys = l :: rest ∧ isNeutral l = true) :
    CreatesNothing (xs ++ ys) ↔ CreatesNothing xs ∧ CreatesNothing ys := by
  rcases h with rfl | ⟨l, rest, rfl, hl⟩
  · simp
  · rw [createsNothing_append_cons hl, createsNothing_cons (isNeutral_iff.mp hl).1]

/-- Parts that create nothing create nothing as a list, if something neutral separates them. -/
theorem createsNothing_intercalate (hne : ls ≠ []) (h : ∀ l ∈ ls, isNeutral l = true)
    {parts : List (List Lexeme)} (hparts : ∀ part ∈ parts, CreatesNothing part) :
    CreatesNothing (ls.intercalate parts) := by
  induction parts with
  | nil => simp
  | cons part rest ih =>
    rw [List.forall_mem_cons] at hparts
    cases rest with
    | nil => simpa using hparts.1
    | cons part' rest =>
      rw [List.intercalate_cons_cons, List.append_assoc, createsNothing_between hne h]
      exact ⟨hparts.1, ih hparts.2⟩

end CreatesNothing

/-- A value creates nothing: its words are literals and constants, and parentheses and commas stand
    around them. -/
theorem IsValue.createsNothing {v : List Lexeme} (h : IsValue v) : CreatesNothing v := by
  induction h with
  | literal | number | constant => exact createsNothing_singleton _
  | list _ ih =>
    rw [createsNothing_cons (by decide), createsNothing_append_cons (by decide)]
    exact ⟨createsNothing_intercalate (by simp) (by decide) ih, createsNothing_nil⟩

/-- An operand creates nothing, for a name stands alone in it. -/
theorem IsOperand.createsNothing {ls : List Lexeme} (h : IsOperand ls) : CreatesNothing ls := by
  cases h with
  | name => exact createsNothing_singleton _
  | value hv => exact hv.createsNothing

/-- A comparison creates nothing. -/
theorem IsCondition.createsNothing {ls : List Lexeme} (h : IsCondition ls) :
    CreatesNothing ls := by
  cases h with
  | @unary s op hs hop =>
    have hall : ∀ op ∈ unaryOperators, op ≠ [] ∧ ∀ l ∈ op, isNeutral l = true := by decide
    obtain ⟨hne, hneutral⟩ := hall op hop
    -- The name may be one of the two words, but the operator behind it is not.
    have hbetween : CreatesNothing ([.word s] ++ (op ++ [])) ↔ _ :=
      createsNothing_between hne hneutral
    simpa using hbetween
  | @binary l op r hl hop hr =>
    have hall : ∀ op ∈ binaryOperators, op ≠ [] ∧ ∀ l ∈ op, isNeutral l = true := by decide
    obtain ⟨hne, hneutral⟩ := hall op hop
    rw [createsNothing_between hne hneutral]
    exact ⟨hl.createsNothing, hr.createsNothing⟩

/-- Conditions with `AND` between them create nothing. -/
theorem IsPredicate.createsNothing {ls : List Lexeme} (h : IsPredicate ls) :
    CreatesNothing ls := by
  obtain ⟨conditions, -, hconditions, rfl⟩ := h
  exact createsNothing_intercalate (by simp) (by decide)
    fun c hc => (hconditions c hc).createsNothing

/-- An item of a select list creates nothing. -/
theorem IsItem.createsNothing {ls : List Lexeme} (h : IsItem ls) : CreatesNothing ls := by
  cases h with
  | column => exact createsNothing_singleton _
  | parameter hcolumn hname =>
    rw [createsNothing_cons (by decide), createsNothing_cons (by decide),
      createsNothing_cons_cons (by decide), createsNothing_cons (by decide),
      createsNothing_cons (by decide), createsNothing_cons (by decide)]
    exact createsNothing_singleton _
  | aggregation hfunction hqualifier hargument hname =>
    -- The argument may be named as it likes, since a parenthesis stands behind it.
    have hrest : ∀ argument name : String, CreatesNothing
        [.word argument, .closing, .word "AS", .word name] := by
      intro argument name
      rw [createsNothing_cons_cons (by decide), createsNothing_cons (by decide)]
      exact createsNothing_singleton _
    rw [createsNothing_cons_cons (by decide)]
    rcases List.mem_cons.mp hqualifier with rfl | hdistinct
    · exact hrest _ _
    · obtain rfl := List.mem_singleton.mp hdistinct
      rw [List.singleton_append, createsNothing_cons (by decide)]
      exact hrest _ _

/-- A select list creates nothing. -/
theorem IsSelectList.createsNothing {ls : List Lexeme} (h : IsSelectList ls) :
    CreatesNothing ls := by
  rcases h with rfl | ⟨items, -, hitems, rfl⟩
  · exact createsNothing_singleton _
  · exact createsNothing_intercalate (by simp) (by decide)
      fun item hitem => (hitems item hitem).createsNothing

/-- A condition on the rows creates nothing. -/
theorem IsFilter.createsNothing {ls : List Lexeme} (h : IsFilter ls) : CreatesNothing ls := by
  rcases h with rfl | ⟨p, hp, rfl⟩
  · exact createsNothing_nil
  · rw [createsNothing_cons (by decide)]
    exact hp.createsNothing

/-- A grouping creates nothing, whatever its columns are called. -/
theorem IsGrouping.createsNothing {ls : List Lexeme} (h : IsGrouping ls) : CreatesNothing ls := by
  rcases h with rfl | ⟨names, -, -, rfl⟩
  · exact createsNothing_nil
  · rw [createsNothing_cons (by decide), createsNothing_cons (by decide)]
    refine createsNothing_intercalate (by simp) (by decide) fun part hpart => ?_
    obtain ⟨name, -, rfl⟩ := List.mem_map.mp hpart
    exact createsNothing_singleton _

/-- A query in parentheses creates nothing if the query does not. -/
theorem createsNothing_derived {q : List Lexeme} (h : CreatesNothing q) (name : String) :
    CreatesNothing (derived q name) := by
  rw [derived, createsNothing_cons (by decide), createsNothing_append_cons (by decide),
    createsNothing_cons (by decide)]
  exact ⟨h, createsNothing_singleton _⟩

/-- A selection creates nothing if its source does not. -/
theorem createsNothing_selection {list source filter groups : List Lexeme}
    (hlist : IsSelectList list) (hsource : CreatesNothing source) (hfilter : IsFilter filter)
    (hgroups : IsGrouping groups) : CreatesNothing (selection list source filter groups) := by
  have hgroups' : groups = [] ∨ ∃ l rest, groups = l :: rest ∧ isNeutral l = true := by
    rcases hgroups with rfl | ⟨names, -, -, rfl⟩
    · exact Or.inl rfl
    · exact Or.inr ⟨_, _, rfl, by decide⟩
  -- The clauses behind the source begin with words of their own, if there are any.
  have hclauses : filter ++ groups = [] ∨
      ∃ l rest, filter ++ groups = l :: rest ∧ isNeutral l = true := by
    rcases hfilter with rfl | ⟨p, -, rfl⟩
    · exact hgroups'
    · exact Or.inr ⟨_, _, rfl, by decide⟩
  rw [selection, createsNothing_cons (by decide), createsNothing_append_cons (by decide),
    createsNothing_append_clause hclauses, createsNothing_append_clause hgroups']
  exact ⟨hlist.createsNothing, hsource, hfilter.createsNothing, hgroups.createsNothing⟩

/-- Whatever its names are, a query does not create anything. -/
theorem IsQuery.createsNothing {q : List Lexeme} (h : IsQuery q) : CreatesNothing q := by
  induction h with
  | fromTable hlist htable hfilter hgroups =>
    exact createsNothing_selection hlist (createsNothing_singleton _) hfilter hgroups
  | @fromQuery list q filter groups name hlist hq hname hfilter hgroups ih =>
    exact createsNothing_selection hlist (createsNothing_derived ih name) hfilter hgroups
  | @fromJoin list q q' join on filter groups left right hlist hq hleft hjoin hq' hright hon
      hfilter hgroups ih ih' =>
    -- The words of a join stand between its two sides.
    have hall : ∀ join ∈ joins, join ≠ [] ∧ ∀ l ∈ join, isNeutral l = true := by decide
    obtain ⟨hne, hneutral⟩ := hall join hjoin
    refine createsNothing_selection hlist ?_ hfilter hgroups
    rw [createsNothing_between hne hneutral, createsNothing_append_cons (by decide)]
    exact ⟨createsNothing_derived ih left, createsNothing_derived ih' right, hon.createsNothing⟩
  | @union queries hcount h ih =>
    refine createsNothing_intercalate (by simp) (by decide) fun part hpart => ?_
    obtain ⟨q, hq, rfl⟩ := List.mem_map.mp hpart
    rw [createsNothing_cons (by decide)]
    exact ih q hq

/-- A statement begins with the creation of a view, and there is no other one in it. -/
theorem IsStatement.opens_once {ls : List Lexeme} (h : IsStatement ls) :
    createView <+: ls ∧ ¬ createView <:+: ls.tail := by
  obtain ⟨space, view, q, -, -, hq, rfl⟩ := h
  refine ⟨List.prefix_append _ _, fun hinfix => ?_⟩
  -- Behind its first word a statement goes on with other words, a name and a query.
  have htail : CreatesNothing (.word "OR" :: .word "REPLACE" :: .word "VIEW" ::
      ([.word (space ++ "." ++ view)] ++ .word "AS" :: q)) := by
    rw [createsNothing_cons (by decide), createsNothing_cons (by decide),
      createsNothing_cons (by decide), createsNothing_append_cons (by decide)]
    exact ⟨createsNothing_singleton _, hq.createsNothing⟩
  have hcreate : CreatesNothing createView := htail.infix hinfix
  simp [CreatesNothing, createView] at hcreate

end QueryGraph.Query
