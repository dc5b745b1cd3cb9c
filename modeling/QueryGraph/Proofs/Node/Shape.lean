import QueryGraph.Node.Compile

namespace QueryGraph

/-!
# What query texts are put together from

* `configuredNames`: the names of tables, columns, aliases and views that queries take over as
  they are.
* `derivedTable_eq`, `Event.parameterItem_eq`, `Aggregate.item_eq`: where the parentheses of a
  text are.
* `UnionAll.header`, `UnionAll.block_eq`: the comment above an input of a union.
-/

/-! ### Names -/

/-- The names in the settings. -/
def Settings.names (s : Settings) : List String :=
  s.eventsTable :: s.parametersColumn :: s.namespaceStem :: s.leftAlias :: s.rightAlias ::
    s.subqueryAlias :: s.fallbackColumns

/-- The names in a configuration.  Names that may be left open count as they are read, without
    the blank characters around them. -/
def Content.names : Content → List String
  | .event config => config.fields.map EventField.name
  | .unionAll => []
  | .join config =>
    config.conditions.flatMap fun c =>
      if c.operator.isUnary then [c.left] else [c.left, c.right]
  | .filter config => config.conditions.map FilterCondition.field
  | .aggregate config =>
    config.groupBy ++ config.aggregations.flatMap fun a => a.name :: (Aggregate.field? a).toList
  | .output config => (Text.content? config.viewName).toList

/-- The names that the queries of a snapshot take over as they are.  The names of events, the
    paths into their parameters and the values that filters compare with are not among them. -/
def configuredNames (settings : Settings) (context : Context) (nodes : List Node) : List String :=
  context.database :: (settings.names ++ nodes.flatMap fun n => n.content.names)

section Names

variable {settings : Settings} {context : Context} {nodes : List Node} {P : String → Prop}

/-- What holds of the names of a snapshot holds of those that a single node sees. -/
theorem forall_names_of_mem {n : Node} (hn : n ∈ nodes)
    (h : ∀ name ∈ configuredNames settings context nodes, P name) :
    ∀ name ∈ configuredNames settings context [n], P name := by
  intro name hname
  refine h name ?_
  simp only [configuredNames, List.mem_cons, List.mem_append, List.mem_flatMap] at hname ⊢
  rcases hname with hname | hname | ⟨m, hm, hname⟩
  · exact Or.inl hname
  · exact Or.inr (Or.inl hname)
  · obtain rfl : m = n := by simpa using hm
    exact Or.inr (Or.inr ⟨m, hn, hname⟩)

variable (h : ∀ name ∈ configuredNames settings context nodes, P name)

include h

theorem names_database : P context.database := h _ List.mem_cons_self

theorem names_settings : ∀ name ∈ settings.names, P name :=
  fun name hname => h name (List.mem_cons_of_mem _ (List.mem_append_left _ hname))

theorem names_content : ∀ n ∈ nodes, ∀ name ∈ n.content.names, P name :=
  fun n hn name hname => h name
    (List.mem_cons_of_mem _ (List.mem_append_right _ (List.mem_flatMap.mpr ⟨n, hn, hname⟩)))

end Names

/-! ### Parentheses -/

/-- The table as parentheses around the indented text, with the alias behind them. -/
theorem derivedTable_eq (text name : String) :
    derivedTable text name
      = "(" ++ ("\n" ++ Text.indent text ++ "\n") ++ ")" ++ (" AS " ++ name) := by
  have hopen : "(\n" = "(" ++ "\n" := rfl
  have hclose : "\n) AS " = "\n" ++ (")" ++ " AS ") := rfl
  rw [derivedTable, hopen, hclose]
  simp only [String.append_assoc]

/-- The item of a field that is read from the parameters. -/
theorem Event.parameterItem_eq (settings : Settings) (name path : String) :
    Event.item settings ⟨name, .parameter path⟩
      = "JSON_VALUE" ++
          ("(" ++ (settings.parametersColumn ++ ", " ++ Text.quote (Event.rootedPath path)) ++
            ")") ++ (" AS " ++ name) := by
  have hopen : "JSON_VALUE(" = "JSON_VALUE" ++ "(" := rfl
  have hclose : ") AS " = ")" ++ " AS " := rfl
  rw [Event.item, hopen, hclose]
  simp only [String.append_assoc]

/-- The name of a function. -/
def AggregateFunction.callee : AggregateFunction → String
  | .count | .countDistinct => "count"
  | .sum => "sum"
  | .avg => "avg"
  | .min => "min"
  | .max => "max"

/-- What stands before the argument within the parentheses. -/
def AggregateFunction.qualifier : AggregateFunction → String
  | .countDistinct => "DISTINCT "
  | _ => ""

/-- A call opens with the name of the function; the qualifier stands within the parentheses. -/
theorem AggregateFunction.opening_eq (f : AggregateFunction) :
    f.opening = f.callee ++ "(" ++ f.qualifier := by
  cases f <;> rfl

/-- The item as a call with its argument in parentheses, and the alias behind them. -/
theorem Aggregate.item_eq (a : Aggregation) :
    Aggregate.item a
      = a.function.callee ++
          ("(" ++ (a.function.qualifier ++ (Aggregate.field? a).getD "*") ++ ")") ++
          (" AS " ++ a.name) := by
  rw [Aggregate.item, AggregateFunction.apply, AggregateFunction.opening_eq]
  simp only [String.append_assoc]

/-! ### Numbers and comments -/

/-- A natural number is written in digits. -/
theorem isDigit_of_mem_toString {n : Nat} {c : Char} (h : c ∈ (toString n).toList) :
    c.isDigit = true := by
  rw [Nat.toString_eq_repr, Nat.toList_repr] at h
  exact Nat.isDigit_of_mem_toDigits (by decide) (by decide) h

/-- The comment above an input of a union, without the hyphens. -/
def UnionAll.header (position : Nat) (input : Input) : String :=
  " input " ++ toString position ++ ": " ++ input.fragment.kind.displayName ++ " (" ++
    input.node.text ++ ")"

/-- A block is a comment on a line of its own, and the input below it. -/
theorem UnionAll.block_eq (position : Nat) (input : Input) :
    block position input = "--" ++ header position input ++ "\n" ++ input.text := by
  have hhyphens : "-- input " = "--" ++ " input " := rfl
  have hfeed : ")\n" = ")" ++ "\n" := rfl
  show "-- input " ++ toString position ++ ": " ++ input.fragment.kind.displayName ++ " (" ++
    input.node.text ++ ")\n" ++ input.text = _
  rw [hhyphens, hfeed]
  simp only [header, String.append_assoc]

/-- If the name of the input is on one line, then so is the comment. -/
theorem UnionAll.feed_not_mem_header {input : Input} (h : '\n' ∉ input.node.text.toList)
    (position : Nat) : '\n' ∉ (header position input).toList := by
  have hposition : '\n' ∉ (toString position).toList := by
    intro hmem
    exact absurd (isDigit_of_mem_toString hmem) (by decide)
  have hkind : '\n' ∉ input.fragment.kind.displayName.toList := by
    cases input.fragment.kind <;> decide
  simp only [header, String.toList_append, List.mem_append, not_or]
  exact ⟨⟨⟨⟨⟨⟨by decide, hposition⟩, by decide⟩, hkind⟩, by decide⟩, h⟩, by decide⟩

end QueryGraph
