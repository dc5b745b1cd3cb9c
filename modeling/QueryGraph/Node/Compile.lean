import QueryGraph.Node.Failure
import QueryGraph.Query.Fragment
import QueryGraph.Query.Literal
import QueryGraph.Query.Settings
import QueryGraph.Text.Blank
import QueryGraph.Text.Quoted

namespace QueryGraph

/-!
# From a node to its fragment

* `Event.fragment`, `UnionAll.fragment`, `Join.fragment`, `Filter.fragment`,
  `Aggregate.fragment`, `Output.fragment`: the fragment of a node of each kind.
* `Node.checkArity`: whether a node has as many inputs as it takes.
* `Node.fragment?`: the fragment of a node that looks its inputs up by position, with no result if
  one is not there.
* `Node.compile?`, `Node.compile`: the fragment of a node, or why it has none.  The number of its
  inputs is checked first, so there is always a result.
-/

/-! ### Events -/

namespace Event

/-- A path into the parameters, which starts at `$`. -/
def rootedPath (path : String) : String :=
  if path.toList.head? = some '$' then path else "$." ++ path

/-- An item of the select list. -/
def item (settings : Settings) (f : EventField) : String :=
  match f.source with
  | .column => f.name
  | .parameter path =>
    "JSON_VALUE(" ++ settings.parametersColumn ++ ", " ++ Text.quote (rootedPath path) ++
      ") AS " ++ f.name

/-- The select list: the fields, or the fallback columns if there are none. -/
def items (settings : Settings) (config : EventConfig) : List String :=
  if config.fields.isEmpty then settings.fallbackColumns
  else config.fields.map (item settings)

/-- The condition on the event name, if there is one. -/
def condition (eventName : Option String) : String :=
  match Text.content? eventName with
  | none => ""
  | some name => "\nWHERE event_name = " ++ Text.quote name

/-- A selection from the events table. -/
def fragment (settings : Settings) (context : Context) (config : EventConfig) : Fragment where
  kind := .event
  text :=
    "SELECT\n" ++ selectList (items settings config) ++ "\nFROM " ++ context.database ++ "." ++
      settings.eventsTable ++ condition config.eventName
  metadata :=
    .event (Text.content? config.eventName) (items settings config).length config.fields.isEmpty

end Event

/-! ### Unions -/

namespace UnionAll

/-- An input below a comment that says where it comes from. -/
def block (position : Nat) (input : Input) : String :=
  "-- input " ++ toString position ++ ": " ++ input.fragment.kind.displayName ++ " (" ++
    input.node.text ++ ")\n" ++ input.text

/-- The blocks of all inputs, numbered from a position on. -/
def blocks : Nat → List Input → List String
  | _, [] => []
  | position, i :: rest => block position i :: blocks (position + 1) rest

/-- All inputs, one after the other. -/
def fragment (inputs : List Input) : Fragment where
  kind := .unionAll
  text := "\nUNION ALL\n".intercalate (blocks 1 inputs)
  metadata := .unionAll inputs.length

end UnionAll

/-! ### Joins -/

namespace Join

/-- The first input that comes through a handle. -/
def throughHandle (handle : String) (inputs : List Input) : Option Input :=
  inputs.find? fun i => i.handle = some handle

/-- The left and the right input: by handle if both handles are used, else the first and the
    second one.  There is nothing at a position behind the last input. -/
def sides? (inputs : List Input) : Option (Input × Input) :=
  match throughHandle leftHandle inputs, throughHandle rightHandle inputs with
  | some left, some right => some (left, right)
  | _, _ =>
    match inputs[0]?, inputs[1]? with
    | some first, some second => some (first, second)
    | _, _ => none

/-- Two inputs have two sides. -/
theorem isSome_sides? {inputs : List Input} (h : 2 ≤ inputs.length) :
    (sides? inputs).isSome := by
  rw [sides?, List.getElem?_eq_getElem (by omega), List.getElem?_eq_getElem (by omega)]
  split <;> rfl

/-- A join condition. -/
def condition (c : JoinCondition) : String :=
  if c.operator.isUnary then c.left ++ " " ++ c.operator.symbol
  else c.left ++ " " ++ c.operator.symbol ++ " " ++ c.right

/-- Two inputs joined on all conditions. -/
def fragment (settings : Settings) (config : JoinConfig) (left right : Input) : Fragment where
  kind := .join
  text :=
    "SELECT *\nFROM " ++ derivedTable left.text settings.leftAlias ++ "\n" ++
      (config.joinType.getD .inner).keyword ++ " " ++
      derivedTable right.text settings.rightAlias ++ "\nON " ++
      " AND ".intercalate (config.conditions.map condition)
  metadata := .join (config.joinType.getD .inner) config.conditions.length

end Join

/-! ### Filters -/

namespace Filter

/-- A set comparison against nothing, which has no text. -/
def comparesWithNothing (c : FilterCondition) : Bool :=
  c.operator.isSet &&
    match c.value with
    | .array items => items.isEmpty
    | .null => true
    | _ => false

/-- The right-hand side of a comparison; that of a set comparison stands in parentheses. -/
def operand (c : FilterCondition) : String :=
  match c.value, c.operator.isSet with
  | .array items, _ => Query.literal (.array items)
  | v, false => Query.literal v
  | v, true => "(" ++ Query.literal v ++ ")"

/-- A filter condition. -/
def condition (c : FilterCondition) : String :=
  if c.operator.isUnary then c.field ++ " " ++ c.operator.symbol
  else c.field ++ " " ++ c.operator.symbol ++ " " ++ operand c

/-- All conditions together; without any, one that always holds. -/
def predicate (config : FilterConfig) : String :=
  if config.isPassthrough then "1 = 1"
  else " AND ".intercalate (config.conditions.map condition)

/-- The rows of an input that satisfy all conditions. -/
def fragment (settings : Settings) (config : FilterConfig) (input : Input) : Fragment where
  kind := .filter
  text :=
    "SELECT *\nFROM " ++ derivedTable input.text settings.subqueryAlias ++ "\nWHERE " ++
      predicate config
  metadata := .filter config.conditions.length

end Filter

/-! ### Aggregates -/

namespace Aggregate

/-- The field of an aggregation; a blank one counts as left open. -/
def field? (a : Aggregation) : Option String := Text.content? a.field

/-- A function that needs a field and has none. -/
def lacksField (a : Aggregation) : Bool := a.function.requiresField && (field? a).isNone

/-- An aggregation as an item of the select list. -/
def item (a : Aggregation) : String := a.function.apply (field? a) ++ " AS " ++ a.name

/-- The select list: the grouping fields, then the aggregations. -/
def items (config : AggregateConfig) : List String :=
  config.groupBy ++ config.aggregations.map item

/-- The select clause; without items, of all columns. -/
def selection (config : AggregateConfig) : String :=
  if (items config).isEmpty then "SELECT *" else "SELECT\n" ++ selectList (items config)

/-- The grouping clause, if there is one. -/
def grouping (config : AggregateConfig) : String :=
  if config.groupBy.isEmpty then "" else "\nGROUP BY " ++ ", ".intercalate config.groupBy

/-- The groups of an input with their aggregates. -/
def fragment (settings : Settings) (config : AggregateConfig) (input : Input) : Fragment where
  kind := .aggregate
  text :=
    selection config ++ "\nFROM " ++ derivedTable input.text settings.subqueryAlias ++
      grouping config
  metadata := .aggregate config.groupBy config.aggregations.length

end Aggregate

/-! ### Outputs -/

namespace Output

/-- A view on an input, in the namespace of the game. -/
def fragment (settings : Settings) (context : Context) (viewName : String) (input : Input) :
    Fragment where
  kind := .output
  text :=
    "CREATE OR REPLACE VIEW " ++ settings.namespaceFor context.game ++ "." ++ viewName ++
      " AS\n" ++ input.text
  metadata := .output viewName (settings.namespaceFor context.game)

end Output

/-! ### Any node -/

/-- What a configuration must have and lacks. -/
def Content.missing? : Content → Option String
  | .event _ | .unionAll => none
  | .join config => if config.conditions.isEmpty then some "join condition" else none
  | .filter config =>
    if config.conditions.any Filter.comparesWithNothing then some "IN list" else none
  | .aggregate config =>
    if config.aggregations.any Aggregate.lacksField then some "aggregate field" else none
  | .output config =>
    if (Text.content? config.viewName).isNone then some "view name" else none

namespace Node

/-- Whether a node has as many inputs as its kind takes. -/
def checkArity (n : Node) (found : Nat) : Except NodeFailure Unit :=
  if n.kind.arity.accepts found then .ok ()
  else .error (.arity n.id n.kind n.kind.arity found)

/-- The failure of a node that lacks a part of its configuration. -/
def lacking (n : Node) (field : String) : NodeFailure := .missingConfig n.id n.kind field

/-- A fragment, unless the configuration of its node lacks something. -/
def unlessLacking (n : Node) (f : Fragment) : Except NodeFailure Fragment :=
  match n.content.missing? with
  | some field => .error (n.lacking field)
  | none => .ok f

/-- The fragment of a node whose number of inputs is not checked here.  A kind that takes a fixed
    number looks its inputs up by position, and there is no result at all if a position is behind
    the last input.  A join looks at its inputs only when its configuration is complete. -/
def fragment? (settings : Settings) (context : Context) (n : Node) (inputs : List Input) :
    Option (Except NodeFailure Fragment) :=
  match n.content with
  | .event config => some (.ok (Event.fragment settings context config))
  | .unionAll => some (.ok (UnionAll.fragment inputs))
  | .join config =>
    match n.content.missing? with
    | some field => some (.error (n.lacking field))
    | none =>
      (Join.sides? inputs).map fun sides => .ok (Join.fragment settings config sides.1 sides.2)
  | .filter config =>
    inputs[0]?.map fun input => n.unlessLacking (Filter.fragment settings config input)
  | .aggregate config =>
    inputs[0]?.map fun input => n.unlessLacking (Aggregate.fragment settings config input)
  | .output config =>
    inputs[0]?.map fun input =>
      match Text.content? config.viewName with
      | some name => .ok (Output.fragment settings context name input)
      | none => .error (n.lacking "view name")

/-- The fragment of a node on its inputs.  The number of inputs is checked first. -/
def compile? (settings : Settings) (context : Context) (n : Node) (inputs : List Input) :
    Option (Except NodeFailure Fragment) :=
  match n.checkArity inputs.length with
  | .error e => some (.error e)
  | .ok _ => n.fragment? settings context inputs

/-- With as many inputs as its kind takes, a node looks at no position behind the last one. -/
theorem isSome_fragment? (settings : Settings) (context : Context) {n : Node}
    {inputs : List Input} (h : n.kind.arity.accepts inputs.length = true) :
    (n.fragment? settings context inputs).isSome := by
  obtain ⟨id, content⟩ := n
  cases content with
  | event config => rfl
  | unionAll => rfl
  | join config =>
    have hcount : inputs.length = 2 := of_decide_eq_true h
    simp only [fragment?]
    split
    · rfl
    · rw [Option.isSome_map]
      exact Join.isSome_sides? (by omega)
  | filter config | aggregate config | output config =>
    have hcount : inputs.length = 1 := of_decide_eq_true h
    simp only [fragment?]
    rw [List.getElem?_eq_getElem (by omega)]
    rfl

/-- The check of the number of inputs is what keeps a node to the inputs that are there. -/
theorem isSome_compile? (settings : Settings) (context : Context) (n : Node)
    (inputs : List Input) : (n.compile? settings context inputs).isSome := by
  rw [compile?, checkArity]
  by_cases h : n.kind.arity.accepts inputs.length = true
  · rw [if_pos h]
    exact isSome_fragment? settings context h
  · rw [if_neg h]
    rfl

/-- The result for a node on its inputs, which is always there. -/
def compile (settings : Settings) (context : Context) (n : Node) (inputs : List Input) :
    Except NodeFailure Fragment :=
  (n.compile? settings context inputs).get (n.isSome_compile? settings context inputs)

end Node

end QueryGraph
