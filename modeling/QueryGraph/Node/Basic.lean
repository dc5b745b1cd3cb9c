import QueryGraph.Json.Basic
import QueryGraph.Node.Kind
import QueryGraph.Query.Operator

namespace QueryGraph

/-!
# Nodes and edges

* `NodeId`, `EdgeId`: opaque names handed out by an editor.
* `EventConfig`, `JoinConfig`, `FilterConfig`, `AggregateConfig`, `OutputConfig`: what can be
  configured about a node, one type for each kind that has anything to configure.
* `Content`: a kind together with its configuration.
* `Node`, `Edge`, `Context`: the parts of a graph snapshot.
-/

/-- The name of a node. -/
structure NodeId where
  text : String
deriving DecidableEq

/-- The name of an edge. -/
structure EdgeId where
  text : String
deriving DecidableEq

instance : Inhabited NodeId := ⟨⟨""⟩⟩

/-! ### Configurations -/

/-- Where a field of an event comes from: a column of its own, or a path into the parameters. -/
inductive FieldSource where
  | column
  | parameter (path : String)
deriving DecidableEq

/-- A field that an event node selects. -/
structure EventField where
  name : String
  source : FieldSource
deriving DecidableEq

/-- The configuration of an event node. -/
structure EventConfig where
  eventName : Option String
  fields : List EventField
deriving DecidableEq

/-- A condition between the two sides of a join. -/
structure JoinCondition where
  left : String
  operator : Comparison
  right : String
deriving DecidableEq

/-- The configuration of a join node; an inner join if the type is left open. -/
structure JoinConfig where
  joinType : Option JoinType
  conditions : List JoinCondition
deriving DecidableEq

/-- A condition of a filter. -/
structure FilterCondition where
  field : String
  operator : Comparison
  value : Json

/-- The configuration of a filter node. -/
structure FilterConfig where
  conditions : List FilterCondition

/-- A filter without conditions lets every row pass. -/
def FilterConfig.isPassthrough (c : FilterConfig) : Bool := c.conditions.isEmpty

/-- A function applied to a field, under a name. -/
structure Aggregation where
  function : AggregateFunction
  field : Option String
  name : String
deriving DecidableEq

/-- The configuration of an aggregate node. -/
structure AggregateConfig where
  groupBy : List String
  aggregations : List Aggregation
deriving DecidableEq

/-- The configuration of an output node. -/
structure OutputConfig where
  viewName : Option String
deriving DecidableEq

/-! ### Nodes -/

/-- The kind of a node with its configuration. -/
inductive Content where
  | event (config : EventConfig)
  | unionAll
  | join (config : JoinConfig)
  | filter (config : FilterConfig)
  | aggregate (config : AggregateConfig)
  | output (config : OutputConfig)

/-- The kind alone. -/
def Content.kind : Content → Kind
  | .event _ => .event
  | .unionAll => .unionAll
  | .join _ => .join
  | .filter _ => .filter
  | .aggregate _ => .aggregate
  | .output _ => .output

/-- A node of a graph. -/
structure Node where
  id : NodeId
  content : Content

/-- The kind of a node. -/
def Node.kind (n : Node) : Kind := n.content.kind

/-- The first node with an id. -/
def Node.find? (nodes : List Node) (id : NodeId) : Option Node := nodes.find? fun n => n.id = id

/-- An edge carries the output of its source into its target.  Handles name the sockets it is
    attached to. -/
structure Edge where
  id : Option EdgeId
  source : NodeId
  target : NodeId
  sourceHandle : Option String
  targetHandle : Option String
deriving DecidableEq

/-- Whether an end of the edge is a node. -/
def Edge.touches (e : Edge) (id : NodeId) : Bool := e.source = id || e.target = id

/-- What surrounds a graph: the database that holds the events, and the number of the game,
    which determines where views are created. -/
structure Context where
  database : String
  game : UInt64
deriving DecidableEq

end QueryGraph
