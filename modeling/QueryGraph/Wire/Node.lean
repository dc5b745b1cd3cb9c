import QueryGraph.Codec.Variant
import QueryGraph.Node.Basic

namespace QueryGraph.Wire

/-!
# Nodes and edges in documents

* `comparison`, `joinType`, `aggregateFunction`, `kind`: enumerations by name.
* `eventConfig`, `joinConfig`, `filterConfig`, `aggregateConfig`, `outputConfig`: the
  configurations; every field of theirs may be left out.
* `node`: a node is an object with `id`, `kind` and `config`.  It is read as a whole before its
  kind is known, so `kind` and `config` may come in either order.
* `edge`, `context`: edges and the surroundings of a graph.
-/

open Json (Tree Ending Key)

/-! ### Enumerations -/

/-- All comparisons. -/
def comparisons : List Comparison :=
  [.eq, .ne, .lt, .le, .gt, .ge, .like, .notLike, .inSet, .notInSet, .isNull, .isNotNull]

/-- The name of a comparison. -/
def comparisonName : Comparison → String
  | .eq => "eq"
  | .ne => "ne"
  | .lt => "lt"
  | .le => "le"
  | .gt => "gt"
  | .ge => "ge"
  | .like => "like"
  | .notLike => "not_like"
  | .inSet => "in"
  | .notInSet => "not_in"
  | .isNull => "is_null"
  | .isNotNull => "is_not_null"

/-- The accepted names of a comparison: its name and its symbols. -/
def comparisonNames : Comparison → List String
  | .eq => ["=", "==", "eq"]
  | .ne => ["!=", "<>", "ne"]
  | .lt => ["<", "lt"]
  | .le => ["<=", "le"]
  | .gt => [">", "gt"]
  | .ge => [">=", "ge"]
  | c => [comparisonName c]

/-- Comparisons. -/
def comparison : Codec Comparison := Codec.names comparisons comparisonName comparisonNames

/-- Enumerations with one name for each value. -/
def named (values : List α) (name : α → String) : Codec α :=
  Codec.names values name fun v => [name v]

/-- Join types. -/
def joinType : Codec JoinType := named [.inner, .left, .right, .full] JoinType.name

/-- The name of an aggregate function. -/
def aggregateFunctionName : AggregateFunction → String
  | .count => "count"
  | .countDistinct => "count_distinct"
  | .sum => "sum"
  | .avg => "avg"
  | .min => "min"
  | .max => "max"

/-- Aggregate functions. -/
def aggregateFunction : Codec AggregateFunction :=
  named [.count, .countDistinct, .sum, .avg, .min, .max] aggregateFunctionName

/-- Kinds of nodes. -/
def kind : Codec Kind := named Kind.all Kind.name

/-! ### Ids -/

/-- Node ids are texts. -/
def nodeId : Codec NodeId := Codec.string.convert NodeId.text NodeId.mk

/-- Edge ids are texts. -/
def edgeId : Codec EdgeId := Codec.string.convert EdgeId.text EdgeId.mk

/-! ### Configurations -/

/-- A path into the parameters. -/
def parameterRecord : Record String where
  label := "struct variant FieldSource::Parameter"
  blank := ""
  fields := [Codec.string.field "json_path" id fun v _ => v]

/-- The sources of event fields. -/
def fieldSource : Codec FieldSource :=
  Codec.internallyTagged "FieldSource" "from"
    [Codec.bareAlternative "column" .column,
      Codec.recordAlternative parameterRecord "parameter" .parameter]
    fun
      | .column => ("column", [])
      | .parameter path => ("parameter", parameterRecord.encodeMembers path)

/-- What there is to a field of an event. -/
def eventFieldRecord : Record EventField where
  label := "struct EventField"
  blank := ⟨"", .column⟩
  fields :=
    [Codec.string.field "name" EventField.name fun v r => { r with name := v },
      (fieldSource.field "source" EventField.source fun v r =>
        { r with source := v }).orDefault]

/-- The fields of an event. -/
def eventField : Codec EventField := eventFieldRecord.codec

/-- What there is to configure about an event node. -/
def eventRecord : Record EventConfig where
  label := "struct EventConfig"
  blank := ⟨none, []⟩
  fields :=
    [(Codec.string.optional.field "event_name" EventConfig.eventName fun v r =>
        { r with eventName := v }).orDefault,
      (eventField.list.field "fields" EventConfig.fields fun v r =>
        { r with fields := v }).orDefault]

/-- The configuration of an event node. -/
def eventConfig : Codec EventConfig := eventRecord.codec

/-- What there is to a condition between two inputs. -/
def joinConditionRecord : Record JoinCondition where
  label := "struct JoinCondition"
  blank := ⟨"", .eq, ""⟩
  fields :=
    [Codec.string.field "left" JoinCondition.left fun v r => { r with left := v },
      (comparison.field "operator" JoinCondition.operator fun v r =>
        { r with operator := v }).orDefault,
      Codec.string.field "right" JoinCondition.right fun v r => { r with right := v }]

/-- A condition between two inputs. -/
def joinCondition : Codec JoinCondition := joinConditionRecord.codec

/-- What there is to configure about a join node. -/
def joinRecord : Record JoinConfig where
  label := "struct JoinConfig"
  blank := ⟨none, []⟩
  fields :=
    [(joinType.optional.field "join_type" JoinConfig.joinType fun v r =>
        { r with joinType := v }).orDefault,
      (joinCondition.list.field "conditions" JoinConfig.conditions fun v r =>
        { r with conditions := v }).orDefault]

/-- The configuration of a join node. -/
def joinConfig : Codec JoinConfig := joinRecord.codec

/-- What there is to a condition of a filter. -/
def filterConditionRecord : Record FilterCondition where
  label := "struct FilterCondition"
  blank := ⟨"", .eq, .null⟩
  fields :=
    [Codec.string.field "field" FilterCondition.field fun v r => { r with field := v },
      (comparison.field "operator" FilterCondition.operator fun v r =>
        { r with operator := v }).orDefault,
      (Codec.value.field "value" FilterCondition.value fun v r =>
        { r with value := v }).orDefault]

/-- A condition of a filter. -/
def filterCondition : Codec FilterCondition := filterConditionRecord.codec

/-- What there is to configure about a filter node. -/
def filterRecord : Record FilterConfig where
  label := "struct FilterConfig"
  blank := ⟨[]⟩
  fields :=
    [(filterCondition.list.field "conditions" FilterConfig.conditions fun v r =>
        { r with conditions := v }).orDefault]

/-- The configuration of a filter node. -/
def filterConfig : Codec FilterConfig := filterRecord.codec

/-- What there is to an aggregation. -/
def aggregationRecord : Record Aggregation where
  label := "struct Aggregation"
  blank := ⟨.count, none, ""⟩
  fields :=
    [aggregateFunction.field "function" Aggregation.function fun v r =>
        { r with function := v },
      (Codec.string.optional.field "field" Aggregation.field fun v r =>
        { r with field := v }).orDefault,
      Codec.string.field "alias" Aggregation.name fun v r => { r with name := v }]

/-- An aggregation. -/
def aggregation : Codec Aggregation := aggregationRecord.codec

/-- What there is to configure about an aggregate node. -/
def aggregateRecord : Record AggregateConfig where
  label := "struct AggregateConfig"
  blank := ⟨[], []⟩
  fields :=
    [(Codec.string.list.field "group_by" AggregateConfig.groupBy fun v r =>
        { r with groupBy := v }).orDefault,
      (aggregation.list.field "aggregations" AggregateConfig.aggregations fun v r =>
        { r with aggregations := v }).orDefault]

/-- The configuration of an aggregate node. -/
def aggregateConfig : Codec AggregateConfig := aggregateRecord.codec

/-- What there is to configure about an output node. -/
def outputRecord : Record OutputConfig where
  label := "struct OutputConfig"
  blank := ⟨none⟩
  fields :=
    [((Codec.string.optional.field "view_name" OutputConfig.viewName fun v r =>
        { r with viewName := v }).orDefault).orNamed "destination"]

/-- The configuration of an output node. -/
def outputConfig : Codec OutputConfig := outputRecord.codec

/-! ### Nodes -/

/-- A kind that is not configured takes no configuration but `null`. -/
def unionAllContent : Codec.Alternative Content where
  name := Kind.unionAll.name
  decode _ t :=
    match t with
    | none | some .null => .ok .unionAll
    | some t => .error (DecodeError.mismatch t "unit variant NodeKind::UnionAll")

/-- A kind that is configured needs its configuration. -/
def configured (c : Codec α) (k : Kind) (make : α → Content) : Codec.Alternative Content :=
  Codec.alternative c k.name (.missingField "config") make

/-- The kinds with their configurations. -/
def contents : List (Codec.Alternative Content) :=
  [configured eventConfig .event .event,
    unionAllContent,
    configured joinConfig .join .join,
    configured filterConfig .filter .filter,
    configured aggregateConfig .aggregate .aggregate,
    configured outputConfig .output .output]

/-- The configuration of a node as it is written. -/
def encodeConfig : Content → Option Json
  | .event c => some (eventConfig.encode c)
  | .unionAll => none
  | .join c => some (joinConfig.encode c)
  | .filter c => some (filterConfig.encode c)
  | .aggregate c => some (aggregateConfig.encode c)
  | .output c => some (outputConfig.encode c)

/-- A node as it is written. -/
def encodeNode (n : Node) : Json :=
  .object <|
    ("id", nodeId.encode n.id) :: ("kind", kind.encode n.kind) ::
      match encodeConfig n.content with
      | none => []
      | some config => [("config", config)]

/-- Read a node: the id at once, all other members are set aside. -/
def decodeNode (reading : Reading) (t : Tree) : Except DecodeError Node :=
  match t with
  | .object members ending =>
    if ending = .tooDeep then .error .malformed
    else
      match Codec.takeMember "id" nodeId.decode reading members none with
      | .error e => .error e
      | .ok (found, rest) =>
        if ending ≠ .closed then .error .malformed
        else
          match found with
          | none => .error (.missingField "id")
          | some id =>
            (Codec.Adjacent.decodeMembers "kind" "config" contents .buffered rest .closed).map
              fun c => ⟨id, c⟩
  | t => .error (DecodeError.mismatch t "struct Node")

/-- Nodes. -/
def node : Codec Node where
  encode := encodeNode
  decode := decodeNode

/-! ### Edges and surroundings -/

/-- What there is to an edge.  What is left open about it is not written. -/
def edgeRecord : Record Edge where
  label := "struct Edge"
  blank := ⟨none, default, default, none, none⟩
  fields :=
    [((edgeId.optional.field "id" Edge.id fun v r => { r with id := v }).orDefault).hidingNull,
      nodeId.field "source" Edge.source fun v r => { r with source := v },
      nodeId.field "target" Edge.target fun v r => { r with target := v },
      (((Codec.string.optional.field "source_handle" Edge.sourceHandle fun v r =>
        { r with sourceHandle := v }).orDefault).orNamed "sourceHandle").hidingNull,
      (((Codec.string.optional.field "target_handle" Edge.targetHandle fun v r =>
        { r with targetHandle := v }).orDefault).orNamed "targetHandle").hidingNull]

/-- Edges. -/
def edge : Codec Edge := edgeRecord.codec

/-- What surrounds a graph. -/
def contextRecord : Record Context where
  label := "struct ExternalContext"
  blank := ⟨"", 0⟩
  fields :=
    [Codec.string.field "physical_database_name" Context.database fun v r =>
        { r with database := v },
      Codec.word.field "numeric_game_identifier" Context.game fun v r =>
        { r with game := v }]

/-- The surroundings of a graph. -/
def context : Codec Context := contextRecord.codec

end QueryGraph.Wire
