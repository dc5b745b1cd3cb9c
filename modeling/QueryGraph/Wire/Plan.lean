import QueryGraph.Graph.Cascade
import QueryGraph.Plan.Basic
import QueryGraph.Wire.Node

namespace QueryGraph.Wire

/-!
# Results in documents

* `metadata`, `fragment`: the fragment of a node and facts about it.
* `arity`, `nodeFailure`, `graphFailure`: failures.
* `stage`, `statistics`, `plan`: the result of a compilation.
* `cascadeSummary`, `cascadeOutcome`: the result of a deletion.
-/

/-! ### Fragments -/

/-- Facts about an event: its name, the number of fields and whether they are the fallback. -/
def eventFacts : Record (Option String × Nat × Bool) where
  label := "struct variant NodeMetadata::Event"
  blank := (none, 0, false)
  fields :=
    [(Codec.string.optional.field "event_name" (fun r => r.1) fun v r => (v, r.2)).orAbsent,
      Codec.count.field "field_count" (fun r => r.2.1) fun v r => (r.1, v, r.2.2),
      Codec.bool.field "fallback" (fun r => r.2.2) fun v r => (r.1, r.2.1, v)]

/-- Facts about a union: the number of inputs. -/
def unionAllFacts : Record Nat where
  label := "struct variant NodeMetadata::UnionAll"
  blank := 0
  fields := [Codec.count.field "input_count" id fun v _ => v]

/-- Facts about a join: its type and the number of conditions. -/
def joinFacts : Record (JoinType × Nat) where
  label := "struct variant NodeMetadata::Join"
  blank := (.inner, 0)
  fields :=
    [joinType.field "join_type" Prod.fst fun v r => (v, r.2),
      Codec.count.field "condition_count" Prod.snd fun v r => (r.1, v)]

/-- Facts about a filter: the number of conditions. -/
def filterFacts : Record Nat where
  label := "struct variant NodeMetadata::Filter"
  blank := 0
  fields := [Codec.count.field "condition_count" id fun v _ => v]

/-- Facts about an aggregate: the grouping fields and the number of aggregations. -/
def aggregateFacts : Record (List String × Nat) where
  label := "struct variant NodeMetadata::Aggregate"
  blank := ([], 0)
  fields :=
    [Codec.string.list.field "group_by" Prod.fst fun v r => (v, r.2),
      Codec.count.field "aggregate_count" Prod.snd fun v r => (r.1, v)]

/-- Facts about an output: its view and the namespace. -/
def outputFacts : Record (String × String) where
  label := "struct variant NodeMetadata::Output"
  blank := ("", "")
  fields :=
    [Codec.string.field "view_name" Prod.fst fun v r => (v, r.2),
      Codec.string.field "namespace" Prod.snd fun v r => (r.1, v)]

/-- Facts about fragments, with the kind among the fields. -/
def metadata : Codec Metadata :=
  Codec.internallyTagged "NodeMetadata" "kind"
    [Codec.recordAlternative eventFacts "event" fun r => .event r.1 r.2.1 r.2.2,
      Codec.recordAlternative unionAllFacts "union_all" .unionAll,
      Codec.recordAlternative joinFacts "join" fun r => .join r.1 r.2,
      Codec.recordAlternative filterFacts "filter" .filter,
      Codec.recordAlternative aggregateFacts "aggregate" fun r => .aggregate r.1 r.2,
      Codec.recordAlternative outputFacts "output" fun r => .output r.1 r.2]
    fun
      | .event name count fallback => ("event", eventFacts.encodeMembers (name, count, fallback))
      | .unionAll count => ("union_all", unionAllFacts.encodeMembers count)
      | .join type count => ("join", joinFacts.encodeMembers (type, count))
      | .filter count => ("filter", filterFacts.encodeMembers count)
      | .aggregate groupBy count => ("aggregate", aggregateFacts.encodeMembers (groupBy, count))
      | .output view space => ("output", outputFacts.encodeMembers (view, space))

/-- Fragments. -/
def fragment : Codec Fragment :=
  Record.codec
    { label := "struct NodeOutput"
      blank := ⟨.event, "", .unionAll 0⟩
      fields :=
        [kind.field "kind" Fragment.kind fun v r => { r with kind := v },
          Codec.string.field "text" Fragment.text fun v r => { r with text := v },
          metadata.field "metadata" Fragment.metadata fun v r => { r with metadata := v }] }

/-! ### Failures -/

/-- Arities, as a rule and a count. -/
def arity : Codec Arity :=
  Codec.adjacentlyTagged "Arity" "rule" "count"
    [Codec.alternative Codec.count "exactly" (.missingField "count") .exactly,
      Codec.alternative Codec.count "at_least" (.missingField "count") .atLeast]
    fun
      | .exactly n => ("exactly", Codec.count.encode n)
      | .atLeast n => ("at_least", Codec.count.encode n)

/-- The parts of a wrong number of inputs. -/
def arityFailure : Record (NodeId × Kind × Arity × Nat) where
  label := "struct variant NodeError::Arity"
  blank := (default, .event, .exactly 0, 0)
  fields :=
    [nodeId.field "node_id" (fun r => r.1) fun v r => (v, r.2),
      kind.field "kind" (fun r => r.2.1) fun v r => (r.1, v, r.2.2),
      arity.field "expected" (fun r => r.2.2.1) fun v r => (r.1, r.2.1, v, r.2.2.2),
      Codec.count.field "found" (fun r => r.2.2.2) fun v r => (r.1, r.2.1, r.2.2.1, v)]

/-- The parts of a lacking configuration. -/
def missingConfigFailure : Record (NodeId × Kind × String) where
  label := "struct variant NodeError::MissingConfig"
  blank := (default, .event, "")
  fields :=
    [nodeId.field "node_id" (fun r => r.1) fun v r => (v, r.2),
      kind.field "kind" (fun r => r.2.1) fun v r => (r.1, v, r.2.2),
      Codec.string.field "field" (fun r => r.2.2) fun v r => (r.1, r.2.1, v)]

/-- The parts of a skipped node. -/
def skippedFailure : Record (NodeId × NodeId) where
  label := "struct variant NodeError::Skipped"
  blank := (default, default)
  fields :=
    [nodeId.field "node_id" Prod.fst fun v r => (v, r.2),
      nodeId.field "upstream" Prod.snd fun v r => (r.1, v)]

/-- Failures of nodes. -/
def nodeFailure : Codec NodeFailure :=
  Codec.internallyTagged "NodeError" "error"
    [Codec.recordAlternative arityFailure "arity" fun r => .arity r.1 r.2.1 r.2.2.1 r.2.2.2,
      Codec.recordAlternative missingConfigFailure "missing_config" fun r =>
        .missingConfig r.1 r.2.1 r.2.2,
      Codec.recordAlternative skippedFailure "skipped" fun r => .skipped r.1 r.2]
    fun
      | .arity id kind expected found =>
        ("arity", arityFailure.encodeMembers (id, kind, expected, found))
      | .missingConfig id kind field =>
        ("missing_config", missingConfigFailure.encodeMembers (id, kind, field))
      | .skipped id failed => ("skipped", skippedFailure.encodeMembers (id, failed))

/-- Lists of cycles. -/
def cycles : Codec (List (List NodeId)) := nodeId.list.list

/-- The parts of a graph with cycles. -/
def cyclesFailure : Record (List (List NodeId)) where
  label := "struct variant PipelineError::CycleDetected"
  blank := []
  fields := [cycles.field "cycles" id fun v _ => v]

/-- The parts of a graph without a schedule. -/
def unschedulableFailure : Record (Nat × Nat) where
  label := "struct variant PipelineError::Unschedulable"
  blank := (0, 0)
  fields :=
    [Codec.count.field "scheduled" Prod.fst fun v r => (v, r.2),
      Codec.count.field "total" Prod.snd fun v r => (r.1, v)]

/-- Failures of graphs. -/
def graphFailure : Codec GraphFailure :=
  Codec.untagged
    [Codec.alternative cyclesFailure.codec "CycleDetected" .bareVariant .cycles,
      Codec.alternative unschedulableFailure.codec "Unschedulable" .bareVariant fun r =>
        .unschedulable r.1 r.2]
    fun
      | .cycles found => ("CycleDetected", cyclesFailure.codec.encode found)
      | .unschedulable scheduled total =>
        ("Unschedulable", unschedulableFailure.codec.encode (scheduled, total))

/-- The cycles of a graph under a key. -/
def cycleReport : Codec (List (List NodeId)) :=
  Record.codec
    { label := "struct CycleReport"
      blank := []
      fields := [cycles.field "cycles" id fun v _ => v] }

/-! ### Plans -/

/-- All stages. -/
def stages : List Stage := [.buildGraph, .checkCycles, .schedule, .compile, .finalize, .fatal]

/-- The name of a stage. -/
def stageName : Stage → String
  | .buildGraph => "build_graph"
  | .checkCycles => "check_cycles"
  | .schedule => "schedule"
  | .compile => "compile"
  | .finalize => "finalize"
  | .fatal => "fatal"

/-- Stages. -/
def stage : Codec Stage := named stages stageName

/-- Counts of a compilation. -/
def statistics : Codec Statistics :=
  Record.codec
    { label := "struct PlanStats"
      blank := .zero
      fields :=
        [Codec.count.field "total_nodes" Statistics.totalNodes fun v r =>
            { r with totalNodes := v },
          Codec.count.field "scheduled_nodes" Statistics.scheduledNodes fun v r =>
            { r with scheduledNodes := v },
          Codec.count.field "compiled_nodes" Statistics.compiledNodes fun v r =>
            { r with compiledNodes := v },
          Codec.count.field "failed_nodes" Statistics.failedNodes fun v r =>
            { r with failedNodes := v },
          Codec.count.field "skipped_nodes" Statistics.skippedNodes fun v r =>
            { r with skippedNodes := v },
          Codec.count.field "source_nodes" Statistics.sourceNodes fun v r =>
            { r with sourceNodes := v },
          Codec.count.field "sink_nodes" Statistics.sinkNodes fun v r =>
            { r with sinkNodes := v },
          Codec.count.field "inert_edges" Statistics.inertEdges fun v r =>
            { r with inertEdges := v }] }

/-- Maps from node ids. -/
def byNode (c : Codec α) : Codec (List (NodeId × α)) := c.dictionary NodeId.text NodeId.mk

/-- Plans. -/
def plan : Codec Plan :=
  Record.codec
    { label := "struct PipelineResult"
      blank := ⟨false, .buildGraph, [], [], none, [], [], [], none, .zero⟩
      fields :=
        [Codec.bool.field "success" Plan.success fun v r => { r with success := v },
          stage.field "stage" Plan.stage fun v r => { r with stage := v },
          nodeId.list.field "execution_order" Plan.order fun v r => { r with order := v },
          (byNode fragment).field "outputs" Plan.outputs fun v r => { r with outputs := v },
          (Codec.string.optional.field "final_text" Plan.finalText fun v r =>
            { r with finalText := v }).orAbsent,
          (byNode Codec.string).field "programs" Plan.programs fun v r =>
            { r with programs := v },
          (byNode nodeFailure).field "errors" Plan.errors fun v r => { r with errors := v },
          cycles.field "cycles" Plan.cycles fun v r => { r with cycles := v },
          (graphFailure.optional.field "fatal" Plan.fatal fun v r =>
            { r with fatal := v }).orAbsent,
          statistics.field "stats" Plan.statistics fun v r => { r with statistics := v }] }

/-! ### Deletions -/

/-- Counts of a deletion. -/
def cascadeSummary : Codec CascadeSummary :=
  Record.codec
    { label := "struct CascadeSummary"
      blank := .zero
      fields :=
        [Codec.count.field "direct_nodes" CascadeSummary.directNodes fun v r =>
            { r with directNodes := v },
          Codec.count.field "direct_edges" CascadeSummary.directEdges fun v r =>
            { r with directEdges := v },
          Codec.count.field "cascaded_nodes" CascadeSummary.cascadedNodes fun v r =>
            { r with cascadedNodes := v },
          Codec.count.field "cascaded_edges" CascadeSummary.cascadedEdges fun v r =>
            { r with cascadedEdges := v }] }

/-- What a deletion leaves. -/
def cascadeOutcome : Codec CascadeOutcome :=
  Record.codec
    { label := "struct CascadeOutcome"
      blank := ⟨[], [], .zero⟩
      fields :=
        [node.list.field "nodes" CascadeOutcome.nodes fun v r => { r with nodes := v },
          edge.list.field "edges" CascadeOutcome.edges fun v r => { r with edges := v },
          cascadeSummary.field "summary" CascadeOutcome.summary fun v r =>
            { r with summary := v }] }

end QueryGraph.Wire
