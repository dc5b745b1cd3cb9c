import QueryGraph.Graph.Cycle
import QueryGraph.Graph.Schedule
import QueryGraph.Node.Compile
import QueryGraph.Plan.Basic

namespace QueryGraph

/-!
# Compiling a snapshot

* `Progress`: the fragments and failures so far.
* `Progress.outcome`: what becomes of a node, given what became of its dependencies.
* `compile`: the plan of a snapshot.  A cycle abandons the compilation before any node is
  looked at; the failure of a node leaves the nodes that do not depend on it alone.
-/

/-- The fragments and failures so far, each in the order of compilation. -/
structure Progress where
  outputs : List (NodeId × Fragment)
  errors : List (NodeId × NodeFailure)
deriving DecidableEq

namespace Progress

/-- Nothing compiled. -/
def start : Progress := ⟨[], []⟩

/-- The fragment of a node. -/
def output? (p : Progress) (id : NodeId) : Option Fragment := p.outputs.lookup id

/-- The failure of a node. -/
def error? (p : Progress) (id : NodeId) : Option NodeFailure := p.errors.lookup id

/-- Whether a node failed. -/
def hasFailed (p : Progress) (id : NodeId) : Bool := (p.error? id).isSome

/-- A dependency as an input, if it has a fragment. -/
def input? (p : Progress) (source : NodeId × Option String) : Option Input :=
  (p.output? source.1).map fun f => ⟨source.1, source.2, f⟩

/-- All dependencies as inputs; none at all if one of them has no fragment. -/
def inputs (p : Progress) (sources : List (NodeId × Option String)) : List Input :=
  (sources.mapM p.input?).getD []

/-- What becomes of a node.  Where dependents of a failure are skipped, the first failed
    dependency counts; otherwise the number of edges is checked before the inputs are. -/
def outcome (settings : Settings) (context : Context) (p : Progress) (n : Node)
    (sources : List (NodeId × Option String)) : Except NodeFailure Fragment :=
  match (if settings.failurePolicy = .skipDependents then sources.find? fun s => p.hasFailed s.1
    else none) with
  | some failed => .error (.skipped n.id failed.1)
  | none =>
    match n.checkArity sources.length with
    | .error e => .error e
    | .ok _ => n.compile settings context (p.inputs sources)

/-- Note what became of a node. -/
def note (p : Progress) (id : NodeId) : Except NodeFailure Fragment → Progress
  | .ok f => { p with outputs := p.outputs ++ [(id, f)] }
  | .error e => { p with errors := p.errors ++ [(id, e)] }

/-- Compile one more node. -/
def advance (settings : Settings) (context : Context) (nodes : List Node) (g : Graph)
    (p : Progress) (id : NodeId) : Progress :=
  match Node.find? nodes id with
  | none => p
  | some n => p.note id (p.outcome settings context n (g.inputs id))

end Progress

/-- What can be counted before anything is compiled. -/
def structuralStatistics (nodes : List Node) (g : Graph) : Statistics :=
  let kinds := (g.ids.filterMap (Node.find? nodes)).map Node.kind
  { Statistics.zero with
    totalNodes := g.size
    sourceNodes := kinds.countP Kind.isSource
    sinkNodes := kinds.countP Kind.isSink
    inertEdges := g.inertEdges }

/-- Whether a node is a sink that nothing depends on. -/
def isTerminal (nodes : List Node) (g : Graph) (id : NodeId) : Bool :=
  (match Node.find? nodes id with
    | none => false
    | some n => n.kind.isSink) && (g.dependents id).isEmpty

/-- The plan of a snapshot whose nodes have been compiled in order. -/
def finish (nodes : List Node) (g : Graph) (order : List NodeId) (p : Progress) : Plan where
  success := p.errors.isEmpty
  stage := .finalize
  order := order
  outputs := p.outputs
  finalText := (order.reverse.findSome? p.output?).map Fragment.text
  programs :=
    (order.filter (isTerminal nodes g)).filterMap fun id =>
      (p.output? id).map fun f => (id, f.text)
  errors := p.errors
  cycles := []
  fatal := none
  statistics :=
    { structuralStatistics nodes g with
      scheduledNodes := order.length
      compiledNodes := p.outputs.length
      failedNodes := p.errors.length
      skippedNodes := p.errors.countP fun e => e.2.isSkipped }

/-- The plan of a snapshot. -/
def compile (settings : Settings) (nodes : List Node) (edges : List Edge) (context : Context) :
    Plan :=
  let g := Graph.build nodes edges
  if g.cycles.isEmpty then
    match g.schedule with
    | .error failure => .aborted failure (structuralStatistics nodes g)
    | .ok order =>
      finish nodes g order
        (order.foldl (Progress.advance settings context nodes g) Progress.start)
  else .aborted (.cycles g.cycles) (structuralStatistics nodes g)

end QueryGraph
