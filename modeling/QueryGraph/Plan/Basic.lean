import QueryGraph.Node.Failure
import QueryGraph.Query.Fragment

namespace QueryGraph

/-!
# Plans

* `Stage`: how far a compilation came.
* `Statistics`: counts of nodes and edges.
* `Plan`: the result of compiling a snapshot: the order of its nodes, the fragment or the
  failure of each, and the programs, one for each sink that nothing depends on.
* `Plan.listing`: the programs as a text.
-/

/-- A stage of a compilation; a finished one ends in `finalize`, an abandoned one in `fatal`. -/
inductive Stage where
  | buildGraph
  | checkCycles
  | schedule
  | compile
  | finalize
  | fatal
deriving DecidableEq

/-- The stage in words. -/
def Stage.describe : Stage → String
  | .buildGraph => "build-graph"
  | .checkCycles => "check-cycles"
  | .schedule => "schedule"
  | .compile => "compile"
  | .finalize => "finalize"
  | .fatal => "fatal"

/-- Counts of a compilation.  Failed nodes include the skipped ones; an edge is inert if one of
    its ends is missing. -/
structure Statistics where
  totalNodes : Nat
  scheduledNodes : Nat
  compiledNodes : Nat
  failedNodes : Nat
  skippedNodes : Nat
  sourceNodes : Nat
  sinkNodes : Nat
  inertEdges : Nat
deriving DecidableEq

/-- Nothing counted. -/
def Statistics.zero : Statistics := ⟨0, 0, 0, 0, 0, 0, 0, 0⟩

/-- The result of compiling a snapshot. -/
structure Plan where
  success : Bool
  stage : Stage
  order : List NodeId
  outputs : List (NodeId × Fragment)
  finalText : Option String
  programs : List (NodeId × String)
  errors : List (NodeId × NodeFailure)
  cycles : List (List NodeId)
  fatal : Option GraphFailure
  statistics : Statistics
deriving DecidableEq

namespace Plan

/-- The plan of a snapshot that is not compiled at all. -/
def aborted (failure : GraphFailure) (statistics : Statistics) : Plan where
  success := false
  stage := .fatal
  order := []
  outputs := []
  finalText := none
  programs := []
  errors := []
  cycles :=
    match failure with
    | .cycles found => found
    | .unschedulable _ _ => []
  fatal := some failure
  statistics := statistics

/-- Whether the plan reports cycles. -/
def hasCycles (p : Plan) : Bool := !p.cycles.isEmpty

/-- Whether the compilation was abandoned. -/
def isFatal (p : Plan) : Bool := p.stage = .fatal

/-- The fragment of a node. -/
def output? (p : Plan) (id : NodeId) : Option Fragment := p.outputs.lookup id

/-- The failure of a node. -/
def error? (p : Plan) (id : NodeId) : Option NodeFailure := p.errors.lookup id

/-- A program below a comment that names its sink. -/
def listed (program : NodeId × String) : String :=
  "-- " ++ program.1.text ++ "\n" ++ program.2 ++ ";\n\n"

/-- The programs of a plan, or its final text if there are none. -/
def listing (p : Plan) : String :=
  if p.programs.isEmpty then
    match p.finalText with
    | none => ""
    | some text => text ++ ";\n"
  else String.join (p.programs.map listed)

end Plan

end QueryGraph
