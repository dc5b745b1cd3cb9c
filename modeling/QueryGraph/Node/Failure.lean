import QueryGraph.Node.Basic

namespace QueryGraph

/-!
# What can go wrong with nodes and graphs

* `NodeFailure`: why one node has no output.  The others go on.
* `GraphFailure`: why a whole graph is not compiled.
-/

/-- Why a node has no output. -/
inductive NodeFailure where
  | arity (node : NodeId) (kind : Kind) (expected : Arity) (found : Nat)
  | missingConfig (node : NodeId) (kind : Kind) (field : String)
  | skipped (node : NodeId) (failed : NodeId)
deriving DecidableEq

namespace NodeFailure

/-- The node that failed. -/
def node : NodeFailure → NodeId
  | .arity id _ _ _ => id
  | .missingConfig id _ _ => id
  | .skipped id _ => id

/-- Whether the node was not tried at all. -/
def isSkipped : NodeFailure → Bool
  | .skipped _ _ => true
  | _ => false

/-- The failure in words. -/
def message : NodeFailure → String
  | .arity id kind expected found =>
    kind.displayName ++ " node '" ++ id.text ++ "' expects " ++ expected.describe ++
      " upstream input(s), found " ++ toString found
  | .missingConfig id kind field =>
    kind.displayName ++ " node '" ++ id.text ++ "' is missing required configuration: " ++ field
  | .skipped id failed =>
    "Node '" ++ id.text ++ "' skipped because upstream node '" ++ failed.text ++ "' failed"

end NodeFailure

/-- Why a graph is not compiled at all. -/
inductive GraphFailure where
  | cycles (cycles : List (List NodeId))
  | unschedulable (scheduled total : Nat)
deriving DecidableEq

namespace GraphFailure

/-- A cycle in words. -/
def describeCycle (cycle : List NodeId) : String := " -> ".intercalate (cycle.map NodeId.text)

/-- The failure in words. -/
def message : GraphFailure → String
  | .cycles found =>
    "Cycle detected in pipeline graph: " ++ "; ".intercalate (found.map describeCycle)
  | .unschedulable scheduled total =>
    "Only " ++ toString scheduled ++ " of " ++ toString total ++ " nodes could be scheduled"

end GraphFailure

end QueryGraph
