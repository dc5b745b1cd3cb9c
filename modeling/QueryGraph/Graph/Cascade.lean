import QueryGraph.Node.Basic

namespace QueryGraph

/-!
# Cascading deletion

* `CascadeSummary`: how many nodes and edges a deletion removes.
* `Removal`: a deletion in progress: the nodes and edges that are left, the ids removed and
  the counts.
* `Removal.settle`: remove outputs that had an incoming edge and have none left, until there
  are no more.
* `cascade`: what is left when some nodes are deleted, and the counts.
-/

/-- Counts of what a deletion removes: the nodes asked for and their edges, and the outputs
    that lose their last incoming edge and theirs. -/
structure CascadeSummary where
  directNodes : Nat
  directEdges : Nat
  cascadedNodes : Nat
  cascadedEdges : Nat
deriving DecidableEq

namespace CascadeSummary

/-- Nothing removed. -/
def zero : CascadeSummary := ⟨0, 0, 0, 0⟩

/-- All nodes removed. -/
def totalNodes (s : CascadeSummary) : Nat := s.directNodes + s.cascadedNodes

/-- All edges removed. -/
def totalEdges (s : CascadeSummary) : Nat := s.directEdges + s.cascadedEdges

/-- Whether nothing is removed. -/
def isEmpty (s : CascadeSummary) : Bool := s.totalNodes = 0 && s.totalEdges = 0

/-- Count nodes and edges that were asked for. -/
def addDirect (s : CascadeSummary) (nodes edges : Nat) : CascadeSummary :=
  { s with directNodes := s.directNodes + nodes, directEdges := s.directEdges + edges }

/-- Count outputs and edges that go with them. -/
def addCascaded (s : CascadeSummary) (nodes edges : Nat) : CascadeSummary :=
  { s with cascadedNodes := s.cascadedNodes + nodes, cascadedEdges := s.cascadedEdges + edges }

end CascadeSummary

/-- A deletion in progress. -/
structure Removal where
  removed : List NodeId
  edgesLeft : List Edge
  summary : CascadeSummary

namespace Removal

/-- Nothing removed yet. -/
def start (edges : List Edge) : Removal := ⟨[], edges, .zero⟩

/-- Remove a node with all its edges and count them; a node that is gone is not removed
    again. -/
def remove (nodes : List Node) (count : CascadeSummary → Nat → Nat → CascadeSummary)
    (r : Removal) (id : NodeId) : Removal :=
  if id ∈ r.removed then r
  else
    { removed := r.removed ++ [id]
      edgesLeft := r.edgesLeft.filter fun e => !e.touches id
      summary := count r.summary (nodes.countP fun n => n.id = id)
        (r.edgesLeft.countP fun e => e.touches id) }

/-- Remove a node that was asked for, if there is one of that id. -/
def removeTarget (nodes : List Node) (r : Removal) (id : NodeId) : Removal :=
  if nodes.any fun n => n.id = id then r.remove nodes CascadeSummary.addDirect id else r

/-- Whether a node is an output that had an incoming edge and has none left. -/
def isOrphan (edges : List Edge) (r : Removal) (n : Node) : Bool :=
  n.kind = .output && !r.removed.contains n.id && (edges.any fun e => e.target = n.id) &&
    !(r.edgesLeft.any fun e => e.target = n.id)

/-- The orphaned outputs, in the order of the node list. -/
def orphans (nodes : List Node) (edges : List Edge) (r : Removal) : List NodeId :=
  ((nodes.filter (isOrphan edges r)).map Node.id).eraseDups

/-- Remove the orphans of the moment. -/
def sweep (nodes : List Node) (edges : List Edge) (r : Removal) : Removal :=
  (r.orphans nodes edges).foldl (remove nodes CascadeSummary.addCascaded) r

/-- Sweep until there are no orphans, at most a given number of times. -/
def settleWithin (nodes : List Node) (edges : List Edge) : Nat → Removal → Removal
  | 0, r => r
  | fuel + 1, r =>
    if (r.orphans nodes edges).isEmpty then r
    else settleWithin nodes edges fuel (r.sweep nodes edges)

/-- Sweep until there are no orphans.  Each sweep removes a node, so their number is bounded by
    that of the nodes. -/
def settle (nodes : List Node) (edges : List Edge) (r : Removal) : Removal :=
  r.settleWithin nodes edges (nodes.length + 1)

/-- The deletion of some nodes with all that follows from it. -/
def plan (targets : List NodeId) (nodes : List Node) (edges : List Edge) : Removal :=
  (targets.foldl (removeTarget nodes) (start edges)).settle nodes edges

end Removal

/-- What is left after a deletion, and the counts. -/
structure CascadeOutcome where
  nodes : List Node
  edges : List Edge
  summary : CascadeSummary

/-- Delete nodes, and the outputs left without input by it.  The rest keeps its order. -/
def cascade (targets : List NodeId) (nodes : List Node) (edges : List Edge) : CascadeOutcome :=
  let r := Removal.plan targets nodes edges
  { nodes := nodes.filter fun n => !r.removed.contains n.id
    edges := r.edgesLeft
    summary := r.summary }

/-- The counts of a deletion that is not carried out. -/
def estimateCascade (targets : List NodeId) (nodes : List Node) (edges : List Edge) :
    CascadeSummary :=
  (Removal.plan targets nodes edges).summary

end QueryGraph
