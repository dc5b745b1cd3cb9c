import QueryGraph.Node.Basic

namespace QueryGraph

/-!
# The dependency graph

* `Neighbours`: the dependencies of a node, the handles of the edges from them, and its
  dependents, each in edge order.
* `Graph`: the neighbours of every node in the order of the node list, and the number of edges
  that lead nowhere.
* `Graph.build`: the graph of a snapshot.  Of several nodes with one id the first counts; an
  edge with an end outside the node list is inert.
-/

/-- The nodes that a node depends on, beside them the handles of the edges from them, and the
    nodes that depend on it. -/
structure Neighbours where
  dependencies : List NodeId
  handles : List (Option String)
  dependents : List NodeId
deriving DecidableEq

/-- No neighbours. -/
def Neighbours.none : Neighbours := ⟨[], [], []⟩

/-- The dependencies, each with the handle at its place. -/
def Neighbours.inputs (n : Neighbours) : List (NodeId × Option String) :=
  n.dependencies.zip n.handles

/-- The dependency graph of a snapshot. -/
structure Graph where
  entries : List (NodeId × Neighbours)
  inertEdges : Nat
deriving DecidableEq

namespace Graph

/-- The graph without nodes. -/
def empty : Graph := ⟨[], 0⟩

/-- The ids of the nodes, in the order of the node list. -/
def ids (g : Graph) : List NodeId := g.entries.map Prod.fst

/-- The number of nodes. -/
def size (g : Graph) : Nat := g.entries.length

/-- The neighbours of a node. -/
def neighbours? (g : Graph) (id : NodeId) : Option Neighbours := g.entries.lookup id

/-- Whether a node is in the graph. -/
def contains (g : Graph) (id : NodeId) : Bool := (g.neighbours? id).isSome

/-- The neighbours of a node; none for a node that is not there. -/
def neighbours (g : Graph) (id : NodeId) : Neighbours := (g.neighbours? id).getD .none

/-- The inputs of a node, with the handles of their edges. -/
def inputs (g : Graph) (id : NodeId) : List (NodeId × Option String) := (g.neighbours id).inputs

/-- The nodes that a node depends on. -/
def dependencies (g : Graph) (id : NodeId) : List NodeId := (g.neighbours id).dependencies

/-- The handles of the edges into a node. -/
def inputHandles (g : Graph) (id : NodeId) : List (Option String) := (g.neighbours id).handles

/-- The nodes that depend on a node. -/
def dependents (g : Graph) (id : NodeId) : List NodeId := (g.neighbours id).dependents

/-- The position of a node in the node list. -/
def index? (g : Graph) (id : NodeId) : Option Nat := g.ids.findIdx? (· = id)

/-- Change the neighbours of a node. -/
def modify (f : Neighbours → Neighbours) (id : NodeId) (g : Graph) : Graph :=
  { g with entries := g.entries.map fun e => if e.1 = id then (e.1, f e.2) else e }

/-- Add a node; one that is already there stays as it is. -/
def addNode (g : Graph) (id : NodeId) : Graph :=
  if g.contains id then g else { g with entries := g.entries ++ [(id, .none)] }

/-- Note a dependent. -/
def addDependent (target : NodeId) (n : Neighbours) : Neighbours :=
  { n with dependents := n.dependents ++ [target] }

/-- Note an input. -/
def addInput (source : NodeId) (handle : Option String) (n : Neighbours) : Neighbours :=
  { n with dependencies := n.dependencies ++ [source], handles := n.handles ++ [handle] }

/-- Add an edge at both of its ends; one whose ends are not both there is only counted. -/
def addEdge (g : Graph) (e : Edge) : Graph :=
  if g.contains e.source && g.contains e.target then
    (g.modify (addDependent e.target) e.source).modify (addInput e.source e.targetHandle) e.target
  else { g with inertEdges := g.inertEdges + 1 }

/-- The graph of a snapshot. -/
def build (nodes : List Node) (edges : List Edge) : Graph :=
  edges.foldl addEdge ((nodes.map Node.id).foldl addNode empty)

end Graph

end QueryGraph
