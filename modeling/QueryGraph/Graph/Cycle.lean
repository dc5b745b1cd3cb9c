import QueryGraph.Graph.Basic

namespace QueryGraph

/-!
# Cycles

* `Search`: a depth-first search along dependencies, as a state: the nodes visited, those on
  the way from the root, the way itself, the frames with the next dependency to look at, and
  the cycles found so far.
* `Search.step`: one step of the search; every dependency that lies on the way closes a cycle.
* `Graph.cycles`: the distinct cycles met by a search from every node in turn.  A cycle runs
  along its edges from its first member in the node list and ends with that member again.
-/

/-- A node on the way, with the position of its next dependency to look at. -/
structure Visit where
  node : NodeId
  next : Nat
deriving DecidableEq

/-- A depth-first search along dependencies, newest entries first. -/
structure Search where
  visited : List NodeId
  onWay : List NodeId
  way : List NodeId
  frames : List Visit
  bodies : List (List NodeId)
  found : List (List NodeId)
deriving DecidableEq

namespace Search

/-- Nothing visited. -/
def start : Search := ⟨[], [], [], [], [], []⟩

/-- Go on to a node. -/
def enter (s : Search) (id : NodeId) : Search :=
  { s with
    visited := id :: s.visited
    onWay := id :: s.onWay
    way := id :: s.way
    frames := ⟨id, 0⟩ :: s.frames }

/-- Go back from the newest node. -/
def leave (s : Search) (id : NodeId) : Search :=
  { s with
    onWay := s.onWay.filter (· ≠ id)
    way := s.way.drop 1
    frames := s.frames.drop 1 }

/-- The part of the way from a node to the newest one, in edge direction: from the newest back
    to it. -/
def back (way : List NodeId) (closing : NodeId) : List NodeId :=
  way.takeWhile (· ≠ closing) ++ [closing]

/-- The position of the smallest number, the first one of several. -/
def minIndex : List Nat → Nat
  | [] => 0
  | n :: ns => if ns.all (n ≤ ·) then 0 else minIndex ns + 1

/-- The members of a cycle, starting with the first one in the node list. -/
def rotate (g : Graph) (members : List NodeId) : List NodeId :=
  let start := minIndex (members.map fun id => (g.index? id).getD g.size)
  members.drop start ++ members.take start

/-- A list with its first item again at its end. -/
def close : List NodeId → List NodeId
  | [] => []
  | id :: rest => id :: (rest ++ [id])

/-- Record the cycle that a dependency on the way closes, unless it was recorded before. -/
def record (g : Graph) (closing : NodeId) (s : Search) : Search :=
  if closing ∈ s.way then
    let body := rotate g (back s.way closing)
    if body ∈ s.bodies then s
    else { s with bodies := body :: s.bodies, found := s.found ++ [close body] }
  else s

/-- One step from the newest frame: look at its next dependency, or leave it. -/
def step (g : Graph) (s : Search) : Search :=
  match s.frames with
  | [] => s
  | v :: rest =>
    match (g.dependencies v.node)[v.next]? with
    | none => s.leave v.node
    | some dep =>
      let t := { s with frames := ⟨v.node, v.next + 1⟩ :: rest }
      if dep ∈ t.onWay then t.record g dep
      else if dep ∈ t.visited then t
      else t.enter dep

/-- Steps until no frame is left, at most a given number of them. -/
def run (g : Graph) : Nat → Search → Search
  | 0, s => s
  | fuel + 1, s => if s.frames.isEmpty then s else run g fuel (s.step g)

/-- A bound on the steps of a search from one root: each dependency is looked at once and each
    node left once. -/
def bound (g : Graph) : Nat := g.entries.foldr (fun e n => e.2.dependencies.length + 1 + n) 0

/-- Search from a root that was not visited yet. -/
def explore (g : Graph) (s : Search) (root : NodeId) : Search :=
  if root ∈ s.visited then s else (s.enter root).run g (bound g)

end Search

/-- The distinct cycles that a depth-first search meets. -/
def Graph.cycles (g : Graph) : List (List NodeId) :=
  (g.ids.foldl (Search.explore g) Search.start).found

end QueryGraph
