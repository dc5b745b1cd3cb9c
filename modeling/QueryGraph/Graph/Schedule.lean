import QueryGraph.Graph.Basic
import QueryGraph.Node.Failure

namespace QueryGraph

/-!
# Schedules

* `Queue`: the state of the scheduler: how many dependencies of each node are still to come,
  the nodes that are ready, and the order so far.
* `Queue.step`: take the first ready node and tell its dependents.
* `Graph.schedule`: an order in which every node comes after its dependencies.  Ready nodes
  are taken in the order in which they became ready, at first in the order of the node list.
-/

/-- The state of the scheduler. -/
structure Queue where
  waiting : List (NodeId × Nat)
  ready : List NodeId
  order : List NodeId
deriving DecidableEq

namespace Queue

/-- How many dependencies of a node are still to come. -/
def waitingFor? (q : Queue) (id : NodeId) : Option Nat := q.waiting.lookup id

/-- All nodes wait for all of their dependencies. -/
def start (g : Graph) : Queue where
  waiting := g.entries.map fun e => (e.1, e.2.dependencies.length)
  ready := (g.entries.filter fun e => e.2.dependencies.isEmpty).map Prod.fst
  order := []

/-- Tell a node that one of its dependencies has come; with the last one it becomes ready. -/
def tell (q : Queue) (id : NodeId) : Queue :=
  match q.waitingFor? id with
  | some (n + 1) =>
    { q with
      waiting := q.waiting.map fun w => if w.1 = id then (w.1, n) else w
      ready := if n = 0 then q.ready ++ [id] else q.ready }
  | _ => q

/-- Take the first ready node. -/
def step (g : Graph) (q : Queue) : Queue :=
  match q.ready with
  | [] => q
  | id :: rest => (g.dependents id).foldl tell { q with ready := rest, order := q.order ++ [id] }

/-- Steps until no node is ready, at most a given number of them. -/
def run (g : Graph) : Nat → Queue → Queue
  | 0, q => q
  | fuel + 1, q => if q.ready.isEmpty then q else run g fuel (q.step g)

end Queue

namespace Graph

/-- The nodes that can be scheduled, in the order in which they are. -/
def schedulable (g : Graph) : List NodeId := ((Queue.start g).run g g.size).order

/-- An order of all nodes, or how many of them can be scheduled. -/
def schedule (g : Graph) : Except GraphFailure (List NodeId) :=
  if g.schedulable.length = g.size then .ok g.schedulable
  else .error (.unschedulable g.schedulable.length g.size)

end Graph

end QueryGraph
