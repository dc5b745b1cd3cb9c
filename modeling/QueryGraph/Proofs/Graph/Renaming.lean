import Mathlib.SetTheory.Cardinal.Arithmetic
import QueryGraph.Graph.Cycle
import QueryGraph.Graph.Schedule
import QueryGraph.Proofs.Graph.Index

namespace QueryGraph

/-!
# Graphs under other names

* `Edge.rename`, `Graph.rename`, `Search.rename`, `Queue.rename`: the same with other names for
  the nodes.
* `Graph.build_rename`: the graph of a renamed snapshot is the renamed graph, as long as no two
  nodes get one name.
* `Graph.cycles_rename`, `Graph.schedule_rename`: its cycles and its schedule are the renamed
  ones, found in the same order.
* `exists_injective_extension`: names for the nodes of a snapshot extend to all possible nodes.
-/

/-! ### Renaming -/

/-- An edge between the renamed ends. -/
def Edge.rename (f : NodeId → NodeId) (e : Edge) : Edge :=
  { e with source := f e.source, target := f e.target }

/-- The neighbours under their new names; the handles stay. -/
def Neighbours.rename (f : NodeId → NodeId) (n : Neighbours) : Neighbours where
  dependencies := n.dependencies.map f
  handles := n.handles
  dependents := n.dependents.map f

/-- The graph with every node renamed. -/
def Graph.rename (f : NodeId → NodeId) (g : Graph) : Graph where
  entries := g.entries.map fun e => (f e.1, e.2.rename f)
  inertEdges := g.inertEdges

/-- The visit of the renamed node. -/
def Visit.rename (f : NodeId → NodeId) (v : Visit) : Visit := { v with node := f v.node }

/-- The search with every node renamed. -/
def Search.rename (f : NodeId → NodeId) (s : Search) : Search where
  visited := s.visited.map f
  onWay := s.onWay.map f
  way := s.way.map f
  frames := s.frames.map (Visit.rename f)
  bodies := s.bodies.map (List.map f)
  found := s.found.map (List.map f)

/-- The queue with every node renamed. -/
def Queue.rename (f : NodeId → NodeId) (q : Queue) : Queue where
  waiting := q.waiting.map fun w => (f w.1, w.2)
  ready := q.ready.map f
  order := q.order.map f

/-! ### Lists under an injective map -/

section Lists

variable {α β : Type} [DecidableEq α] {f : α → α} (hf : Function.Injective f)

include hf

/-- Different keys stay different, so what is found under a renamed key is what was found under the
    key. -/
theorem lookup_map_injective {γ : Type} (l : List (α × β)) (h : β → γ) (a : α) :
    (l.map fun e => (f e.1, h e.2)).lookup (f a) = (l.lookup a).map h := by
  induction l with
  | nil => rfl
  | cons e rest ih =>
    obtain ⟨b, x⟩ := e
    rw [List.map_cons, lookup_cons_if, lookup_cons_if, ih]
    simp only [hf.eq_iff]
    split <;> rfl

end Lists

variable {f : NodeId → NodeId} (hf : Function.Injective f)

/-! ### The graph -/

namespace Graph

@[simp] theorem ids_rename (f : NodeId → NodeId) (g : Graph) : (g.rename f).ids = g.ids.map f := by
  simp [ids, rename]

/-- No node is lost, even if two get one name. -/
@[simp] theorem size_rename (f : NodeId → NodeId) (g : Graph) : (g.rename f).size = g.size := by
  simp [size, rename]

include hf

/-- A node is found under its new name, with its neighbours renamed. -/
theorem neighbours?_rename (g : Graph) (id : NodeId) :
    (g.rename f).neighbours? (f id) = (g.neighbours? id).map (Neighbours.rename f) :=
  lookup_map_injective hf g.entries (Neighbours.rename f) id

theorem contains_rename (g : Graph) (id : NodeId) :
    (g.rename f).contains (f id) = g.contains id := by
  rw [contains, neighbours?_rename hf, Option.isSome_map, contains]

/-- Of a node that is not there nothing is renamed. -/
theorem neighbours_rename (g : Graph) (id : NodeId) :
    (g.rename f).neighbours (f id) = (g.neighbours id).rename f := by
  rw [neighbours, neighbours?_rename hf, neighbours]
  cases g.neighbours? id <;> rfl

/-- The dependencies keep their order and their copies. -/
theorem dependencies_rename (g : Graph) (id : NodeId) :
    (g.rename f).dependencies (f id) = (g.dependencies id).map f := by
  rw [dependencies, neighbours_rename hf]
  rfl

/-- The dependents keep their order and their copies. -/
theorem dependents_rename (g : Graph) (id : NodeId) :
    (g.rename f).dependents (f id) = (g.dependents id).map f := by
  rw [dependents, neighbours_rename hf]
  rfl

/-- A node keeps its position, which decides where a cycle starts. -/
theorem index?_rename (g : Graph) (id : NodeId) : (g.rename f).index? (f id) = g.index? id := by
  rw [index?, ids_rename, List.findIdx?_map, index?]
  simp only [Function.comp_def, hf.eq_iff]

/-- To enter a node goes on in the renamed graph in the same way. -/
theorem addNode_rename (g : Graph) (id : NodeId) :
    (g.rename f).addNode (f id) = (g.addNode id).rename f := by
  rw [addNode, contains_rename hf, addNode]
  split
  · rfl
  · simp only [rename, List.map_append]
    rfl

/-- A change that goes with the names can be made before or after they change. -/
theorem modify_rename {h h' : Neighbours → Neighbours} (g : Graph) (id : NodeId)
    (hh : ∀ n, h' (n.rename f) = (h n).rename f) :
    (g.rename f).modify h' (f id) = (g.modify h id).rename f := by
  -- An entry is changed under its new name exactly if it is under its old one.
  have hentry : ∀ e : NodeId × Neighbours,
      (if f e.1 = f id then (f e.1, h' (e.2.rename f)) else (f e.1, e.2.rename f))
        = (fun e => (f e.1, e.2.rename f)) (if e.1 = id then (e.1, h e.2) else e) := by
    intro e
    simp only [hf.eq_iff, hh]
    split <;> rfl
  simp only [modify, rename, List.map_map, Function.comp_def, hentry]

/-- To note an edge goes on in the renamed graph in the same way. -/
theorem addEdge_rename (g : Graph) (e : Edge) :
    (g.rename f).addEdge (e.rename f) = (g.addEdge e).rename f := by
  have hdependent : ∀ n : Neighbours,
      addDependent (f e.target) (n.rename f) = (addDependent e.target n).rename f := by
    intro n
    simp [addDependent, Neighbours.rename]
  have hinput : ∀ n : Neighbours, addInput (f e.source) e.targetHandle (n.rename f)
      = (addInput e.source e.targetHandle n).rename f := by
    intro n
    simp [addInput, Neighbours.rename]
  -- The renamed edge leads from the new name of its source to that of its target.
  show (if (g.rename f).contains (f e.source) && (g.rename f).contains (f e.target) then
    ((g.rename f).modify (addDependent (f e.target)) (f e.source)).modify
      (addInput (f e.source) e.targetHandle) (f e.target)
    else { g.rename f with inertEdges := (g.rename f).inertEdges + 1 }) = _
  rw [contains_rename hf, contains_rename hf, addEdge]
  split
  · rw [modify_rename hf g _ hdependent, modify_rename hf _ _ hinput]
  · rfl

/-- The graph over renamed ids is the renamed graph. -/
theorem foldl_rename (ids : List NodeId) (edges : List Edge) :
    (edges.map (Edge.rename f)).foldl addEdge ((ids.map f).foldl addNode empty)
      = (edges.foldl addEdge (ids.foldl addNode empty)).rename f := by
  have hempty : empty.rename f = empty := rfl
  have hnodes : (ids.map f).foldl addNode empty = (ids.foldl addNode empty).rename f := by
    rw [List.foldl_map, ← hempty]
    exact List.foldl_hom (rename f) fun g id => (addNode_rename hf g id)
  rw [hnodes, List.foldl_map]
  exact List.foldl_hom (rename f) fun g e => (addEdge_rename hf g e)

end Graph

/-! ### The search for cycles -/

namespace Search

variable (g : Graph)

include hf

/-- The renamed search leaves the renamed node. -/
theorem leave_rename (s : Search) (id : NodeId) :
    (s.rename f).leave (f id) = (s.leave id).rename f := by
  have hfilter : (s.onWay.map f).filter (· ≠ f id) = (s.onWay.filter (· ≠ id)).map f := by
    rw [List.filter_map]
    simp only [Function.comp_def, ne_eq, hf.eq_iff]
  simp only [leave, rename, hfilter, List.map_drop]

/-- The part of the way that a cycle takes is cut at the same place. -/
theorem back_rename (way : List NodeId) (closing : NodeId) :
    back (way.map f) (f closing) = (back way closing).map f := by
  rw [back, List.takeWhile_map, back, List.map_append]
  simp only [Function.comp_def, ne_eq, hf.eq_iff, List.map_cons, List.map_nil]

/-- A cycle is rotated to the same beginning, as positions are what it goes by. -/
theorem rotate_rename (members : List NodeId) :
    rotate (g.rename f) (members.map f) = (rotate g members).map f := by
  have hindices : (members.map f).map (fun id => ((g.rename f).index? id).getD (g.rename f).size)
      = members.map fun id => (g.index? id).getD g.size := by
    rw [List.map_map, Graph.size_rename]
    simp only [Function.comp_def, Graph.index?_rename hf]
  simp only [rotate, hindices, List.map_append, List.map_drop, List.map_take]

omit hf in
/-- The closed list ends with the new name of its first node. -/
theorem close_rename (members : List NodeId) : close (members.map f) = (close members).map f := by
  cases members with
  | nil => rfl
  | cons id rest => simp [close]

/-- A cycle is recorded under the new names exactly if it is under the old ones. -/
theorem record_rename (s : Search) (closing : NodeId) :
    (s.rename f).record (g.rename f) (f closing) = (s.record g closing).rename f := by
  have hway : f closing ∈ (s.rename f).way ↔ closing ∈ s.way := List.mem_map_of_injective hf
  have hbody : rotate (g.rename f) (back (s.rename f).way (f closing))
      = (rotate g (back s.way closing)).map f := by
    rw [← rotate_rename hf, ← back_rename hf]
    rfl
  -- Different bodies stay different, so a known one is recognized.
  have hbodies : ∀ body : List NodeId, body.map f ∈ (s.rename f).bodies ↔ body ∈ s.bodies :=
    fun body => List.mem_map_of_injective (List.map_injective_iff.mpr hf)
  by_cases h : closing ∈ s.way
  · simp only [record, if_pos h, if_pos (hway.mpr h), hbody, hbodies]
    split
    · rfl
    · simp [rename, close_rename]
  · simp only [record, if_neg h, if_neg (mt hway.mp h)]

omit hf in
/-- A frame that has looked at everything is left. -/
theorem step_of_none {s : Search} {v : Visit} {rest : List Visit} (hframes : s.frames = v :: rest)
    (hdep : (g.dependencies v.node)[v.next]? = none) : s.step g = s.leave v.node := by
  unfold step
  rw [hframes]
  simp only [hdep]

omit hf in
/-- Otherwise a step looks at the next dependency. -/
theorem step_of_some {s : Search} {v : Visit} {rest : List Visit} {dep : NodeId}
    (hframes : s.frames = v :: rest) (hdep : (g.dependencies v.node)[v.next]? = some dep) :
    let t : Search := { s with frames := ⟨v.node, v.next + 1⟩ :: rest }
    s.step g = if dep ∈ t.onWay then t.record g dep
      else if dep ∈ t.visited then t else t.enter dep := by
  unfold step
  rw [hframes]
  simp only [hdep]

/-- One step of the renamed search is the renamed step. -/
theorem step_rename (s : Search) : (s.rename f).step (g.rename f) = (s.step g).rename f := by
  obtain ⟨visited, onWay, way, frames, bodies, found⟩ := s
  cases frames with
  | nil => rfl
  | cons v rest =>
    -- The state in which the dependency is looked at, with the frame marked.
    set t : Search := ⟨visited, onWay, way, ⟨v.node, v.next + 1⟩ :: rest, bodies, found⟩ with ht
    have hdependency : ((g.rename f).dependencies (v.rename f).node)[(v.rename f).next]?
        = ((g.dependencies v.node)[v.next]?).map f := by
      show ((g.rename f).dependencies (f v.node))[v.next]? = _
      rw [Graph.dependencies_rename hf, List.getElem?_map]
    have honWay : ∀ dep, f dep ∈ (t.rename f).onWay ↔ dep ∈ t.onWay := fun dep =>
      List.mem_map_of_injective hf
    have hvisited : ∀ dep, f dep ∈ (t.rename f).visited ↔ dep ∈ t.visited := fun dep =>
      List.mem_map_of_injective hf
    cases hdep : (g.dependencies v.node)[v.next]? with
    | none =>
      rw [hdep, Option.map_none] at hdependency
      rw [step_of_none g rfl hdep, step_of_none (g.rename f) rfl hdependency]
      exact leave_rename hf _ v.node
    | some dep =>
      rw [hdep, Option.map_some] at hdependency
      rw [step_of_some g rfl hdep, step_of_some (g.rename f) rfl hdependency]
      show (if f dep ∈ (t.rename f).onWay then (t.rename f).record (g.rename f) (f dep)
        else if f dep ∈ (t.rename f).visited then t.rename f else (t.rename f).enter (f dep)) = _
      simp only [honWay, hvisited, record_rename hf]
      by_cases hway : dep ∈ t.onWay
      · rw [if_pos hway, if_pos hway]
      · rw [if_neg hway, if_neg hway]
        split <;> rfl

/-- The renamed search takes as many steps, each the renamed one. -/
theorem run_rename (fuel : Nat) (s : Search) :
    run (g.rename f) fuel (s.rename f) = (run g fuel s).rename f := by
  induction fuel generalizing s with
  | zero => rfl
  | succ fuel ih =>
    have hempty : (s.rename f).frames.isEmpty = s.frames.isEmpty := List.isEmpty_map
    rw [run, run, hempty, step_rename hf, ih]
    split <;> rfl

/-- The search from a renamed root allows for as many steps. -/
theorem explore_rename (s : Search) (root : NodeId) :
    (s.rename f).explore (g.rename f) (f root) = (s.explore g root).rename f := by
  have hbound : bound (g.rename f) = bound g := by
    simp only [bound, Graph.rename, List.foldr_map, Neighbours.rename, List.length_map]
  have hvisited : f root ∈ (s.rename f).visited ↔ root ∈ s.visited :=
    List.mem_map_of_injective hf
  have henter : (s.rename f).enter (f root) = (s.enter root).rename f := rfl
  simp only [explore, hvisited, henter, hbound, run_rename hf]
  split <;> rfl

end Search

/-! ### The schedule -/

namespace Queue

variable (g : Graph)

/-- At the start the renamed nodes wait for as many dependencies. -/
theorem start_rename (f : NodeId → NodeId) : start (g.rename f) = (start g).rename f := by
  simp [start, rename, Graph.rename, Neighbours.rename, List.filter_map, Function.comp_def]

include hf

/-- To tell a renamed node counts down its number. -/
theorem tell_rename (q : Queue) (id : NodeId) :
    (q.rename f).tell (f id) = (q.tell id).rename f := by
  have hwaiting : (q.rename f).waitingFor? (f id) = q.waitingFor? id :=
    (lookup_map_injective hf q.waiting (fun n => n) id).trans Option.map_id'
  rw [tell, hwaiting, tell]
  split
  next n _ =>
    have hwaiting' : ((q.rename f).waiting.map fun w => if w.1 = f id then (w.1, n) else w)
        = (q.waiting.map fun w => if w.1 = id then (w.1, n) else w).map
            fun w => (f w.1, w.2) := by
      rw [rename, List.map_map, List.map_map]
      refine List.map_congr_left fun w _ => ?_
      simp only [Function.comp_apply, hf.eq_iff]
      split <;> rfl
    rw [hwaiting']
    by_cases hn : n = 0
    · rw [if_pos hn, if_pos hn]
      simp [rename]
    · rw [if_neg hn, if_neg hn]
      rfl
  · rfl

/-- One step of the renamed queue is the renamed step. -/
theorem step_rename (q : Queue) : (q.rename f).step (g.rename f) = (q.step g).rename f := by
  obtain ⟨waiting, ready, order⟩ := q
  cases ready with
  | nil => rfl
  | cons id rest =>
    have hstart : (⟨waiting.map fun w => (f w.1, w.2), rest.map f, order.map f ++ [f id]⟩ : Queue)
        = Queue.rename f ⟨waiting, rest, order ++ [id]⟩ := by
      simp [rename]
    show ((g.rename f).dependents (f id)).foldl tell
      ⟨waiting.map fun w => (f w.1, w.2), rest.map f, order.map f ++ [f id]⟩ = _
    rw [Graph.dependents_rename hf, List.foldl_map, hstart]
    exact List.foldl_hom (rename f) fun q id => tell_rename hf q id

/-- The renamed queue takes its nodes in the same order. -/
theorem run_rename (fuel : Nat) (q : Queue) :
    run (g.rename f) fuel (q.rename f) = (run g fuel q).rename f := by
  induction fuel generalizing q with
  | zero => rfl
  | succ fuel ih =>
    have hempty : (q.rename f).ready.isEmpty = q.ready.isEmpty := List.isEmpty_map
    rw [run, run, hempty, step_rename hf, ih]
    split <;> rfl

end Queue

/-! ### Cycles and schedules -/

namespace Graph

variable (g : Graph)

include hf

/-- The cycles of the renamed graph are the renamed cycles, found in the same order. -/
theorem cycles_rename : (g.rename f).cycles = g.cycles.map (List.map f) := by
  have hstart : Search.start.rename f = Search.start := rfl
  have hsearch : (g.ids.map f).foldl (Search.explore (g.rename f)) Search.start
      = (g.ids.foldl (Search.explore g) Search.start).rename f := by
    rw [List.foldl_map, ← hstart]
    exact List.foldl_hom (Search.rename f) fun s root => Search.explore_rename hf g s root
  rw [cycles, ids_rename, hsearch]
  rfl

/-- The schedule of the renamed graph is the renamed schedule. -/
theorem schedule_rename : (g.rename f).schedule = g.schedule.map (List.map f) := by
  have horder : (g.rename f).schedulable = g.schedulable.map f := by
    rw [schedulable, size_rename, Queue.start_rename, Queue.run_rename hf]
    rfl
  rw [schedule, schedule, horder, size_rename, List.length_map]
  split <;> rfl

end Graph

/-! ### Names for some of the nodes only -/

instance : Infinite NodeId :=
  Infinite.of_injective (fun n : ℕ => ⟨String.ofList (List.replicate n 'x')⟩) fun m n h => by
    simpa using congrArg (fun id : NodeId => id.text.length) h

omit hf in
/-- Names without repetition for finitely many nodes can be completed to names for all. -/
theorem exists_injective_extension {ids : Set NodeId} (hids : ids.Finite)
    (hf : Set.InjOn f ids) : ∃ h : NodeId → NodeId, h.Injective ∧ ∀ id ∈ ids, h id = f id := by
  have hlt : Cardinal.mk ids < Cardinal.mk NodeId :=
    (Cardinal.lt_aleph0_iff_set_finite.mpr hids).trans_le (Cardinal.aleph0_le_mk NodeId)
  obtain ⟨h, hh⟩ := Cardinal.extend_function_of_lt ⟨Set.domRestrict ids f, hf.injective⟩ hlt
    ⟨Equiv.refl NodeId⟩
  exact ⟨h, h.injective, fun id hid => hh ⟨id, hid⟩⟩

end QueryGraph
