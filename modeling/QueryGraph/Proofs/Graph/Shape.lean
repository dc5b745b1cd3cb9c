import QueryGraph.Graph.Cycle
import QueryGraph.Graph.Schedule
import QueryGraph.Proofs.Graph.Index

namespace QueryGraph.Graph

/-!
# Graphs of the same shape

* `SameShape`: two graphs with the same nodes in the same order, and the same dependencies and
  dependents of each; the handles of edges and the inert edges may differ.
* `SameShape.cycles_eq`, `SameShape.schedule_eq`: such graphs have the same cycles, found in the
  same order, and the same schedule.
-/

/-- The nodes, their order and who depends on whom are the same. -/
structure SameShape (g g' : Graph) : Prop where
  ids_eq : g.ids = g'.ids
  dependencies_eq : ∀ id, g.dependencies id = g'.dependencies id
  dependents_eq : ∀ id, g.dependents id = g'.dependents id

variable {g g' : Graph}

/-- A well-formed graph is the table of the neighbours of its nodes. -/
theorem WellFormed.entries_eq (hg : g.WellFormed) :
    g.entries = g.ids.map fun id => (id, g.neighbours id) := by
  unfold ids
  rw [List.map_map]
  refine (List.map_id' g.entries).symm.trans (List.map_congr_left fun e he => ?_)
  show e = (e.1, g.neighbours e.1)
  rw [hg.neighbours_of_mem (v := e.1) (n := e.2) he]

/-- How a cycle is recorded depends on the order of the nodes alone. -/
theorem record_congr (hids : g.ids = g'.ids) (closing : NodeId) (s : Search) :
    s.record g closing = s.record g' closing := by
  unfold Search.record Search.rotate index?
  rw [← length_ids, ← length_ids, hids]

namespace SameShape

theorem size_eq (h : g.SameShape g') : g.size = g'.size := by
  rw [← length_ids, ← length_ids, h.ids_eq]

theorem neighbours_dependencies_eq (h : g.SameShape g') (id : NodeId) :
    (g.neighbours id).dependencies = (g'.neighbours id).dependencies := h.dependencies_eq id

/-! ### The search for cycles -/

/-- What is recorded goes by the order of the nodes, which is the same. -/
theorem record_eq (h : g.SameShape g') (closing : NodeId) (s : Search) :
    s.record g closing = s.record g' closing := record_congr h.ids_eq closing s

/-- A step of the search reads dependencies and no handle. -/
theorem search_step_eq (h : g.SameShape g') (s : Search) : s.step g = s.step g' := by
  unfold Search.step
  simp only [h.dependencies_eq, h.record_eq]

/-- The searches go the same way for any number of steps. -/
theorem search_run_eq (h : g.SameShape g') (fuel : Nat) (s : Search) :
    Search.run g fuel s = Search.run g' fuel s := by
  induction fuel generalizing s with
  | zero => rfl
  | succ fuel ih => rw [Search.run, Search.run, h.search_step_eq, ih]

/-- The searches allow for the same number of steps. -/
theorem bound_eq (h : g.SameShape g') (hg : g.WellFormed) (hg' : g'.WellFormed) :
    Search.bound g = Search.bound g' := by
  unfold Search.bound
  rw [hg.entries_eq, hg'.entries_eq, h.ids_eq, List.foldr_map, List.foldr_map]
  simp only [h.neighbours_dependencies_eq]

/-- The same cycles are found, in the same order. -/
theorem cycles_eq (h : g.SameShape g') (hg : g.WellFormed) (hg' : g'.WellFormed) :
    g.cycles = g'.cycles := by
  have hexplore : Search.explore g = Search.explore g' := by
    funext s root
    unfold Search.explore
    rw [h.search_run_eq, h.bound_eq hg hg']
  rw [cycles, cycles, hexplore, h.ids_eq]

/-! ### The schedule -/

/-- The queues start alike. -/
theorem start_eq (h : g.SameShape g') (hg : g.WellFormed) (hg' : g'.WellFormed) :
    Queue.start g = Queue.start g' := by
  unfold Queue.start
  rw [hg.entries_eq, hg'.entries_eq, h.ids_eq]
  simp only [List.map_map, List.filter_map, Function.comp_def, h.neighbours_dependencies_eq]

/-- The queues go on alike, since a step reads dependents only. -/
theorem queue_run_eq (h : g.SameShape g') (fuel : Nat) (q : Queue) :
    Queue.run g fuel q = Queue.run g' fuel q := by
  have hstep : ∀ q : Queue, q.step g = q.step g' := by
    intro q
    unfold Queue.step
    simp only [h.dependents_eq]
  induction fuel generalizing q with
  | zero => rfl
  | succ fuel ih => rw [Queue.run, Queue.run, hstep, ih]

/-- Graphs of one shape have the same schedule, or fail with the same numbers. -/
theorem schedule_eq (h : g.SameShape g') (hg : g.WellFormed) (hg' : g'.WellFormed) :
    g.schedule = g'.schedule := by
  have horder : g.schedulable = g'.schedulable := by
    unfold schedulable
    rw [h.start_eq hg hg', h.queue_run_eq, h.size_eq]
  rw [schedule, schedule, horder, h.size_eq]

end SameShape

end QueryGraph.Graph
