import QueryGraph.Plan.Compile
import QueryGraph.Proofs.Graph.Topological

namespace QueryGraph

/-!
# How far a compilation comes

* `compile_of_acyclic`: the plan of an acyclic snapshot is that of a topological order.
* `compile_of_not_acyclic`: the plan of any other snapshot is abandoned for its cycles.
* `fatal_iff_cyclic`: the search for cycles, the schedule and the stage of the plan agree on
  which snapshots have a cycle.
-/

variable {nodes : List Node} {edges : List Edge}

/-! ### The two ends of a compilation -/

/-- The fragments and failures of a snapshot whose nodes are compiled in some order. -/
def progressAlong (settings : Settings) (context : Context) (nodes : List Node)
    (edges : List Edge) (order : List NodeId) : Progress :=
  order.foldl (Progress.advance settings context nodes (Graph.build nodes edges)) Progress.start

/-- A snapshot with a schedule is compiled along it. -/
theorem compile_of_schedule (settings : Settings) (context : Context) {order : List NodeId}
    (h : (Graph.build nodes edges).schedule = .ok order) :
    compile settings nodes edges context =
      finish nodes (Graph.build nodes edges) order
        (progressAlong settings context nodes edges order) := by
  have hacyclic : Acyclic nodes edges := exists_schedule_build_iff.mp ⟨order, h⟩
  simp only [compile, cycles_build_eq_nil_iff.mpr hacyclic, List.isEmpty_nil, if_true, h]
  rfl

/-- An acyclic snapshot is compiled along a topological order. -/
theorem compile_of_acyclic (settings : Settings) (context : Context) (h : Acyclic nodes edges) :
    ∃ order, IsTopological nodes edges order ∧
      compile settings nodes edges context =
        finish nodes (Graph.build nodes edges) order
          (progressAlong settings context nodes edges order) := by
  obtain ⟨order, horder⟩ := exists_schedule_build_iff.mpr h
  exact ⟨order, isTopological_of_schedule horder, compile_of_schedule settings context horder⟩

/-- A snapshot with a cycle is abandoned once its cycles are found. -/
theorem compile_of_not_acyclic (settings : Settings) (context : Context)
    (h : ¬ Acyclic nodes edges) :
    compile settings nodes edges context =
      .aborted (.cycles (Graph.build nodes edges).cycles)
        (structuralStatistics nodes (Graph.build nodes edges)) := by
  have hne : (Graph.build nodes edges).cycles.isEmpty = false := by
    rw [List.isEmpty_eq_false_iff]
    exact fun hnil => h (cycles_build_eq_nil_iff.mp hnil)
  simp [compile, hne]

/-- The plan of an acyclic snapshot is not abandoned. -/
theorem not_fatal_of_acyclic (settings : Settings) (context : Context)
    (h : Acyclic nodes edges) : (compile settings nodes edges context).stage ≠ .fatal := by
  obtain ⟨order, -, hcompile⟩ := compile_of_acyclic settings context h
  rw [hcompile]
  show Stage.finalize ≠ Stage.fatal
  decide

/-- A snapshot whose plan is not abandoned has no cycle. -/
theorem acyclic_of_not_fatal {settings : Settings} {context : Context}
    (h : (compile settings nodes edges context).stage ≠ .fatal) :
    Acyclic nodes edges := by
  by_contra hacyclic
  rw [compile_of_not_acyclic settings context hacyclic] at h
  exact h rfl

/-- **The search for cycles and the schedule agree.**  No cycle is found exactly if there is a
    schedule, and exactly if no walk of live edges comes back to where it started.  A snapshot
    is abandoned exactly if there is such a walk; then the plan holds the cycles that were
    found, at least one, and nothing else; and no plan is abandoned for want of a schedule. -/
theorem fatal_iff_cyclic (nodes : List Node) (edges : List Edge) :
    ((Graph.build nodes edges).cycles = [] ↔
        ∃ order, (Graph.build nodes edges).schedule = .ok order) ∧
      ((∃ order, (Graph.build nodes edges).schedule = .ok order) ↔
        ¬ ∃ id, Relation.TransGen (Feeds nodes edges) id id) ∧
      ∀ (settings : Settings) (context : Context),
        let p := compile settings nodes edges context
        (p.stage = .fatal ↔ ∃ id, Relation.TransGen (Feeds nodes edges) id id) ∧
          (p.stage = .fatal →
            p.cycles = (Graph.build nodes edges).cycles ∧ p.cycles ≠ [] ∧
              p.fatal = some (.cycles p.cycles) ∧ p.order = [] ∧ p.outputs = [] ∧
              p.errors = [] ∧ p.programs = [] ∧ p.finalText = none) ∧
          ∀ scheduled total, p.fatal ≠ some (.unschedulable scheduled total) := by
  have hwalk : (¬ ∃ id, Relation.TransGen (Feeds nodes edges) id id) ↔ Acyclic nodes edges :=
    not_exists
  refine ⟨by rw [cycles_build_eq_nil_iff, exists_schedule_build_iff],
    by rw [exists_schedule_build_iff, hwalk], fun settings context => ?_⟩
  -- The plan of an acyclic snapshot has an order, and any other one shows its cycles.
  by_cases h : Acyclic nodes edges
  · obtain ⟨order, -, hcompile⟩ := compile_of_acyclic settings context h
    have hnone := hwalk.mpr h
    rw [hcompile]
    simp [finish, hnone]
  · have hsome := not_not.mp fun hnone => h (hwalk.mp hnone)
    have hne : (Graph.build nodes edges).cycles ≠ [] :=
      fun hnil => h (cycles_build_eq_nil_iff.mp hnil)
    rw [compile_of_not_acyclic settings context h]
    simp [Plan.aborted, hsome, hne]

end QueryGraph
