import QueryGraph.Proofs.Graph.Remainder
import QueryGraph.Proofs.Plan.Locality

namespace QueryGraph

/-!
# A deletion and the plans before and after it

* `SharedPart.cascade`: a node that is left with all its ancestors belongs, with them, to both
  snapshots.
* `cascade_spares_unrelated`: such a node has the same fragment or the same failure before and
  after the deletion.
-/

variable {targets : List NodeId} {nodes : List Node} {edges : List Edge}

open Removal (gone)

/-- An ancestor of a node that is left with all of its ancestors is left. -/
theorem not_gone_of_ancestor {u v : NodeId}
    (hv : v ∈ (cascade targets nodes edges).nodes.map Node.id)
    (hancestors : ∀ u, Relation.TransGen (Feeds nodes edges) u v →
      u ∈ (cascade targets nodes edges).nodes.map Node.id)
    (hu : Relation.ReflTransGen (Feeds nodes edges) u v) : u ∉ gone targets nodes edges := by
  rcases Relation.reflTransGen_iff_eq_or_transGen.mp hu with rfl | hwalk
  · exact (mem_ids_cascade.mp hv).2
  · exact (mem_ids_cascade.mp (hancestors u hwalk)).2

/-- A node that is left with all its ancestors is fed in the same way before and after. -/
theorem SharedPart.cascade {v : NodeId}
    (hv : v ∈ (cascade targets nodes edges).nodes.map Node.id)
    (hancestors : ∀ u, Relation.TransGen (Feeds nodes edges) u v →
      u ∈ (cascade targets nodes edges).nodes.map Node.id) :
    SharedPart nodes (cascade targets nodes edges).nodes edges (cascade targets nodes edges).edges
      {u | Relation.ReflTransGen (Feeds nodes edges) u v} := by
  refine SharedPart.ancestors fun u hu => ?_
  -- Nothing that leads to the node is gone, so its edges are still there.
  have hleft := not_gone_of_ancestor hv hancestors hu
  have hnode : u ∈ (QueryGraph.cascade targets nodes edges).nodes.map Node.id := by
    rcases Relation.reflTransGen_iff_eq_or_transGen.mp hu with rfl | hwalk
    · exact hv
    · exact hancestors u hwalk
  obtain ⟨n, hn⟩ := Node.exists_find?_of_mem hnode
  refine ⟨⟨n, (find?_cascade hleft).symm.trans hn, hn⟩, ?_⟩
  have hsources : ∀ e ∈ liveInto nodes edges u, e.source ∉ gone targets nodes edges :=
    fun e he => not_gone_of_ancestor hv hancestors (.head (feeds_iff.mpr ⟨e, he, rfl⟩) hu)
  unfold wiring
  rw [liveInto_cascade hleft hsources]

/-- **A deletion spares what does not depend on it.**  What is left of a snapshot that compiles
    compiles too, and every node that is left, and none of whose ancestors along live edges is
    removed, has the same fragment or the same failure as before. -/
theorem cascade_spares_unrelated (settings : Settings) (context : Context)
    (targets : List NodeId) (nodes : List Node) (edges : List Edge)
    (hfatal : (compile settings nodes edges context).stage ≠ .fatal) :
    let left := cascade targets nodes edges
    let before := compile settings nodes edges context
    let after := compile settings left.nodes left.edges context
    after.stage ≠ .fatal ∧
      ∀ id ∈ left.nodes.map Node.id,
        (∀ u, Relation.TransGen (Feeds nodes edges) u id → u ∈ left.nodes.map Node.id) →
          ∃ r, before.outcomes.Has id r ∧ after.outcomes.Has id r := by
  intro left before after
  have hacyclic := acyclic_of_not_fatal hfatal
  -- Removing nodes and edges adds no cycle.
  have hacyclic' : Acyclic left.nodes left.edges := acyclic_cascade targets hacyclic
  refine ⟨?_, fun id hid hancestors => ?_⟩
  · exact not_fatal_of_acyclic settings context hacyclic'
  · exact (SharedPart.cascade hid hancestors).has hacyclic
      (solves_compile settings context hacyclic) (solves_compile settings context hacyclic') .refl

/-- Two branches: an event with a view of it, and a filter of an event that is not configured.
    An edge from nowhere leads to the filter. -/
def twoBranches : List Node × List Edge :=
  ([⟨⟨"view"⟩, .output ⟨some "v"⟩⟩, ⟨⟨"first"⟩, .event ⟨none, []⟩⟩,
      ⟨⟨"filter"⟩, .filter ⟨[]⟩⟩, ⟨⟨"second"⟩, .event ⟨some "login", []⟩⟩],
    [⟨none, ⟨"first"⟩, ⟨"view"⟩, none, none⟩, ⟨none, ⟨"gone"⟩, ⟨"filter"⟩, none, none⟩,
      ⟨none, ⟨"second"⟩, ⟨"filter"⟩, none, none⟩])

/-- With the first event the view goes, and the filter has the fragment that it had. -/
theorem cascade_spares_unrelated_branches :
    let left := cascade [⟨"first"⟩] twoBranches.1 twoBranches.2
    let before := compile Settings.default twoBranches.1 twoBranches.2 ⟨"games", 7⟩
    let after := compile Settings.default left.nodes left.edges ⟨"games", 7⟩
    before.stage ≠ .fatal ∧ left.nodes.map Node.id = [⟨"filter"⟩, ⟨"second"⟩] ∧
      (before.output? ⟨"filter"⟩).isSome ∧
      ∃ r, before.outcomes.Has ⟨"filter"⟩ r ∧ after.outcomes.Has ⟨"filter"⟩ r := by
  intro left before after
  have hfatal : before.stage ≠ .fatal := by decide +kernel
  have hids : left.nodes.map Node.id = [⟨"filter"⟩, ⟨"second"⟩] := by decide +kernel
  refine ⟨hfatal, hids, by decide +kernel, ?_⟩
  refine (cascade_spares_unrelated Settings.default ⟨"games", 7⟩ [⟨"first"⟩] twoBranches.1
    twoBranches.2 hfatal).2 ⟨"filter"⟩ ?_ ?_
  · show (⟨"filter"⟩ : NodeId) ∈ left.nodes.map Node.id
    rw [hids]
    decide
  · -- Only the second event feeds the filter, and nothing feeds that event.
    have hclosed : ∀ e ∈ liveEdges twoBranches.1 twoBranches.2,
        e.target ∈ left.nodes.map Node.id → e.source ∈ left.nodes.map Node.id := by
      rw [hids]
      decide
    intro u hu
    show u ∈ left.nodes.map Node.id
    induction hu using Relation.TransGen.head_induction_on with
    | single h =>
      obtain ⟨e, he, rfl, htarget⟩ := h
      exact hclosed e he (by rw [htarget, hids]; decide)
    | head h _ ih =>
      obtain ⟨e, he, rfl, rfl⟩ := h
      exact hclosed e he ih

end QueryGraph
