import QueryGraph.Proofs.Graph.Index
import QueryGraph.Proofs.Graph.Succession

namespace QueryGraph

/-!
# The live edges that a deletion leaves

* `liveEdges_cascade`: what is live in the graph that is left are the live edges of before that
  have no end among what was removed.
* `liveInto_cascade`: a node whose sources are all left keeps its live edges as they are.
* `find?_cascade`: a node that is left is found under its id as before.
* `starved_output_iff`: an output that loses all its live edges is left exactly if an edge from
  outside of the graph leads to it.
* `dangling_edge_keeps_output`: so an output can be left without a live edge.
-/

variable {targets : List NodeId} {nodes : List Node} {edges : List Edge}

open Removal (gone)

/-! ### Edges -/

/-- An edge that is left is live exactly if it was: an end that was a node is one still, for the
    edge would not be left without it. -/
theorem liveEdges_cascade (targets : List NodeId) (nodes : List Node) (edges : List Edge) :
    liveEdges (cascade targets nodes edges).nodes (cascade targets nodes edges).edges
      = (liveEdges nodes edges).filter fun e =>
          e.source ∉ (Removal.plan targets nodes edges).removed ∧
            e.target ∉ (Removal.plan targets nodes edges).removed := by
  unfold liveEdges
  rw [cascade_edges, List.filter_filter, List.filter_filter]
  apply List.filter_congr
  intro e _
  rw [Bool.eq_iff_iff, Bool.and_eq_true, Bool.and_eq_true, decide_eq_true_eq, decide_eq_true_eq,
    decide_eq_true_eq]
  unfold Edge.IsLive
  rw [mem_ids_cascade, mem_ids_cascade]
  constructor
  · rintro ⟨⟨hsource, htarget⟩, hleft⟩
    exact ⟨hleft, hsource.1, htarget.1⟩
  · rintro ⟨hleft, hsource, htarget⟩
    exact ⟨⟨⟨hsource, hleft.1⟩, htarget, hleft.2⟩, hleft⟩

/-- An edge is live after a deletion if it was live and has no end that is gone. -/
theorem mem_liveEdges_cascade {e : Edge} :
    e ∈ liveEdges (cascade targets nodes edges).nodes (cascade targets nodes edges).edges ↔
      e ∈ liveEdges nodes edges ∧ e.source ∉ gone targets nodes edges ∧
        e.target ∉ gone targets nodes edges := by
  rw [liveEdges_cascade, List.mem_filter, decide_eq_true_eq]
  exact Iff.rfl

/-- A node whose sources are all left keeps its live edges, in their order. -/
theorem liveInto_cascade {id : NodeId} (hid : id ∉ gone targets nodes edges)
    (hsources : ∀ e ∈ liveInto nodes edges id, e.source ∉ gone targets nodes edges) :
    liveInto (cascade targets nodes edges).nodes (cascade targets nodes edges).edges id
      = liveInto nodes edges id := by
  unfold liveInto
  rw [liveEdges_cascade, List.filter_filter]
  apply List.filter_congr
  intro e he
  rw [Bool.eq_iff_iff, Bool.and_eq_true, decide_eq_true_eq, decide_eq_true_eq]
  refine ⟨fun h => h.1, fun htarget => ⟨htarget, ?_, ?_⟩⟩
  · exact hsources e (mem_liveInto.mpr ⟨he, htarget⟩)
  · subst htarget
    exact hid

/-- What feeds a node after a deletion fed it before. -/
theorem Feeds.of_cascade {u v : NodeId}
    (h : Feeds (cascade targets nodes edges).nodes (cascade targets nodes edges).edges u v) :
    Feeds nodes edges u v := by
  obtain ⟨e, he, hsource, htarget⟩ := h
  exact ⟨e, (mem_liveEdges_cascade.mp he).1, hsource, htarget⟩

/-- A deletion makes no cycles. -/
theorem acyclic_cascade (targets : List NodeId) (h : Acyclic nodes edges) :
    Acyclic (cascade targets nodes edges).nodes (cascade targets nodes edges).edges :=
  fun id hwalk => h id (Relation.TransGen.mono (fun _ _ => Feeds.of_cascade) _ _ hwalk)

/-! ### Nodes -/

/-- All entries under an id are left, or none of them. -/
theorem find?_cascade {id : NodeId} (hid : id ∉ gone targets nodes edges) :
    Node.find? (cascade targets nodes edges).nodes id = Node.find? nodes id := by
  unfold Node.find?
  rw [cascade_nodes, List.find?_filter]
  congr 1
  funext n
  by_cases hn : n.id = id
  · have hleft : n.id ∉ (Removal.plan targets nodes edges).removed := hn ▸ hid
    simp [hleft]
  · simp [hn]

/-! ### Outputs that are left -/

/-- What is no target stays if an edge from outside of the graph leads to it: no deletion takes
    that edge. -/
theorem not_gone_of_dangling {id : NodeId} {e : Edge} (hid : id ∉ targets) (he : e ∈ edges)
    (htarget : e.target = id) (hsource : e.source ∉ nodes.map Node.id) :
    id ∉ gone targets nodes edges := by
  -- All nodes but this one are closed together, for the edge from outside has no end among them.
  have hclosed : CascadeClosed targets nodes edges {v | v ∈ nodes.map Node.id ∧ v ≠ id} := by
    refine ⟨fun v hv hnode => ⟨hnode, ?_⟩, fun n hn _ _ hall => ⟨List.mem_map_of_mem hn, ?_⟩⟩
    · rintro rfl
      exact hid hv
    · intro heq
      rcases hall e he (htarget.trans heq.symm) with hin | hin
      · exact hsource hin.1
      · exact hin.2 htarget
  exact fun hmem => (Removal.gone_subset hclosed hmem).2 rfl

/-- An output that is left and had an incoming edge has one still. -/
theorem exists_edge_left {n : Node} (hn : n ∈ (cascade targets nodes edges).nodes)
    (hkind : n.kind = .output) (hhad : ∃ e ∈ edges, e.target = n.id) :
    ∃ e ∈ (cascade targets nodes edges).edges, e.target = n.id := by
  obtain ⟨hmem, hleft⟩ := mem_nodes_cascade.mp hn
  by_contra hnone
  refine hleft ((Removal.gone_closed targets nodes edges).starved n hmem hkind hhad ?_)
  intro e he htarget
  by_contra hout
  rw [not_or] at hout
  exact hnone ⟨e, mem_edges_cascade.mpr ⟨he, hout⟩, htarget⟩

/-- A node that is left is starved if the sources of all its live edges are removed. -/
theorem liveInto_cascade_eq_nil_iff {id : NodeId} (hid : id ∉ gone targets nodes edges) :
    liveInto (cascade targets nodes edges).nodes (cascade targets nodes edges).edges id = [] ↔
      ∀ e ∈ liveInto nodes edges id,
        e.source ∉ (cascade targets nodes edges).nodes.map Node.id := by
  rw [List.eq_nil_iff_forall_not_mem]
  constructor
  · intro hstarved e he hsource
    obtain ⟨hlive, rfl⟩ := mem_liveInto.mp he
    refine hstarved e (mem_liveInto.mpr ⟨mem_liveEdges_cascade.mpr ⟨hlive, ?_, hid⟩, rfl⟩)
    exact (mem_ids_cascade.mp hsource).2
  · intro hsources e he
    obtain ⟨hlive, htarget⟩ := mem_liveInto.mp he
    obtain ⟨hbefore, hsource, -⟩ := mem_liveEdges_cascade.mp hlive
    exact hsources e (mem_liveInto.mpr ⟨hbefore, htarget⟩)
      (mem_ids_cascade.mpr ⟨(mem_liveEdges.mp hbefore).2.1, hsource⟩)

/-- What is left of the edges into an output that is left but starved comes from nowhere. -/
theorem exists_dangling_of_starved {n : Node} (hn : n ∈ (cascade targets nodes edges).nodes)
    (hkind : n.kind = .output) (hfed : liveInto nodes edges n.id ≠ [])
    (hstarved : liveInto (cascade targets nodes edges).nodes (cascade targets nodes edges).edges
      n.id = []) :
    ∃ e ∈ edges, e.target = n.id ∧ e.source ∉ nodes.map Node.id := by
  obtain ⟨e', he'⟩ := List.exists_mem_of_ne_nil _ hfed
  obtain ⟨hlive, hinto⟩ := mem_liveInto.mp he'
  obtain ⟨e, he, htarget⟩ := exists_edge_left hn hkind ⟨e', (mem_liveEdges.mp hlive).1, hinto⟩
  obtain ⟨hbefore, hsource, -⟩ := mem_edges_cascade.mp he
  refine ⟨e, hbefore, htarget, fun hnode => ?_⟩
  -- With a node as its source, the edge that is left would be live.
  have hends : e.source ∈ (cascade targets nodes edges).nodes.map Node.id ∧
      e.target ∈ (cascade targets nodes edges).nodes.map Node.id :=
    ⟨mem_ids_cascade.mpr ⟨hnode, hsource⟩, htarget ▸ List.mem_map_of_mem hn⟩
  have hmem := mem_liveInto.mpr ⟨mem_liveEdges.mpr ⟨he, hends⟩, htarget⟩
  rw [hstarved] at hmem
  exact List.not_mem_nil hmem

/-- **An output outlives its live edges exactly if a dangling edge holds it.**  An output that
    was fed is left without any live edge if and only if it is no target, the sources of all its
    live edges are removed, and an edge leads to it from an id that no node has.  So an output
    that was fed, and to which no such edge leads, is not left unless it is still fed. -/
theorem starved_output_iff (targets : List NodeId) (nodes : List Node) (edges : List Edge) :
    let left := cascade targets nodes edges
    (∀ n ∈ nodes, n.kind = .output → liveInto nodes edges n.id ≠ [] →
        (n ∈ left.nodes ∧ liveInto left.nodes left.edges n.id = [] ↔
          n.id ∉ targets ∧
            (∀ e ∈ liveInto nodes edges n.id, e.source ∉ left.nodes.map Node.id) ∧
            ∃ e ∈ edges, e.target = n.id ∧ e.source ∉ nodes.map Node.id)) ∧
      ∀ n ∈ left.nodes, n.kind = .output → liveInto nodes edges n.id ≠ [] →
        (∀ e ∈ edges, e.target = n.id → e.source ∈ nodes.map Node.id) →
          liveInto left.nodes left.edges n.id ≠ [] := by
  intro left
  refine ⟨fun n hn hkind hfed => ⟨?_, ?_⟩, fun n hn hkind hfed hno hstarved => ?_⟩
  · -- It is left, so it is no target, and its live edges went with their sources.
    rintro ⟨hleft, hstarved⟩
    have hout := (mem_nodes_cascade.mp hleft).2
    refine ⟨fun htarget => hout ?_, (liveInto_cascade_eq_nil_iff hout).mp hstarved,
      exists_dangling_of_starved hleft hkind hfed hstarved⟩
    exact (Removal.gone_closed targets nodes edges).target n.id htarget (List.mem_map_of_mem hn)
  · -- The dangling edge keeps it, and no live edge is left into it.
    rintro ⟨htarget, hsources, e, he, hen, hdangling⟩
    have hout := not_gone_of_dangling htarget he hen hdangling
    exact ⟨mem_nodes_cascade.mpr ⟨hn, hout⟩, (liveInto_cascade_eq_nil_iff hout).mpr hsources⟩
  · obtain ⟨e, he, htarget, hdangling⟩ := exists_dangling_of_starved hn hkind hfed hstarved
    exact hdangling (hno e he htarget)

/-- A view of an event, to which another edge leads from an id without a node. -/
def danglingView : List Node × List Edge :=
  ([⟨⟨"event"⟩, .event ⟨none, []⟩⟩, ⟨⟨"view"⟩, .output ⟨some "v"⟩⟩],
    [⟨none, ⟨"event"⟩, ⟨"view"⟩, none, none⟩, ⟨none, ⟨"gone"⟩, ⟨"view"⟩, none, none⟩])

/-- The view of a deleted event is left, although nothing feeds it any more, for an edge from
    nowhere counts as one of its incoming edges. -/
theorem dangling_edge_keeps_output :
    let left := cascade [⟨"event"⟩] danglingView.1 danglingView.2
    (danglingView.1.map Node.id).Nodup ∧
      ∃ n ∈ left.nodes, n.kind = .output ∧ liveInto danglingView.1 danglingView.2 n.id ≠ [] ∧
        liveInto left.nodes left.edges n.id = [] := by
  refine ⟨by decide, ⟨⟨"view"⟩, .output ⟨some "v"⟩⟩, ?_, rfl, by decide, by decide⟩
  exact mem_nodes_cascade.mpr ⟨by simp [danglingView],
    not_gone_of_dangling (e := ⟨none, ⟨"gone"⟩, ⟨"view"⟩, none, none⟩) (by decide) (by decide) rfl
      (by decide)⟩

end QueryGraph
