import QueryGraph.Proofs.Graph.Succession

namespace QueryGraph

/-!
# The counts of a deletion

* `Edge.IsWanted`: an edge of a node that a deletion is asked for.
* `Removal.nodesLeft_afterTargets`, `Removal.edgesLeft_afterTargets`: the targets go with exactly
  those edges.
* `nodes_cascade_eq`, `edges_cascade_eq`: what a deletion leaves is a part of what is left without
  the targets.
* `summary_counts_removals`: a deletion counts each node and each edge that it removes once: as
  asked for if it is a target or an edge of one, and as a consequence otherwise.
-/

/-- An end of the edge is a node, and a deletion is asked for it. -/
def Edge.IsWanted (targets : List NodeId) (nodes : List Node) (e : Edge) : Prop :=
  ∃ id ∈ targets, id ∈ nodes.map Node.id ∧ e.touches id = true

instance (targets : List NodeId) (nodes : List Node) (e : Edge) :
    Decidable (e.IsWanted targets nodes) :=
  inferInstanceAs (Decidable (∃ id ∈ targets, _ ∧ _))

variable {targets : List NodeId} {nodes : List Node} {edges : List Edge}

/-- An edge is wanted for its source or for its target. -/
theorem Edge.isWanted_iff {e : Edge} :
    e.IsWanted targets nodes ↔
      (e.source ∈ targets ∧ e.source ∈ nodes.map Node.id) ∨
        (e.target ∈ targets ∧ e.target ∈ nodes.map Node.id) := by
  simp only [IsWanted, touches, Bool.or_eq_true, decide_eq_true_eq]
  constructor
  · rintro ⟨id, hid, hnode, rfl | rfl⟩
    · exact Or.inl ⟨hid, hnode⟩
    · exact Or.inr ⟨hid, hnode⟩
  · rintro (⟨hid, hnode⟩ | ⟨hid, hnode⟩)
    · exact ⟨e.source, hid, hnode, Or.inl rfl⟩
    · exact ⟨e.target, hid, hnode, Or.inr rfl⟩

open Removal (gone nodesLeft afterTargets)

/-! ### After the targets -/

/-- After the targets, the nodes are left that are none. -/
theorem Removal.nodesLeft_afterTargets (targets : List NodeId) (nodes : List Node)
    (edges : List Edge) :
    nodesLeft nodes (afterTargets targets nodes edges)
      = nodes.filter fun n => !decide (n.id ∈ targets) := by
  apply List.filter_congr
  intro n hn
  rw [← decide_not, decide_eq_decide, mem_removed_afterTargets]
  have hnode : n.id ∈ nodes.map Node.id := List.mem_map_of_mem hn
  tauto

/-- After the targets, the edges are left that none of them is an end of. -/
theorem Removal.edgesLeft_afterTargets (targets : List NodeId) (nodes : List Node)
    (edges : List Edge) :
    (afterTargets targets nodes edges).edgesLeft
      = edges.filter fun e => !decide (e.IsWanted targets nodes) := by
  rw [(afterTargets_sound targets nodes edges).edgesFollow]
  apply List.filter_congr
  intro e _
  rw [← decide_not, decide_eq_decide, mem_removed_afterTargets, mem_removed_afterTargets,
    Edge.isWanted_iff, not_or]

/-! ### In the end -/

/-- The entries that are left are those whose ids are, and no target is. -/
theorem nodes_cascade_eq (targets : List NodeId) (nodes : List Node) (edges : List Edge) :
    let left := cascade targets nodes edges
    left.nodes = (nodes.filter fun n => !decide (n.id ∈ targets)).filter
      fun n => !decide (n.id ∉ left.nodes.map Node.id) := by
  intro left
  rw [List.filter_filter]
  refine (cascade_nodes targets nodes edges).trans (List.filter_congr fun n hn => ?_)
  rw [← decide_not, ← decide_not, ← Bool.decide_and, decide_eq_decide, not_not, mem_ids_cascade]
  have hnode : n.id ∈ nodes.map Node.id := List.mem_map_of_mem hn
  have htarget := (Removal.gone_closed targets nodes edges).target n.id
  constructor
  · intro hleft
    exact ⟨⟨hnode, hleft⟩, fun hid => hleft (htarget hid hnode)⟩
  · rintro ⟨⟨-, hleft⟩, -⟩
    exact hleft

/-- The edges that are left are no edges of targets. -/
theorem edges_cascade_eq (targets : List NodeId) (nodes : List Node) (edges : List Edge) :
    let left := cascade targets nodes edges
    left.edges = (edges.filter fun e => !decide (e.IsWanted targets nodes)).filter
      fun e => !decide (e ∉ left.edges) := by
  intro left
  rw [List.filter_filter]
  refine (cascade_edges targets nodes edges).trans (List.filter_congr fun e he => ?_)
  rw [← decide_not, ← decide_not, ← Bool.decide_and, decide_eq_decide, not_not, mem_edges_cascade,
    Edge.isWanted_iff]
  have htarget := (Removal.gone_closed targets nodes edges).target
  constructor
  · rintro ⟨hsource, hend⟩
    refine ⟨⟨he, hsource, hend⟩, ?_⟩
    rintro (⟨hid, hnode⟩ | ⟨hid, hnode⟩)
    · exact hsource (htarget _ hid hnode)
    · exact hend (htarget _ hid hnode)
  · rintro ⟨⟨-, hleft⟩, -⟩
    exact hleft

/-! ### The counts -/

/-- A number that makes up for what is filtered out is the number of it. -/
theorem eq_countP_of_left {α : Type} {p : α → Bool} {l : List α} {n : Nat}
    (h : n + (l.filter fun a => !p a).length = l.length) : n = l.countP p := by
  have hsplit := length_filter_not p l
  omega

theorem directNodes_cascade (targets : List NodeId) (nodes : List Node) (edges : List Edge) :
    (cascade targets nodes edges).summary.directNodes
      = nodes.countP fun n => n.id ∈ targets := by
  obtain ⟨hcount, -, -, -⟩ := summary_cascade targets nodes edges
  rw [Removal.nodesLeft_afterTargets] at hcount
  exact eq_countP_of_left hcount

/-- As asked for, a deletion counts the edges of its targets. -/
theorem directEdges_cascade (targets : List NodeId) (nodes : List Node) (edges : List Edge) :
    (cascade targets nodes edges).summary.directEdges
      = edges.countP fun e => e.IsWanted targets nodes := by
  obtain ⟨-, hcount, -, -⟩ := summary_cascade targets nodes edges
  rw [Removal.edgesLeft_afterTargets] at hcount
  exact eq_countP_of_left hcount

/-- What is counted as a consequence is counted among what the targets leave. -/
theorem cascadedNodes_cascade (targets : List NodeId) (nodes : List Node) (edges : List Edge) :
    let left := cascade targets nodes edges
    left.summary.cascadedNodes
      = nodes.countP fun n => n.id ∉ left.nodes.map Node.id ∧ n.id ∉ targets := by
  intro left
  obtain ⟨-, -, hcount, -⟩ := summary_cascade targets nodes edges
  rw [Removal.nodesLeft_afterTargets, nodes_cascade_eq] at hcount
  have hcascaded := eq_countP_of_left hcount
  rw [List.countP_filter] at hcascaded
  simpa only [Bool.decide_and, decide_not] using hcascaded

/-- As a consequence, a deletion counts the edges that go and are none of a target. -/
theorem cascadedEdges_cascade (targets : List NodeId) (nodes : List Node) (edges : List Edge) :
    let left := cascade targets nodes edges
    left.summary.cascadedEdges
      = edges.countP fun e => e ∉ left.edges ∧ ¬ e.IsWanted targets nodes := by
  intro left
  obtain ⟨-, -, -, hcount⟩ := summary_cascade targets nodes edges
  rw [Removal.edgesLeft_afterTargets, edges_cascade_eq] at hcount
  have hcascaded := eq_countP_of_left hcount
  rw [List.countP_filter] at hcascaded
  simpa only [Bool.decide_and, decide_not] using hcascaded

/-- A deletion without a target among the nodes removes nothing. -/
theorem gone_eq_empty (h : ∀ id ∈ targets, id ∉ nodes.map Node.id) :
    gone targets nodes edges = ∅ := by
  have hclosed : CascadeClosed targets nodes edges ∅ :=
    ⟨fun id hid hnode => absurd hnode (h id hid), (cascadeClosed_empty nodes edges).starved⟩
  exact Set.subset_empty_iff.mp (Removal.gone_subset hclosed)

/-- A deletion that names no node does nothing and counts nothing. -/
theorem cascade_of_no_target (h : ∀ id ∈ targets, id ∉ nodes.map Node.id) :
    cascade targets nodes edges = ⟨nodes, edges, .zero⟩ := by
  have hgone : gone targets nodes edges = ∅ := gone_eq_empty h
  obtain ⟨hnodes, hedges⟩ := cascade_of_gone_eq_empty hgone
  have htotal := totalNodes_cascade targets nodes edges
  have htotal' := totalEdges_cascade targets nodes edges
  rw [hnodes, CascadeSummary.totalNodes] at htotal
  rw [hedges, CascadeSummary.totalEdges] at htotal'
  refine CascadeOutcome.ext hnodes hedges (CascadeSummary.ext ?_ ?_ ?_ ?_)
  all_goals simp only [CascadeSummary.zero]; omega

/-- **Every removal is counted once and in its class.**  The nodes asked for are the entries
    whose ids are targets, and their edges those that touch a target with such an entry; all
    nodes and edges that go are counted; so what goes as a consequence are the other entries
    whose ids are not left, and the other edges that are not left.  Without a target among the
    nodes nothing is counted and everything is left. -/
theorem summary_counts_removals (targets : List NodeId) (nodes : List Node) (edges : List Edge) :
    let left := cascade targets nodes edges
    let counts := left.summary
    counts.directNodes = nodes.countP (fun n => n.id ∈ targets) ∧
      counts.directEdges = edges.countP (fun e => e.IsWanted targets nodes) ∧
      counts.totalNodes + left.nodes.length = nodes.length ∧
      counts.totalEdges + left.edges.length = edges.length ∧
      counts.cascadedNodes
        = nodes.countP (fun n => n.id ∉ left.nodes.map Node.id ∧ n.id ∉ targets) ∧
      counts.cascadedEdges
        = edges.countP (fun e => e ∉ left.edges ∧ ¬ e.IsWanted targets nodes) ∧
      ((∀ id ∈ targets, id ∉ nodes.map Node.id) → left = ⟨nodes, edges, .zero⟩) := by
  intro left counts
  refine ⟨directNodes_cascade targets nodes edges, directEdges_cascade targets nodes edges,
    totalNodes_cascade targets nodes edges, totalEdges_cascade targets nodes edges,
    cascadedNodes_cascade targets nodes edges, cascadedEdges_cascade targets nodes edges,
    fun hnone => cascade_of_no_target hnone⟩

/-- An event that is named twice and entered twice, with a loop, a view of it and a view of that
    view: the loop is one edge, and both entries go. -/
example :
    (cascade [⟨"event"⟩, ⟨"gone"⟩, ⟨"event"⟩]
      [⟨⟨"event"⟩, .event ⟨none, []⟩⟩, ⟨⟨"view"⟩, .output ⟨none⟩⟩, ⟨⟨"last"⟩, .output ⟨none⟩⟩,
        ⟨⟨"event"⟩, .unionAll⟩]
      [⟨none, ⟨"event"⟩, ⟨"event"⟩, none, none⟩, ⟨none, ⟨"event"⟩, ⟨"view"⟩, none, none⟩,
        ⟨none, ⟨"view"⟩, ⟨"last"⟩, none, none⟩]).summary = ⟨2, 2, 2, 1⟩ := by decide +kernel

end QueryGraph
