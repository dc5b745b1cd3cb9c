import Mathlib.Algebra.Order.Ring.Nat
import Mathlib.Tactic.Set
import QueryGraph.Proofs.Graph.Cascade

namespace QueryGraph

/-!
# Deletions one after the other

* `cascadeEach`: deletions made one after the other, each on what the one before it left.
* `Removal.gone`, `gone_append`: what a deletion removes; two deletions in a row remove what one
  deletion of all their targets removes.
* `Removal.Lowers`: a removal that has come some nodes and edges further, and has counted them.
* `cascades_compose`: deletions in a row leave what one deletion of all targets leaves, and
  count as much; the order of the targets of one deletion does not matter, nor how often each
  of them is named.
-/

attribute [ext] CascadeSummary CascadeOutcome

/-- What deletions in a row leave, and their counts in order. -/
structure Succession where
  nodes : List Node
  edges : List Edge
  summaries : List CascadeSummary

/-- Deletions made one after the other, each on what the one before it left. -/
def cascadeEach : List (List NodeId) → List Node → List Edge → Succession
  | [], nodes, edges => ⟨nodes, edges, []⟩
  | targets :: rest, nodes, edges =>
    let left := cascade targets nodes edges
    let later := cascadeEach rest left.nodes left.edges
    { later with summaries := left.summary :: later.summaries }

variable {targets targets' : List NodeId} {nodes : List Node} {edges : List Edge}

/-! ### Closed sets for several targets -/

/-- Fewer targets are easier to close under. -/
theorem CascadeClosed.mono {s : Set NodeId} (h : CascadeClosed targets' nodes edges s)
    (hsub : targets ⊆ targets') : CascadeClosed targets nodes edges s :=
  ⟨fun id hid => h.target id (hsub hid), h.starved⟩

/-- Without targets nothing has to go: an output with incoming edges would need an end in the empty
    set. -/
theorem cascadeClosed_empty (nodes : List Node) (edges : List Edge) :
    CascadeClosed [] nodes edges ∅ := by
  refine ⟨fun id hid => absurd hid List.not_mem_nil, ?_⟩
  rintro n - - ⟨e, he, htarget⟩ hall
  rcases hall e he htarget with h | h
  · exact h
  · exact h

namespace Removal

/-- The ids that a deletion removes. -/
def gone (targets : List NodeId) (nodes : List Node) (edges : List Edge) : Set NodeId :=
  {id | id ∈ (plan targets nodes edges).removed}

/-- What a deletion removes lies in every closed set. -/
theorem gone_subset {s : Set NodeId} (hs : CascadeClosed targets nodes edges s) :
    gone targets nodes edges ⊆ s :=
  (plan_isLeast targets nodes edges).2 hs

/-- What a deletion removes is closed itself. -/
theorem gone_closed (targets : List NodeId) (nodes : List Node) (edges : List Edge) :
    CascadeClosed targets nodes edges (gone targets nodes edges) :=
  (plan_isLeast targets nodes edges).1

theorem gone_nil (nodes : List Node) (edges : List Edge) : gone [] nodes edges = ∅ :=
  Set.subset_empty_iff.mp (gone_subset (cascadeClosed_empty nodes edges))

/-- What is removed depends only on which ids are targets. -/
theorem gone_congr (h : ∀ id, id ∈ targets ↔ id ∈ targets') :
    gone targets nodes edges = gone targets' nodes edges := by
  apply Set.Subset.antisymm
  · exact gone_subset ((gone_closed targets' nodes edges).mono fun id hid => (h id).mp hid)
  · exact gone_subset ((gone_closed targets nodes edges).mono fun id hid => (h id).mpr hid)

end Removal

open Removal (gone)

/-- A node is left if it was there and is not gone. -/
theorem mem_nodes_cascade {n : Node} :
    n ∈ (cascade targets nodes edges).nodes ↔ n ∈ nodes ∧ n.id ∉ gone targets nodes edges := by
  rw [cascade_nodes, List.mem_filter, decide_eq_true_eq]
  rfl

/-- An edge is left if it was there and neither of its ends is gone. -/
theorem mem_edges_cascade {e : Edge} :
    e ∈ (cascade targets nodes edges).edges ↔
      e ∈ edges ∧ e.source ∉ gone targets nodes edges ∧ e.target ∉ gone targets nodes edges := by
  rw [cascade_edges, List.mem_filter, decide_eq_true_eq]
  rfl

/-- The ids left are those that are not gone. -/
theorem mem_ids_cascade {id : NodeId} :
    id ∈ (cascade targets nodes edges).nodes.map Node.id ↔
      id ∈ nodes.map Node.id ∧ id ∉ gone targets nodes edges := by
  simp only [List.mem_map, mem_nodes_cascade]
  constructor
  · rintro ⟨n, ⟨hn, hleft⟩, rfl⟩
    exact ⟨⟨n, hn, rfl⟩, hleft⟩
  · rintro ⟨⟨n, hn, rfl⟩, hleft⟩
    exact ⟨n, ⟨hn, hleft⟩, rfl⟩

/-- What a set closed for all targets adds to the first deletion is closed for the second one:
    the edges that the second one does not see any more have an end that is gone. -/
theorem CascadeClosed.after {s : Set NodeId}
    (h : CascadeClosed (targets ++ targets') nodes edges s) :
    CascadeClosed targets' (cascade targets nodes edges).nodes
      (cascade targets nodes edges).edges s := by
  have hgone : gone targets nodes edges ⊆ s :=
    Removal.gone_subset (h.mono (List.subset_append_left targets targets'))
  refine ⟨fun id hid hnode => ?_, fun n hn hkind hhad hall => ?_⟩
  · exact h.target id (List.mem_append_right targets hid) (mem_ids_cascade.mp hnode).1
  · obtain ⟨e, he, htarget⟩ := hhad
    have hn' := (mem_nodes_cascade.mp hn).1
    refine h.starved n hn' hkind ⟨e, (mem_edges_cascade.mp he).1, htarget⟩ ?_
    intro e' he' htarget'
    by_cases hleft : e' ∈ (cascade targets nodes edges).edges
    · exact hall e' hleft htarget'
    -- An edge that the first deletion took has an end that is gone.
    · rw [mem_edges_cascade] at hleft
      by_contra hout
      rw [not_or] at hout
      exact hleft ⟨he', fun hs => hout.1 (hgone hs), fun hs => hout.2 (hgone hs)⟩

/-- What two deletions in a row remove is closed for the targets of both.  An output that the
    second one finds without any incoming edge has lost all of them in the first, which has
    then removed it. -/
theorem CascadeClosed.union (targets targets' : List NodeId) (nodes : List Node)
    (edges : List Edge) :
    CascadeClosed (targets ++ targets') nodes edges
      (gone targets nodes edges ∪
        gone targets' (cascade targets nodes edges).nodes (cascade targets nodes edges).edges) := by
  have hfirst := Removal.gone_closed targets nodes edges
  have hsecond := Removal.gone_closed targets' (cascade targets nodes edges).nodes
    (cascade targets nodes edges).edges
  refine ⟨fun id hid hnode => ?_, fun n hn hkind hhad hall => ?_⟩
  -- A target of the second deletion that the first one left is still a node.
  · by_cases hgone : id ∈ gone targets nodes edges
    · exact Or.inl hgone
    · rcases List.mem_append.mp hid with hid | hid
      · exact Or.inl (hfirst.target id hid hnode)
      · exact Or.inr (hsecond.target id hid (mem_ids_cascade.mpr ⟨hnode, hgone⟩))
  · by_cases hgone : n.id ∈ gone targets nodes edges
    · exact Or.inl hgone
    -- Either the second deletion still sees an edge into the output, or the first took them all.
    · by_cases hfed : ∃ e ∈ (cascade targets nodes edges).edges, e.target = n.id
      · refine Or.inr (hsecond.starved n (mem_nodes_cascade.mpr ⟨hn, hgone⟩) hkind hfed ?_)
        intro e he htarget
        obtain ⟨he', hsource, htarget'⟩ := mem_edges_cascade.mp he
        exact (hall e he' htarget).imp (fun h => h.resolve_left hsource)
          (fun h => h.resolve_left htarget')
      · refine Or.inl (hfirst.starved n hn hkind hhad fun e he htarget => ?_)
        by_contra hout
        rw [not_or] at hout
        exact hfed ⟨e, mem_edges_cascade.mpr ⟨he, hout⟩, htarget⟩

/-- Two deletions in a row remove what one deletion of all targets removes. -/
theorem gone_append (targets targets' : List NodeId) (nodes : List Node) (edges : List Edge) :
    gone (targets ++ targets') nodes edges =
      gone targets nodes edges ∪
        gone targets' (cascade targets nodes edges).nodes (cascade targets nodes edges).edges := by
  have hclosed := Removal.gone_closed (targets ++ targets') nodes edges
  apply Set.Subset.antisymm
  · exact Removal.gone_subset (CascadeClosed.union targets targets' nodes edges)
  · rintro id (hid | hid)
    · exact Removal.gone_subset (hclosed.mono (List.subset_append_left targets targets')) hid
    · exact Removal.gone_subset hclosed.after hid

/-! ### What is left -/

/-- Which nodes are left depends on what is gone only. -/
theorem nodes_cascade_congr
    (h : gone targets nodes edges = gone targets' nodes edges) :
    (cascade targets nodes edges).nodes = (cascade targets' nodes edges).nodes := by
  rw [cascade_nodes, cascade_nodes]
  apply List.filter_congr
  intro n _
  rw [decide_eq_decide]
  exact not_congr (Set.ext_iff.mp h n.id)

/-- Which edges are left depends on what is gone only. -/
theorem edges_cascade_congr
    (h : gone targets nodes edges = gone targets' nodes edges) :
    (cascade targets nodes edges).edges = (cascade targets' nodes edges).edges := by
  rw [cascade_edges, cascade_edges]
  apply List.filter_congr
  intro e _
  rw [decide_eq_decide]
  exact and_congr (not_congr (Set.ext_iff.mp h e.source)) (not_congr (Set.ext_iff.mp h e.target))

/-- A deletion that removes no id leaves everything as it is. -/
theorem cascade_of_gone_eq_empty (h : gone targets nodes edges = ∅) :
    (cascade targets nodes edges).nodes = nodes ∧ (cascade targets nodes edges).edges = edges := by
  have hnone : ∀ id, id ∉ (Removal.plan targets nodes edges).removed :=
    fun id hid => Set.eq_empty_iff_forall_notMem.mp h id hid
  constructor
  · rw [cascade_nodes, List.filter_eq_self]
    exact fun n _ => decide_eq_true (hnone n.id)
  · rw [cascade_edges, List.filter_eq_self]
    exact fun e _ => decide_eq_true ⟨hnone e.source, hnone e.target⟩

/-- A second deletion leaves the nodes that one deletion of all targets leaves, in the same
    order. -/
theorem nodes_cascade_append (targets targets' : List NodeId) (nodes : List Node)
    (edges : List Edge) :
    (cascade targets' (cascade targets nodes edges).nodes (cascade targets nodes edges).edges).nodes
      = (cascade (targets ++ targets') nodes edges).nodes := by
  set left := cascade targets nodes edges
  have happend : ∀ id, id ∈ (Removal.plan (targets ++ targets') nodes edges).removed ↔ _ :=
    Set.ext_iff.mp (gone_append targets targets' nodes edges)
  calc (cascade targets' left.nodes left.edges).nodes
      = left.nodes.filter fun n => n.id ∉ (Removal.plan targets' left.nodes left.edges).removed :=
        cascade_nodes targets' left.nodes left.edges
    _ = (nodes.filter fun n => n.id ∉ (Removal.plan targets nodes edges).removed).filter fun n =>
          n.id ∉ (Removal.plan targets' left.nodes left.edges).removed :=
        congrArg (List.filter _) (cascade_nodes targets nodes edges)
    _ = nodes.filter fun n => n.id ∉ (Removal.plan (targets ++ targets') nodes edges).removed := by
        rw [List.filter_filter]
        apply List.filter_congr
        intro n _
        rw [← Bool.decide_and, decide_eq_decide, and_comm, happend]
        exact not_or.symm
    _ = (cascade (targets ++ targets') nodes edges).nodes := (cascade_nodes _ _ _).symm

/-- A second deletion leaves the edges that one deletion of all targets leaves, in the same
    order. -/
theorem edges_cascade_append (targets targets' : List NodeId) (nodes : List Node)
    (edges : List Edge) :
    (cascade targets' (cascade targets nodes edges).nodes (cascade targets nodes edges).edges).edges
      = (cascade (targets ++ targets') nodes edges).edges := by
  set left := cascade targets nodes edges
  have happend : ∀ id, id ∈ (Removal.plan (targets ++ targets') nodes edges).removed ↔ _ :=
    Set.ext_iff.mp (gone_append targets targets' nodes edges)
  calc (cascade targets' left.nodes left.edges).edges
      = left.edges.filter fun e =>
          e.source ∉ (Removal.plan targets' left.nodes left.edges).removed ∧
            e.target ∉ (Removal.plan targets' left.nodes left.edges).removed :=
        cascade_edges targets' left.nodes left.edges
    _ = (edges.filter fun e => e.source ∉ (Removal.plan targets nodes edges).removed ∧
          e.target ∉ (Removal.plan targets nodes edges).removed).filter fun e =>
            e.source ∉ (Removal.plan targets' left.nodes left.edges).removed ∧
              e.target ∉ (Removal.plan targets' left.nodes left.edges).removed :=
        congrArg (List.filter _) (cascade_edges targets nodes edges)
    _ = edges.filter fun e =>
          e.source ∉ (Removal.plan (targets ++ targets') nodes edges).removed ∧
            e.target ∉ (Removal.plan (targets ++ targets') nodes edges).removed := by
        rw [List.filter_filter]
        apply List.filter_congr
        intro e _
        rw [← Bool.decide_and, decide_eq_decide, and_comm, and_and_and_comm, happend, happend]
        exact and_congr not_or.symm not_or.symm
    _ = (cascade (targets ++ targets') nodes edges).edges := (cascade_edges _ _ _).symm

/-! ### What is counted -/

/-- What a filter drops and what it keeps make up the list. -/
theorem length_filter_not {α : Type} (p : α → Bool) (l : List α) :
    (l.filter fun a => !p a).length + l.countP p = l.length := by
  have h := List.length_eq_countP_add_countP p (l := l)
  simp only [List.countP_eq_length_filter, decide_not, Bool.decide_eq_true] at h ⊢
  omega

namespace Removal

/-- A way to count is additive if counting in two steps is counting the sums. -/
structure Additive (count : CascadeSummary → Nat → Nat → CascadeSummary) : Prop where
  zero : ∀ s, count s 0 0 = s
  add : ∀ s a b c d, count (count s a b) c d = count s (a + c) (b + d)

theorem additive_addDirect : Additive CascadeSummary.addDirect :=
  ⟨fun _ => rfl, fun s a b c d => by simp [CascadeSummary.addDirect, Nat.add_assoc]⟩

theorem additive_addCascaded : Additive CascadeSummary.addCascaded :=
  ⟨fun _ => rfl, fun s a b c d => by simp [CascadeSummary.addCascaded, Nat.add_assoc]⟩

/-- A removal that has come some nodes and edges further than another, and has counted them. -/
def Lowers (nodes : List Node) (count : CascadeSummary → Nat → Nat → CascadeSummary)
    (r r' : Removal) : Prop :=
  ∃ a b, r'.summary = count r.summary a b ∧
    (nodesLeft nodes r').length + a = (nodesLeft nodes r).length ∧
    r'.edgesLeft.length + b = r.edgesLeft.length

section Lowers

variable {count : CascadeSummary → Nat → Nat → CascadeSummary}

theorem Lowers.refl (hcount : Additive count) (r : Removal) : Lowers nodes count r r :=
  ⟨0, 0, (hcount.zero r.summary).symm, rfl, rfl⟩

/-- Two steps count the sum of what each of them counts. -/
theorem Lowers.trans (hcount : Additive count) {r s t : Removal} (h : Lowers nodes count r s)
    (h' : Lowers nodes count s t) : Lowers nodes count r t := by
  obtain ⟨a, b, hsummary, hnodes, hedges⟩ := h
  obtain ⟨c, d, hsummary', hnodes', hedges'⟩ := h'
  refine ⟨a + c, b + d, ?_, by omega, by omega⟩
  rw [hsummary', hsummary, hcount.add]

/-- The entries that one removal takes out are those it counts: none of them was out before. -/
theorem lowers_remove (hcount : Additive count) (r : Removal) (id : NodeId) :
    Lowers nodes count r (r.remove nodes count id) := by
  by_cases hid : id ∈ r.removed
  · rw [remove, if_pos hid]
    exact .refl hcount r
  · refine ⟨nodes.countP fun n => n.id = id, r.edgesLeft.countP fun e => e.touches id, ?_, ?_, ?_⟩
    · rw [remove, if_neg hid]
    · -- Of the nodes left, those of this id are taken.
      have hleft : nodesLeft nodes (r.remove nodes count id)
          = (nodesLeft nodes r).filter fun n => !decide (n.id = id) := by
        unfold nodesLeft
        rw [List.filter_filter]
        apply List.filter_congr
        intro n _
        rw [← decide_not, ← Bool.decide_and, decide_eq_decide, mem_removed_remove, not_or, and_comm]
      -- Entries are counted in the whole snapshot, but those with this id are all still left.
      have hcounted : nodes.countP (fun n => n.id = id)
          = (nodesLeft nodes r).countP fun n => n.id = id := by
        rw [nodesLeft, List.countP_filter]
        apply List.countP_congr
        intro n _
        rw [Bool.and_eq_true, decide_eq_true_eq, decide_eq_true_eq]
        exact ⟨fun h => ⟨h, h ▸ hid⟩, And.left⟩
      rw [hleft, hcounted, length_filter_not]
    · -- Edges are counted among those left, so here the two agree at once.
      have hleft : (r.remove nodes count id).edgesLeft
          = r.edgesLeft.filter fun e => !e.touches id := by rw [remove, if_neg hid]
      rw [hleft, length_filter_not]

/-- Removals one after the other count the nodes and edges that they remove together. -/
theorem lowers_foldl_remove (hcount : Additive count) (ids : List NodeId) (r : Removal) :
    Lowers nodes count r (ids.foldl (Removal.remove nodes count) r) := by
  induction ids generalizing r with
  | nil => exact .refl hcount r
  | cons id rest ih => exact (lowers_remove hcount r id).trans hcount (ih _)

end Lowers

/-- Sweeps count all that they remove as a consequence. -/
theorem lowers_iterate_sweep (nodes : List Node) (edges : List Edge) (r : Removal) (k : Nat) :
    Lowers nodes CascadeSummary.addCascaded r ((sweep nodes edges)^[k] r) := by
  induction k with
  | zero => exact .refl additive_addCascaded r
  | succ k ih =>
    rw [Function.iterate_succ_apply']
    exact ih.trans additive_addCascaded (lowers_foldl_remove additive_addCascaded _ _)

/-- The targets are counted apart from the outputs that go with them. -/
theorem plan_lowers (targets : List NodeId) (nodes : List Node) (edges : List Edge) :
    Lowers nodes CascadeSummary.addDirect (start edges) (afterTargets targets nodes edges) ∧
      Lowers nodes CascadeSummary.addCascaded (afterTargets targets nodes edges)
        (plan targets nodes edges) := by
  constructor
  · rw [afterTargets, foldl_removeTarget]
    exact lowers_foldl_remove additive_addDirect _ _
  · obtain ⟨rounds, -, hsettles⟩ := plan_settlesIn targets nodes edges
    rw [hsettles.reached]
    exact lowers_iterate_sweep nodes edges _ rounds

theorem length_nodesLeft_start (nodes : List Node) (edges : List Edge) :
    (nodesLeft nodes (start edges)).length = nodes.length := by
  simp [nodesLeft, start]

/-- In the end those nodes are left that the deletion returns. -/
theorem nodesLeft_plan (targets : List NodeId) (nodes : List Node) (edges : List Edge) :
    nodesLeft nodes (plan targets nodes edges) = (cascade targets nodes edges).nodes :=
  (cascade_nodes targets nodes edges).symm

end Removal

open Removal (nodesLeft afterTargets) in
/-- The counts of a deletion are the differences between what there was at first, after the
    targets and in the end. -/
theorem summary_cascade (targets : List NodeId) (nodes : List Node) (edges : List Edge) :
    let direct := afterTargets targets nodes edges
    let left := cascade targets nodes edges
    left.summary.directNodes + (nodesLeft nodes direct).length = nodes.length ∧
      left.summary.directEdges + direct.edgesLeft.length = edges.length ∧
      left.summary.cascadedNodes + left.nodes.length = (nodesLeft nodes direct).length ∧
      left.summary.cascadedEdges + left.edges.length = direct.edgesLeft.length := by
  intro direct left
  obtain ⟨⟨a, b, hsummary, hnodes, hedges⟩, ⟨c, d, hsummary', hnodes', hedges'⟩⟩ :=
    Removal.plan_lowers targets nodes edges
  -- What was counted in the two phases stands in fields of its own.
  have heq : left.summary = ⟨a, b, c, d⟩ := by
    show (Removal.plan targets nodes edges).summary = _
    rw [hsummary', hsummary]
    simp [CascadeSummary.addDirect, CascadeSummary.addCascaded, CascadeSummary.zero,
      Removal.start]
  have hstart := Removal.length_nodesLeft_start nodes edges
  have hstart' : (Removal.start edges).edgesLeft.length = edges.length := rfl
  have hleft : (nodesLeft nodes (Removal.plan targets nodes edges)).length = left.nodes.length :=
    congrArg List.length (Removal.nodesLeft_plan targets nodes edges)
  have hleft' : (Removal.plan targets nodes edges).edgesLeft.length = left.edges.length := rfl
  rw [heq]
  refine ⟨?_, ?_, ?_, ?_⟩
  · show a + (nodesLeft nodes (afterTargets targets nodes edges)).length = _
    omega
  · show b + (afterTargets targets nodes edges).edgesLeft.length = _
    omega
  · show c + _ = (nodesLeft nodes (afterTargets targets nodes edges)).length
    omega
  · show d + _ = (afterTargets targets nodes edges).edgesLeft.length
    omega

/-- Nodes removed and nodes left make up the snapshot. -/
theorem totalNodes_cascade (targets : List NodeId) (nodes : List Node) (edges : List Edge) :
    (cascade targets nodes edges).summary.totalNodes + (cascade targets nodes edges).nodes.length
      = nodes.length := by
  have h := summary_cascade targets nodes edges
  rw [CascadeSummary.totalNodes]
  omega

/-- Edges removed and edges left make up the snapshot. -/
theorem totalEdges_cascade (targets : List NodeId) (nodes : List Node) (edges : List Edge) :
    (cascade targets nodes edges).summary.totalEdges + (cascade targets nodes edges).edges.length
      = edges.length := by
  have h := summary_cascade targets nodes edges
  rw [CascadeSummary.totalEdges]
  omega

/-! ### Deletions in a row -/

/-- A deletion depends only on which ids are targets, in its counts too. -/
theorem cascade_congr (h : ∀ id, id ∈ targets ↔ id ∈ targets') :
    cascade targets nodes edges = cascade targets' nodes edges := by
  have hgone : gone targets nodes edges = gone targets' nodes edges := Removal.gone_congr h
  have hnodes := nodes_cascade_congr hgone
  have hedges := edges_cascade_congr hgone
  have hremoved : ∀ id, id ∈ (Removal.afterTargets targets nodes edges).removed ↔
      id ∈ (Removal.afterTargets targets' nodes edges).removed := by
    intro id
    rw [Removal.mem_removed_afterTargets, Removal.mem_removed_afterTargets, h]
  -- The state after the targets is the same but for the order of the ids removed.
  have hdirect : Removal.nodesLeft nodes (Removal.afterTargets targets nodes edges)
      = Removal.nodesLeft nodes (Removal.afterTargets targets' nodes edges) := by
    unfold Removal.nodesLeft
    apply List.filter_congr
    intro n _
    rw [decide_eq_decide, hremoved]
  have hdirect' : (Removal.afterTargets targets nodes edges).edgesLeft
      = (Removal.afterTargets targets' nodes edges).edgesLeft := by
    rw [(Removal.afterTargets_sound targets nodes edges).edgesFollow,
      (Removal.afterTargets_sound targets' nodes edges).edgesFollow]
    apply List.filter_congr
    intro e _
    rw [decide_eq_decide, hremoved, hremoved]
  have hcounts := summary_cascade targets nodes edges
  have hcounts' := summary_cascade targets' nodes edges
  simp only [hdirect, hdirect', hnodes, hedges] at hcounts
  refine CascadeOutcome.ext hnodes hedges (CascadeSummary.ext ?_ ?_ ?_ ?_)
  all_goals omega

/-- Deletions in a row leave what one deletion of all targets leaves, and count as much. -/
theorem cascadeEach_eq (batches : List (List NodeId)) (nodes : List Node) (edges : List Edge) :
    let each := cascadeEach batches nodes edges
    let once := cascade batches.flatten nodes edges
    each.nodes = once.nodes ∧ each.edges = once.edges ∧
      (each.summaries.map CascadeSummary.totalNodes).sum + once.nodes.length = nodes.length ∧
      (each.summaries.map CascadeSummary.totalEdges).sum + once.edges.length = edges.length := by
  induction batches generalizing nodes edges with
  | nil =>
    obtain ⟨hnodes, hedges⟩ := cascade_of_gone_eq_empty (Removal.gone_nil nodes edges)
    simp [cascadeEach, hnodes, hedges]
  -- The first deletion and those behind it are two deletions in a row.
  | cons targets rest ih =>
    intro each once
    obtain ⟨hnodes, hedges, htotal, htotal'⟩ :=
      ih (cascade targets nodes edges).nodes (cascade targets nodes edges).edges
    rw [nodes_cascade_append] at hnodes htotal
    rw [edges_cascade_append] at hedges htotal'
    have hfirst := totalNodes_cascade targets nodes edges
    have hfirst' := totalEdges_cascade targets nodes edges
    refine ⟨hnodes, hedges, ?_, ?_⟩
    · simp only [each, once, cascadeEach, List.map_cons, List.sum_cons, List.flatten_cons]
      omega
    · simp only [each, once, cascadeEach, List.map_cons, List.sum_cons, List.flatten_cons]
      omega

/-- **Deletions compose.**  Deletions in a row leave the same nodes and edges, in the same order,
    as one deletion of all their targets, and remove as many in all.  The targets of a deletion
    may be permuted and repeated, and a deletion that is repeated removes nothing. -/
theorem cascades_compose (nodes : List Node) (edges : List Edge) :
    (∀ batches : List (List NodeId),
        let each := cascadeEach batches nodes edges
        let once := cascade batches.flatten nodes edges
        each.nodes = once.nodes ∧ each.edges = once.edges ∧
          (each.summaries.map CascadeSummary.totalNodes).sum = once.summary.totalNodes ∧
          (each.summaries.map CascadeSummary.totalEdges).sum = once.summary.totalEdges) ∧
      (∀ targets targets' : List NodeId, (∀ id, id ∈ targets ↔ id ∈ targets') →
        cascade targets nodes edges = cascade targets' nodes edges) ∧
      ∀ targets : List NodeId,
        let once := cascade targets nodes edges
        cascade targets once.nodes once.edges = ⟨once.nodes, once.edges, .zero⟩ := by
  refine ⟨fun batches => ?_, fun _ _ h => cascade_congr h, fun targets => ?_⟩
  · obtain ⟨hnodes, hedges, htotal, htotal'⟩ := cascadeEach_eq batches nodes edges
    have honce := totalNodes_cascade batches.flatten nodes edges
    have honce' := totalEdges_cascade batches.flatten nodes edges
    exact ⟨hnodes, hedges, by omega, by omega⟩
  · intro once
    -- A deletion made twice is one deletion with every target named twice.
    have hsame : cascade (targets ++ targets) nodes edges = once :=
      cascade_congr fun id => by rw [List.mem_append, or_self]
    have hnodes := nodes_cascade_append targets targets nodes edges
    have hedges := edges_cascade_append targets targets nodes edges
    rw [hsame] at hnodes hedges
    -- As nothing is missing afterwards, nothing has been counted.
    have hcounts := summary_cascade targets once.nodes once.edges
    simp only [once] at hnodes hedges hcounts ⊢
    rw [hnodes, hedges] at hcounts
    refine CascadeOutcome.ext hnodes hedges (CascadeSummary.ext ?_ ?_ ?_ ?_)
    all_goals simp only [CascadeSummary.zero]; omega

/-- An event with a view of it, a view of that view, and a view without input. -/
def chainedViews : List Node × List Edge :=
  ([⟨⟨"last"⟩, .output ⟨some "b"⟩⟩, ⟨⟨"first"⟩, .output ⟨some "a"⟩⟩,
      ⟨⟨"event"⟩, .event ⟨none, []⟩⟩, ⟨⟨"lone"⟩, .output ⟨none⟩⟩],
    [⟨none, ⟨"first"⟩, ⟨"last"⟩, none, none⟩, ⟨none, ⟨"event"⟩, ⟨"first"⟩, none, none⟩])

/-- The views go with the event, whether it is named once, twice or after one of them. -/
theorem cascades_compose_chain :
    let each := cascadeEach [[⟨"first"⟩], [⟨"gone"⟩, ⟨"event"⟩]] chainedViews.1 chainedViews.2
    let once := cascade [⟨"first"⟩, ⟨"gone"⟩, ⟨"event"⟩] chainedViews.1 chainedViews.2
    each.nodes = once.nodes ∧ once.nodes.map Node.id = [⟨"lone"⟩] ∧
      (each.summaries.map CascadeSummary.totalNodes).sum = once.summary.totalNodes ∧
      (∀ id : NodeId, id ∈ [⟨"event"⟩, ⟨"last"⟩] ↔ id ∈ [⟨"last"⟩, ⟨"event"⟩, ⟨"last"⟩]) ∧
      cascade [⟨"event"⟩, ⟨"last"⟩] chainedViews.1 chainedViews.2
        = cascade [⟨"last"⟩, ⟨"event"⟩, ⟨"last"⟩] chainedViews.1 chainedViews.2 := by
  intro each once
  obtain ⟨hrow, hset, -⟩ := cascades_compose chainedViews.1 chainedViews.2
  obtain ⟨hnodes, -, htotal, -⟩ := hrow [[⟨"first"⟩], [⟨"gone"⟩, ⟨"event"⟩]]
  have hsame : ∀ id : NodeId,
      id ∈ [⟨"event"⟩, ⟨"last"⟩] ↔ id ∈ [⟨"last"⟩, ⟨"event"⟩, ⟨"last"⟩] := by
    intro id
    simp only [List.mem_cons, List.not_mem_nil, or_false]
    tauto
  exact ⟨hnodes, by decide +kernel, htotal, hsame, hset _ _ hsame⟩

end QueryGraph
