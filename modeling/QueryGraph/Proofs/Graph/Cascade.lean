import Mathlib.Data.Set.Basic
import Mathlib.Logic.Function.Iterate
import Mathlib.Order.Bounds.Basic
import QueryGraph.Graph.Cascade

namespace QueryGraph

/-!
# A deletion removes a least closed set

* `CascadeClosed`: a set of ids that has the targets of a deletion, and has every output with
  incoming edges all of which go with the set.
* `Removal.Sound`: the invariant of a deletion: what has been removed lies in every closed set,
  and the edges left are those that touch nothing removed.
* `Removal.SettlesIn`: a loop of sweeps that ends after a number of rounds.
* `cascade_removes_least`: the loop ends, and the deletion removes the least closed set with its
  edges and nothing else.
-/

/-! ### Closed sets of ids -/

/-- A set of ids that a deletion of some nodes can remove and leave no output starved: it has
    the targets that are nodes, and it has an output with incoming edges if each of them has an
    end in the set. -/
structure CascadeClosed (targets : List NodeId) (nodes : List Node) (edges : List Edge)
    (s : Set NodeId) : Prop where
  target : ∀ id ∈ targets, id ∈ nodes.map Node.id → id ∈ s
  starved : ∀ n ∈ nodes, n.kind = .output → (∃ e ∈ edges, e.target = n.id) →
    (∀ e ∈ edges, e.target = n.id → e.source ∈ s ∨ e.target ∈ s) → n.id ∈ s

variable {targets : List NodeId} {nodes : List Node} {edges : List Edge}

/-- All nodes together are closed, so a least closed set has only nodes. -/
theorem cascadeClosed_ids (targets : List NodeId) (nodes : List Node) (edges : List Edge) :
    CascadeClosed targets nodes edges {id | id ∈ nodes.map Node.id} :=
  ⟨fun _ _ hid => hid, fun _ hn _ _ _ => List.mem_map_of_mem hn⟩

/-- Nodes that are no targets, and each of which has no incoming edge or one from among them,
    have a closed complement. -/
theorem cascadeClosed_compl {kept : Set NodeId} (htargets : ∀ id ∈ kept, id ∉ targets)
    (hfed : ∀ id ∈ kept, (∀ e ∈ edges, e.target ≠ id) ∨
      ∃ e ∈ edges, e.source ∈ kept ∧ e.target = id) :
    CascadeClosed targets nodes edges keptᶜ := by
  refine ⟨fun id hid _ hkept => htargets id hkept hid, ?_⟩
  rintro n - - ⟨e, he, hen⟩ hall hkept
  -- An output among them is never starved: it has no edge to lose, or one it keeps.
  rcases hfed n.id hkept with hnone | ⟨e', he', hsource, htarget⟩
  · exact hnone e he hen
  · rcases hall e' he' htarget with hout | hout
    · exact hout hsource
    · exact hout (htarget ▸ hkept)

namespace Removal

/-! ### What one removal does -/

/-- To remove a node adds it to those removed, if it is not among them. -/
theorem mem_removed_remove {count : CascadeSummary → Nat → Nat → CascadeSummary} {r : Removal}
    {id v : NodeId} : v ∈ (r.remove nodes count id).removed ↔ v ∈ r.removed ∨ v = id := by
  unfold remove
  by_cases h : id ∈ r.removed
  · rw [if_pos h]
    refine ⟨Or.inl, ?_⟩
    rintro (hv | rfl)
    · exact hv
    · exact h
  · rw [if_neg h, List.mem_append, List.mem_singleton]

/-- To remove several nodes adds them all. -/
theorem mem_removed_foldl_remove {count : CascadeSummary → Nat → Nat → CascadeSummary}
    {ids : List NodeId} {r : Removal} {v : NodeId} :
    v ∈ (ids.foldl (remove nodes count) r).removed ↔ v ∈ r.removed ∨ v ∈ ids := by
  induction ids generalizing r with
  | nil => simp
  | cons id rest ih => rw [List.foldl_cons, ih, mem_removed_remove, List.mem_cons, or_assoc]

/-- The edges left are those that touch nothing removed. -/
def EdgesFollow (edges : List Edge) (r : Removal) : Prop :=
  r.edgesLeft = edges.filter fun e => e.source ∉ r.removed ∧ e.target ∉ r.removed

/-- Before anything is removed, all edges are left. -/
theorem edgesFollow_start (edges : List Edge) : EdgesFollow edges (start edges) := by
  have hall : ∀ e ∈ edges, decide (e.source ∉ [] ∧ e.target ∉ []) = true := by
    intro e _
    simp
  exact (List.filter_eq_self.mpr hall).symm

/-- With a node go the edges that touch it, and no others. -/
theorem EdgesFollow.remove {r : Removal} (h : EdgesFollow edges r) (nodes : List Node)
    (count : CascadeSummary → Nat → Nat → CascadeSummary) (id : NodeId) :
    EdgesFollow edges (r.remove nodes count id) := by
  unfold EdgesFollow
  by_cases hid : id ∈ r.removed
  · rw [Removal.remove, if_pos hid]
    exact h
  · simp only [Removal.remove, if_neg hid]
    -- An edge is left if it touches nothing removed before and not this node either.
    rw [h, List.filter_filter]
    apply List.filter_congr
    intro e _
    rw [Bool.eq_iff_iff]
    simp only [Edge.touches, Bool.and_eq_true, Bool.not_eq_true', Bool.or_eq_false_iff,
      decide_eq_false_iff_not, decide_eq_true_eq, List.mem_append, List.mem_singleton, not_or]
    tauto

/-! ### Orphans -/

/-- An orphan is an output that is still there and had incoming edges, none of which is left. -/
theorem isOrphan_iff {r : Removal} {n : Node} :
    isOrphan edges r n = true ↔
      n.kind = .output ∧ n.id ∉ r.removed ∧ (∃ e ∈ edges, e.target = n.id) ∧
        ∀ e ∈ r.edgesLeft, e.target ≠ n.id := by
  simp only [isOrphan, Bool.and_eq_true, decide_eq_true_eq, Bool.not_eq_true',
    List.contains_eq_mem, decide_eq_false_iff_not, List.any_eq_true, List.any_eq_false,
    and_assoc]

theorem mem_orphans {r : Removal} {id : NodeId} :
    id ∈ r.orphans nodes edges ↔ ∃ n ∈ nodes, isOrphan edges r n = true ∧ n.id = id := by
  simp only [orphans, List.mem_eraseDups, List.mem_map, List.mem_filter, and_assoc]

/-! ### The invariant -/

/-- What has been removed has to be removed, and the edges left are those that do not touch
    it. -/
structure Sound (targets : List NodeId) (nodes : List Node) (edges : List Edge) (r : Removal) :
    Prop where
  edgesFollow : EdgesFollow edges r
  forced : ∀ s, CascadeClosed targets nodes edges s → ∀ id ∈ r.removed, id ∈ s

variable {r : Removal}

/-- The invariant holds before anything is removed. -/
theorem start_sound (targets : List NodeId) (nodes : List Node) (edges : List Edge) :
    Sound targets nodes edges (start edges) :=
  ⟨edgesFollow_start edges, fun _ _ _ hid => absurd hid List.not_mem_nil⟩

/-- One removal keeps the invariant, if the node has to go. -/
theorem Sound.remove (h : Sound targets nodes edges r)
    (count : CascadeSummary → Nat → Nat → CascadeSummary) {id : NodeId}
    (hid : ∀ s, CascadeClosed targets nodes edges s → id ∈ s) :
    Sound targets nodes edges (r.remove nodes count id) := by
  refine ⟨h.edgesFollow.remove nodes count id, fun s hs v hv => ?_⟩
  rcases mem_removed_remove.mp hv with hv | rfl
  · exact h.forced s hs v hv
  · exact hid s hs

/-- Several removals keep the invariant, if all the nodes have to go. -/
theorem Sound.foldl_remove (h : Sound targets nodes edges r)
    (count : CascadeSummary → Nat → Nat → CascadeSummary) {ids : List NodeId}
    (hids : ∀ s, CascadeClosed targets nodes edges s → ∀ id ∈ ids, id ∈ s) :
    Sound targets nodes edges (ids.foldl (Removal.remove nodes count) r) := by
  induction ids generalizing r with
  | nil => exact h
  | cons id rest ih =>
    rw [List.foldl_cons]
    exact ih (h.remove count fun s hs => hids s hs id List.mem_cons_self)
      fun s hs v hv => hids s hs v (List.mem_cons_of_mem id hv)

/-- An orphan has to be removed: its incoming edges are gone, so each of them has an end that
    has been removed and thus lies in every closed set. -/
theorem Sound.orphan_mem (h : Sound targets nodes edges r) {s : Set NodeId}
    (hs : CascadeClosed targets nodes edges s) {id : NodeId}
    (hid : id ∈ r.orphans nodes edges) : id ∈ s := by
  obtain ⟨n, hn, horphan, rfl⟩ := mem_orphans.mp hid
  obtain ⟨hkind, -, hhad, hnone⟩ := isOrphan_iff.mp horphan
  refine hs.starved n hn hkind hhad fun e he htarget => ?_
  -- Otherwise neither end of the edge has been removed, and the edge would be left.
  by_contra hout
  rw [not_or] at hout
  refine hnone e ?_ htarget
  rw [h.edgesFollow, List.mem_filter, decide_eq_true_eq]
  exact ⟨he, fun hmem => hout.1 (h.forced s hs _ hmem), fun hmem => hout.2 (h.forced s hs _ hmem)⟩

/-- **One sweep keeps the invariant**, for it removes orphans only. -/
theorem Sound.sweep (h : Sound targets nodes edges r) :
    Sound targets nodes edges (r.sweep nodes edges) :=
  h.foldl_remove _ fun _ hs _ hid => h.orphan_mem hs hid

/-! ### The targets -/

/-- A target that is not a node changes nothing. -/
theorem removeTarget_eq (nodes : List Node) (r : Removal) (id : NodeId) :
    removeTarget nodes r id =
      if id ∈ nodes.map Node.id then r.remove nodes CascadeSummary.addDirect id else r := by
  have hany : (nodes.any fun n => n.id = id) = true ↔ id ∈ nodes.map Node.id := by
    simp only [List.any_eq_true, decide_eq_true_eq, List.mem_map]
  unfold removeTarget
  by_cases hid : id ∈ nodes.map Node.id
  · rw [if_pos (hany.mpr hid), if_pos hid]
  · rw [if_neg (mt hany.mp hid), if_neg hid]

/-- To remove targets is to remove those of them that are nodes. -/
theorem foldl_removeTarget (nodes : List Node) (targets : List NodeId) (r : Removal) :
    targets.foldl (removeTarget nodes) r =
      (targets.filter fun id => id ∈ nodes.map Node.id).foldl
        (Removal.remove nodes CascadeSummary.addDirect) r := by
  induction targets generalizing r with
  | nil => rfl
  | cons id rest ih =>
    rw [List.foldl_cons, ih, removeTarget_eq]
    by_cases hid : id ∈ nodes.map Node.id
    · rw [if_pos hid, List.filter_cons_of_pos (by simpa using hid), List.foldl_cons]
    · rw [if_neg hid, List.filter_cons_of_neg (by simpa using hid)]

/-- The state after the targets, and before any sweep. -/
def afterTargets (targets : List NodeId) (nodes : List Node) (edges : List Edge) : Removal :=
  targets.foldl (removeTarget nodes) (start edges)

/-- The first to go are the targets that are nodes. -/
theorem mem_removed_afterTargets {v : NodeId} :
    v ∈ (afterTargets targets nodes edges).removed ↔ v ∈ targets ∧ v ∈ nodes.map Node.id := by
  rw [afterTargets, foldl_removeTarget, mem_removed_foldl_remove, List.mem_filter,
    decide_eq_true_eq]
  simp [start]

/-- The invariant holds when the sweeps begin, as every closed set has the targets. -/
theorem afterTargets_sound (targets : List NodeId) (nodes : List Node) (edges : List Edge) :
    Sound targets nodes edges (afterTargets targets nodes edges) := by
  rw [afterTargets, foldl_removeTarget]
  refine (start_sound targets nodes edges).foldl_remove _ fun s hs id hid => ?_
  rw [List.mem_filter, decide_eq_true_eq] at hid
  exact hs.target id hid.1 hid.2

/-! ### The loop -/

/-- The nodes that are left. -/
def nodesLeft (nodes : List Node) (r : Removal) : List Node :=
  nodes.filter fun n => n.id ∉ r.removed

/-- A sweep with an orphan leaves fewer nodes. -/
theorem length_nodesLeft_sweep_lt (h : r.orphans nodes edges ≠ []) :
    (nodesLeft nodes (r.sweep nodes edges)).length < (nodesLeft nodes r).length := by
  -- A sweep takes the orphans from the nodes left, and one of them was among these.
  have hsweep : nodesLeft nodes (r.sweep nodes edges)
      = (nodesLeft nodes r).filter fun n => n.id ∉ r.orphans nodes edges := by
    unfold nodesLeft
    rw [List.filter_filter]
    apply List.filter_congr
    intro n _
    rw [sweep, Bool.eq_iff_iff, Bool.and_eq_true, decide_eq_true_eq, decide_eq_true_eq,
      decide_eq_true_eq, mem_removed_foldl_remove, not_or]
    exact and_comm
  obtain ⟨id, hid⟩ := List.exists_mem_of_ne_nil _ h
  obtain ⟨n, hn, horphan, rfl⟩ := mem_orphans.mp hid
  rw [hsweep, List.length_filter_lt_length_iff_exists]
  refine ⟨n, ?_, by simpa using hid⟩
  show n ∈ nodes.filter fun n => n.id ∉ r.removed
  rw [List.mem_filter, decide_eq_true_eq]
  exact ⟨hn, (isOrphan_iff.mp horphan).2.1⟩

/-- To sweep while there are orphans leads from one state to another in a number of rounds:
    before each of them there are orphans, and after the last there are none. -/
structure SettlesIn (nodes : List Node) (edges : List Edge) (rounds : Nat) (r r' : Removal) :
    Prop where
  reached : r' = (sweep nodes edges)^[rounds] r
  busy : ∀ k < rounds, ((sweep nodes edges)^[k] r).orphans nodes edges ≠ []
  done : r'.orphans nodes edges = []

/-- With more rounds to go than nodes are left, the loop ends by itself. -/
theorem exists_settlesIn (nodes : List Node) (edges : List Edge) (fuel : Nat) (r : Removal)
    (h : (nodesLeft nodes r).length < fuel) :
    ∃ rounds ≤ (nodesLeft nodes r).length,
      SettlesIn nodes edges rounds r (settleWithin nodes edges fuel r) := by
  induction fuel generalizing r with
  | zero => omega
  | succ fuel ih =>
    -- Either the loop is at its end, or it makes a round and fewer nodes are left for the others.
    by_cases hdone : r.orphans nodes edges = []
    · refine ⟨0, Nat.zero_le _, ?_⟩
      rw [settleWithin, if_pos (List.isEmpty_iff.mpr hdone)]
      exact ⟨rfl, fun k hk => absurd hk (Nat.not_lt_zero k), hdone⟩
    · have hless := length_nodesLeft_sweep_lt hdone
      obtain ⟨rounds, hrounds, hsettles⟩ := ih (r.sweep nodes edges) (by omega)
      refine ⟨rounds + 1, by omega, ?_⟩
      rw [settleWithin, if_neg (mt List.isEmpty_iff.mp hdone)]
      refine ⟨hsettles.reached, fun k hk => ?_, hsettles.done⟩
      -- The first round is the one just made, the others are those of the rest of the loop.
      cases k with
      | zero => exact hdone
      | succ k => exact hsettles.busy k (by omega)

/-- A deletion settles within as many rounds as there are nodes, so the bound on the loop is never
    met. -/
theorem plan_settlesIn (targets : List NodeId) (nodes : List Node) (edges : List Edge) :
    ∃ rounds ≤ nodes.length,
      SettlesIn nodes edges rounds (afterTargets targets nodes edges)
        (plan targets nodes edges) := by
  have hle : (nodesLeft nodes (afterTargets targets nodes edges)).length ≤ nodes.length :=
    List.length_filter_le _ _
  obtain ⟨rounds, hrounds, hsettles⟩ := exists_settlesIn nodes edges (nodes.length + 1)
    (afterTargets targets nodes edges) (by omega)
  exact ⟨rounds, hrounds.trans hle, hsettles⟩

/-! ### The end of the loop -/

/-- Sweeps keep the invariant, and what has been removed. -/
theorem iterate_sweep (h : Sound targets nodes edges r) (k : Nat) :
    Sound targets nodes edges ((Removal.sweep nodes edges)^[k] r) ∧
      r.removed ⊆ ((Removal.sweep nodes edges)^[k] r).removed := by
  induction k with
  | zero => exact ⟨h, fun _ hid => hid⟩
  | succ k ih =>
    rw [Function.iterate_succ_apply']
    refine ⟨ih.1.sweep, fun id hid => ?_⟩
    exact mem_removed_foldl_remove.mpr (Or.inl (ih.2 hid))

/-- Where there are no orphans, what has been removed is closed. -/
theorem Sound.closed (h : Sound targets nodes edges r)
    (htargets : ∀ id ∈ targets, id ∈ nodes.map Node.id → id ∈ r.removed)
    (hdone : r.orphans nodes edges = []) :
    CascadeClosed targets nodes edges {id | id ∈ r.removed} := by
  refine ⟨htargets, fun n hn hkind hhad hall => ?_⟩
  -- A starved output that is still there would be an orphan.
  by_contra hnot
  have horphan : isOrphan edges r n = true := by
    refine isOrphan_iff.mpr ⟨hkind, hnot, hhad, fun e he htarget => ?_⟩
    rw [h.edgesFollow, List.mem_filter, decide_eq_true_eq] at he
    rcases hall e he.1 htarget with hin | hin
    · exact he.2.1 hin
    · exact he.2.2 hin
  have hmem : n.id ∈ r.orphans nodes edges := mem_orphans.mpr ⟨n, hn, horphan, rfl⟩
  rw [hdone] at hmem
  exact List.not_mem_nil hmem

/-- The invariant holds at the end, after all the sweeps. -/
theorem plan_sound (targets : List NodeId) (nodes : List Node) (edges : List Edge) :
    Sound targets nodes edges (plan targets nodes edges) := by
  obtain ⟨rounds, -, hsettles⟩ := plan_settlesIn targets nodes edges
  rw [hsettles.reached]
  exact (iterate_sweep (afterTargets_sound targets nodes edges) rounds).1

/-- What a deletion removes is the least closed set. -/
theorem plan_isLeast (targets : List NodeId) (nodes : List Node) (edges : List Edge) :
    IsLeast {s | CascadeClosed targets nodes edges s}
      {id | id ∈ (plan targets nodes edges).removed} := by
  have hsound := plan_sound targets nodes edges
  obtain ⟨rounds, -, hsettles⟩ := plan_settlesIn targets nodes edges
  refine ⟨hsound.closed (fun id hid hnode => ?_) hsettles.done, fun s hs => hsound.forced s hs⟩
  rw [hsettles.reached]
  exact (iterate_sweep (afterTargets_sound targets nodes edges) rounds).2
    (mem_removed_afterTargets.mpr ⟨hid, hnode⟩)

end Removal

/-! ### What is left -/

/-- The nodes left are those that were not removed, in their order. -/
theorem cascade_nodes (targets : List NodeId) (nodes : List Node) (edges : List Edge) :
    (cascade targets nodes edges).nodes
      = nodes.filter fun n => n.id ∉ (Removal.plan targets nodes edges).removed := by
  show (nodes.filter fun n => !(Removal.plan targets nodes edges).removed.contains n.id) = _
  apply List.filter_congr
  intro n _
  rw [List.contains_eq_mem, decide_not]

/-- The edges left are those with no end that was removed, in their order. -/
theorem cascade_edges (targets : List NodeId) (nodes : List Node) (edges : List Edge) :
    (cascade targets nodes edges).edges = edges.filter fun e =>
      e.source ∉ (Removal.plan targets nodes edges).removed ∧
        e.target ∉ (Removal.plan targets nodes edges).removed := by
  show (Removal.plan targets nodes edges).edgesLeft = _
  exact (Removal.plan_sound targets nodes edges).edgesFollow

/-- Nodes whose ids are outside of some closed set are left. -/
theorem mem_cascade_nodes_of_closed {s : Set NodeId} (hs : CascadeClosed targets nodes edges s)
    {n : Node} (hn : n ∈ nodes) (hout : n.id ∉ s) : n ∈ (cascade targets nodes edges).nodes := by
  rw [cascade_nodes, List.mem_filter, decide_eq_true_eq]
  exact ⟨hn, fun hmem => hout ((Removal.plan_isLeast targets nodes edges).2 hs hmem)⟩

/-- **A deletion removes the least closed set.**  The loop of sweeps ends by itself.  The ids
    removed are the least set that is closed, and all of them are nodes; the nodes and edges
    that do not belong to it are left as they are and in their order.  So a node that is no
    target stays if it had no incoming edge, or if it is in a set of such nodes each of which is
    fed from within the set; and no edge that is left touches a node that is not. -/
theorem cascade_removes_least (targets : List NodeId) (nodes : List Node) (edges : List Edge) :
    let left := cascade targets nodes edges
    ∃ removed : List NodeId,
      IsLeast {s | CascadeClosed targets nodes edges s} {id | id ∈ removed} ∧
        left.nodes = nodes.filter (fun n => n.id ∉ removed) ∧
        left.edges = edges.filter (fun e => e.source ∉ removed ∧ e.target ∉ removed) ∧
        removed ⊆ nodes.map Node.id ∧
        (∃ rounds ≤ nodes.length,
          Removal.SettlesIn nodes edges rounds (Removal.afterTargets targets nodes edges)
            (Removal.plan targets nodes edges)) ∧
        (∀ n ∈ nodes, n.id ∉ targets → (∀ e ∈ edges, e.target ≠ n.id) → n ∈ left.nodes) ∧
        (∀ ring : Set NodeId,
          (∀ id ∈ ring, id ∉ targets ∧ ∃ e ∈ edges, e.source ∈ ring ∧ e.target = id) →
            ∀ n ∈ nodes, n.id ∈ ring → n ∈ left.nodes) ∧
        ∀ e ∈ left.edges, ∀ n ∈ nodes, n ∉ left.nodes → e.touches n.id = false := by
  intro left
  have hleast := Removal.plan_isLeast targets nodes edges
  refine ⟨(Removal.plan targets nodes edges).removed, hleast, cascade_nodes targets nodes edges,
    cascade_edges targets nodes edges, hleast.2 (cascadeClosed_ids targets nodes edges),
    Removal.plan_settlesIn targets nodes edges, ?_, ?_, ?_⟩
  · -- All nodes but this one are closed together.
    intro n hn htarget hisolated
    refine mem_cascade_nodes_of_closed (s := {n.id}ᶜ) (cascadeClosed_compl ?_ ?_) hn (by simp)
    · rintro id rfl
      exact htarget
    · rintro id rfl
      exact Or.inl hisolated
  · -- So are all but those of the ring, which feed each other.
    intro ring hring n hn hmem
    have hclosed : CascadeClosed targets nodes edges ringᶜ :=
      cascadeClosed_compl (fun id hid => (hring id hid).1) fun id hid => Or.inr (hring id hid).2
    exact mem_cascade_nodes_of_closed hclosed hn (fun hout => hout hmem)
  · -- A node that is gone has been removed, and no edge left touches one of those.
    intro e he n hn hgone
    have hremoved : n.id ∈ (Removal.plan targets nodes edges).removed := by
      by_contra hnot
      refine hgone ?_
      rw [cascade_nodes, List.mem_filter, decide_eq_true_eq]
      exact ⟨hn, hnot⟩
    rw [cascade_edges, List.mem_filter, decide_eq_true_eq] at he
    rw [Edge.touches, Bool.or_eq_false_iff, decide_eq_false_iff_not, decide_eq_false_iff_not]
    exact ⟨fun heq => he.2.1 (heq ▸ hremoved), fun heq => he.2.2 (heq ▸ hremoved)⟩

end QueryGraph
