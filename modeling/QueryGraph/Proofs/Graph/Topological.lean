import Mathlib.Data.Set.Card
import QueryGraph.Proofs.Graph.Cycle

namespace QueryGraph

/-!
# The schedule orders all nodes that no cycle holds up

* `IsTopological`: a list of all nodes in which every live edge leads forward, with
  `isTopological_of_schedule`.
* `HeldUp`: a node on a cycle of live edges, or below one.
* `acc_iff_not_heldUp`: a node that is not held up depends on finitely many nodes only, and
  the other way round.
* `Graph.mem_schedulable_iff`: the nodes that can be scheduled are those that are not held up.
* `schedule_stops_at_cycles`: the schedule is a topological order, or it says how many of the
  nodes are not held up.
-/

variable {nodes : List Node} {edges : List Edge}

/-! ### Topological orders -/

/-- Every node once, and the source of every live edge before its target. -/
def IsTopological (nodes : List Node) (edges : List Edge) (order : List NodeId) : Prop :=
  order.Perm (nodes.map Node.id).eraseDups ∧
    ∀ e ∈ liveEdges nodes edges, order.idxOf e.source < order.idxOf e.target

instance (nodes : List Node) (edges : List Edge) (order : List NodeId) :
    Decidable (IsTopological nodes edges order) :=
  inferInstanceAs (Decidable (_ ∧ _))

namespace IsTopological

variable {order : List NodeId}

theorem nodup (h : IsTopological nodes edges order) : order.Nodup :=
  h.1.nodup_iff.mpr (Graph.nodup_eraseDups _)

theorem mem_iff (h : IsTopological nodes edges order) {id : NodeId} :
    id ∈ order ↔ id ∈ nodes.map Node.id := by
  rw [h.1.mem_iff, List.mem_eraseDups]

/-- What feeds a node is in the order. -/
theorem source_mem (h : IsTopological nodes edges order) {u v : NodeId}
    (huv : Feeds nodes edges u v) : u ∈ order := by
  obtain ⟨e, he, rfl, -⟩ := huv
  exact h.mem_iff.mpr (mem_liveEdges.mp he).2.1

/-- What feeds a node stands before it. -/
theorem idxOf_lt (h : IsTopological nodes edges order) {u v : NodeId}
    (huv : Feeds nodes edges u v) : order.idxOf u < order.idxOf v := by
  obtain ⟨e, he, rfl, rfl⟩ := huv
  exact h.2 e he

/-- What feeds a node stands in the part of the order before it. -/
theorem ordered (h : IsTopological nodes edges order) :
    (Graph.build nodes edges).Ordered order := by
  intro l₁ v l₂ horder u hu
  have hlt := h.idxOf_lt (Graph.mem_build_dependencies.mp hu)
  have hnot : v ∉ l₁ := by
    intro hmem
    have hnodup := h.nodup
    rw [horder, List.nodup_append] at hnodup
    exact hnodup.2.2 _ hmem _ (by simp) rfl
  -- Outside of `l₁` the source comes no earlier than the target, which is next.
  by_contra hsource
  rw [horder, List.idxOf_append_of_notMem hnot, List.idxOf_append_of_notMem hsource,
    List.idxOf_cons_self] at hlt
  omega

end IsTopological

/-- A schedule is a topological order. -/
theorem isTopological_of_schedule {order : List NodeId}
    (h : (Graph.build nodes edges).schedule = .ok order) : IsTopological nodes edges order := by
  obtain ⟨hnodup, hordered, hmem⟩ :=
    Graph.schedule_eq_ok (Graph.build_wellFormed nodes edges) h
  refine ⟨?_, fun e he => ?_⟩
  · rw [List.perm_ext_iff_of_nodup hnodup (Graph.nodup_eraseDups _)]
    intro id
    rw [hmem, Graph.build_ids]
  · have hfeeds : e.source ∈ (Graph.build nodes edges).dependencies e.target :=
      Graph.mem_build_dependencies.mpr ⟨e, he, rfl, rfl⟩
    -- Up to its first occurrence, the order before the target holds all its dependencies.
    obtain ⟨l₁, l₂, rfl, hnot⟩ := List.eq_append_cons_of_mem
      ((hmem e.target).mpr (Graph.mem_ids_of_mem_dependencies hfeeds))
    have hsource := hordered l₁ e.target l₂ rfl hfeeds
    rw [List.idxOf_append_of_mem hsource, List.idxOf_append_of_notMem hnot]
    have hlt := List.idxOf_lt_length_of_mem hsource
    omega

/-! ### Nodes that are held up -/

/-- A node on a cycle of live edges, or one that a cycle leads to. -/
def HeldUp (nodes : List Node) (edges : List Edge) (id : NodeId) : Prop :=
  ∃ u, Relation.TransGen (Feeds nodes edges) u u ∧ Relation.ReflTransGen (Feeds nodes edges) u id

/-- A cycle that holds up a node holds up what the node feeds. -/
theorem HeldUp.of_feeds {u v : NodeId} (huv : Feeds nodes edges u v) (h : HeldUp nodes edges u) :
    HeldUp nodes edges v := by
  obtain ⟨w, hcycle, hwalk⟩ := h
  exact ⟨w, hcycle, hwalk.tail huv⟩

/-- Nothing leads from an accessible point back to it: the way could be gone again and again. -/
theorem not_transGen_of_acc {α : Type} {r : α → α → Prop} {a : α} (h : Acc r a) :
    ¬ Relation.TransGen r a a := by
  replace h := h.transGen
  induction h with
  | intro a _ ih => exact fun hcycle => ih a hcycle hcycle

/-- Below a cycle there is an endless chain of dependencies. -/
theorem not_heldUp_of_acc {id : NodeId} (h : Acc (Feeds nodes edges) id) :
    ¬ HeldUp nodes edges id := by
  rintro ⟨u, hcycle, hwalk⟩
  rcases Relation.reflTransGen_iff_eq_or_transGen.mp hwalk with rfl | hwalk
  · exact not_transGen_of_acc h hcycle
  · exact not_transGen_of_acc (h.inv_of_transGen hwalk) hcycle

/-- The dependencies of nodes that are not held up are open, for a reported cycle would hold
    them up; and no chain of open dependencies is endless. -/
theorem acc_of_not_heldUp {id : NodeId} (h : ¬ HeldUp nodes edges id) :
    Acc (Feeds nodes edges) id := by
  have hg := Graph.build_wellFormed nodes edges
  induction id using (Graph.wellFounded_open hg).induction with
  | _ id ih =>
    refine Acc.intro id fun u hu => ih u ⟨Graph.mem_build_dependencies.mpr hu, ?_⟩ fun hheld =>
      h (hheld.of_feeds hu)
    -- An edge that is not open lies on a reported cycle, and the node with it.
    rintro ⟨c, hc, hstep⟩
    have hid : id ∈ c := hstep.subset (by simp)
    have hcycle := Graph.transGen_of_mem_cycles hg hc hid hid
    rw [isDependency_build] at hcycle
    exact h ⟨id, hcycle, .refl⟩

/-- Below a node that is not held up every chain ends, and below one that is held up some chain does
    not. -/
theorem acc_iff_not_heldUp {id : NodeId} :
    Acc (Feeds nodes edges) id ↔ ¬ HeldUp nodes edges id :=
  ⟨not_heldUp_of_acc, acc_of_not_heldUp⟩

/-! ### What can be scheduled -/

/-- What can be scheduled stands after all of its dependencies, so it has no endless chain of
    them; and what has none can be scheduled as soon as its dependencies can. -/
theorem Graph.mem_schedulable_iff {id : NodeId} :
    id ∈ (build nodes edges).schedulable ↔
      id ∈ nodes.map Node.id ∧ ¬ HeldUp nodes edges id := by
  have hg := build_wellFormed nodes edges
  obtain ⟨-, hordered, hmem⟩ := schedulable_spec hg
  rw [← acc_iff_not_heldUp, ← isDependency_build]
  constructor
  · intro hid
    exact ⟨mem_build_ids.mp ((hmem id).mp hid).1, hordered.acc id hid⟩
  · rintro ⟨hid, hacc⟩
    -- By induction on what the node depends on, all of which can be scheduled.
    induction hacc with
    | intro id _ ih =>
      refine (hmem id).mpr ⟨mem_build_ids.mpr hid, fun u hu => ih u hu ?_⟩
      exact mem_build_ids.mp (hg.dependency_mem hu)

/-- The scheduler gets as far as there are nodes that are not held up. -/
theorem Graph.length_schedulable (nodes : List Node) (edges : List Edge) :
    (build nodes edges).schedulable.length
      = {id | id ∈ nodes.map Node.id ∧ ¬ HeldUp nodes edges id}.ncard := by
  have hset : {id | id ∈ nodes.map Node.id ∧ ¬ HeldUp nodes edges id}
      = ((build nodes edges).schedulable.toFinset : Set NodeId) := by
    ext id
    rw [Finset.mem_coe, List.mem_toFinset, mem_schedulable_iff]
    exact Iff.rfl
  obtain ⟨hnodup, -, -⟩ := schedulable_spec (build_wellFormed nodes edges)
  rw [hset, Set.ncard_coe_finset, List.toFinset_card_of_nodup hnodup]

/-- **The schedule stops at cycles and nowhere else.**  Either it lists every node once, the
    source of every live edge before its target; or it fails and names how many nodes there are
    and how many of them are neither on a cycle nor below one, which is not all of them. -/
theorem schedule_stops_at_cycles (nodes : List Node) (edges : List Edge) :
    let total := (nodes.map Node.id).eraseDups.length
    let free := {id | id ∈ nodes.map Node.id ∧ ¬ HeldUp nodes edges id}.ncard
    match (Graph.build nodes edges).schedule with
    | .ok order => IsTopological nodes edges order
    | .error failure => failure = .unschedulable free total ∧ free < total := by
  intro total free
  have hsize : (Graph.build nodes edges).size = total := by
    rw [← Graph.length_ids, Graph.build_ids]
  have hfree : (Graph.build nodes edges).schedulable.length = free :=
    Graph.length_schedulable nodes edges
  cases hschedule : (Graph.build nodes edges).schedule with
  | ok order => exact isTopological_of_schedule hschedule
  | error failure =>
    -- The scheduler lists nodes of the snapshot only, so no more than there are.
    have hle : free ≤ total := by
      rw [← hfree, ← hsize, ← Graph.length_ids]
      obtain ⟨hnodup, -, hmem⟩ := Graph.schedulable_spec (Graph.build_wellFormed nodes edges)
      exact (List.subperm_of_subset hnodup fun v hv => ((hmem v).mp hv).1).length_le
    unfold Graph.schedule at hschedule
    rw [hfree, hsize] at hschedule
    split at hschedule
    · simp at hschedule
    · obtain rfl := Except.error.inj hschedule
      exact ⟨rfl, by omega⟩

end QueryGraph
