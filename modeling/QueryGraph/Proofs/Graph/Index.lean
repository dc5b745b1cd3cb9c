import Mathlib.Data.List.Dedup
import Mathlib.Data.List.Induction
import QueryGraph.Graph.Basic

namespace QueryGraph

/-!
# The dependency graph represents the live edges

* `liveEdges`, `liveInto`: the edges of a snapshot whose two ends are nodes, and those of them
  that lead into one node.
* `Feeds`, `Acyclic`: one node feeds another along a live edge; no node feeds itself along any
  number of them.
* `build_ids`, `build_neighbours`: the graph of a snapshot holds each node once, and the live
  edges at both of their ends, in edge order.
* `Graph.WellFormed`: what the algorithms on graphs rely on, with `build_wellFormed`.
* `build_represents_edges`: the graph of a snapshot as a table of its edges, read at both ends.
-/

/-! ### Live edges -/

/-- An edge is live if both of its ends are nodes of the snapshot. -/
def Edge.IsLive (nodes : List Node) (e : Edge) : Prop :=
  e.source ∈ nodes.map Node.id ∧ e.target ∈ nodes.map Node.id

instance (nodes : List Node) (e : Edge) : Decidable (e.IsLive nodes) :=
  inferInstanceAs (Decidable (_ ∧ _))

/-- The live edges of a snapshot, in edge order. -/
def liveEdges (nodes : List Node) (edges : List Edge) : List Edge :=
  edges.filter fun e => e.IsLive nodes

/-- The live edges into a node, in edge order. -/
def liveInto (nodes : List Node) (edges : List Edge) (id : NodeId) : List Edge :=
  (liveEdges nodes edges).filter fun e => e.target = id

/-- A live edge leads from the first node to the second. -/
def Feeds (nodes : List Node) (edges : List Edge) (u v : NodeId) : Prop :=
  ∃ e ∈ liveEdges nodes edges, e.source = u ∧ e.target = v

/-- No walk of one or more live edges leads from a node back to itself. -/
def Acyclic (nodes : List Node) (edges : List Edge) : Prop :=
  ∀ id, ¬ Relation.TransGen (Feeds nodes edges) id id

variable {nodes : List Node} {edges : List Edge}

/-- An edge is live if it is there and so are its two ends. -/
theorem mem_liveEdges {e : Edge} :
    e ∈ liveEdges nodes edges ↔
      e ∈ edges ∧ e.source ∈ nodes.map Node.id ∧ e.target ∈ nodes.map Node.id := by
  rw [liveEdges, List.mem_filter, decide_eq_true_eq]
  exact Iff.rfl

theorem mem_liveInto {e : Edge} {id : NodeId} :
    e ∈ liveInto nodes edges id ↔ e ∈ liveEdges nodes edges ∧ e.target = id := by
  rw [liveInto, List.mem_filter, decide_eq_true_eq]

/-- Whether an edge is live does not depend on the other edges. -/
theorem liveInto_append (edges edges' : List Edge) (id : NodeId) :
    liveInto nodes (edges ++ edges') id = liveInto nodes edges id ++ liveInto nodes edges' id := by
  simp only [liveInto, liveEdges, List.filter_append]

/-- One edge alone leads into its target if it is live, and into no other node. -/
theorem liveInto_singleton (e : Edge) (id : NodeId) :
    liveInto nodes [e] id = if e.IsLive nodes ∧ e.target = id then [e] else [] := by
  simp only [liveInto, liveEdges, List.filter_cons, List.filter_nil]
  by_cases hlive : e.IsLive nodes <;> by_cases hid : e.target = id <;> simp [hlive, hid]

/-- What feeds a node is found among the live edges into it. -/
theorem feeds_iff {u v : NodeId} :
    Feeds nodes edges u v ↔ ∃ e ∈ liveInto nodes edges v, e.source = u := by
  simp only [Feeds, liveInto, List.mem_filter, decide_eq_true_eq]
  constructor
  · rintro ⟨e, he, hu, hv⟩
    exact ⟨e, ⟨he, hv⟩, hu⟩
  · rintro ⟨e, ⟨he, hv⟩, hu⟩
    exact ⟨e, he, hu, hv⟩

/-! ### Look-ups -/

section Lookup

variable {α β : Type} [DecidableEq α]

/-- The first entry hides those behind it, as one `if` on the keys. -/
theorem lookup_cons_if (a b : α) (x : β) (l : List (α × β)) :
    ((a, x) :: l).lookup b = if b = a then some x else l.lookup b := by
  by_cases h : b = a
  · rw [if_pos h, h, List.lookup_cons_self]
  · rw [if_neg h, List.lookup_cons, beq_false_of_ne h]

/-- Changing the values under one key changes the look-up of that key alone. -/
theorem lookup_map_if (l : List (α × β)) (a b : α) (f : β → β) :
    (l.map fun e => if e.1 = a then (e.1, f e.2) else e).lookup b
      = if b = a then (l.lookup b).map f else l.lookup b := by
  induction l with
  | nil => simp
  | cons e rest ih =>
    -- Changed or not, an entry keeps its key, so the look-up goes on as before.
    obtain ⟨k, x⟩ := e
    have hhead : (if k = a then (k, f x) else (k, x)) = (k, if k = a then f x else x) := by
      by_cases hk : k = a <;> simp [hk]
    rw [List.map_cons, hhead, lookup_cons_if, lookup_cons_if, ih]
    by_cases hb : b = k
    · subst hb
      by_cases ha : b = a <;> simp [ha]
    · rw [if_neg hb, if_neg hb]

end Lookup

/-! ### First occurrences -/

/-- The first occurrences grow by a new node only if it is new. -/
theorem eraseDups_concat (l : List NodeId) (a : NodeId) :
    (l ++ [a]).eraseDups = if a ∈ l then l.eraseDups else l.eraseDups ++ [a] := by
  rw [List.eraseDups_append, List.removeAll]
  by_cases h : a ∈ l <;> simp [h, List.eraseDups_cons]

/-- What stands first among some nodes stands first among their first occurrences. -/
theorem idxOf_eraseDups_lt_iff {l : List NodeId} {u v : NodeId} (hu : u ∈ l) (hv : v ∈ l) :
    l.eraseDups.idxOf u < l.eraseDups.idxOf v ↔ l.idxOf u < l.idxOf v := by
  induction l using List.reverseRecOn with
  | nil => exact absurd hu List.not_mem_nil
  | append_singleton l a ih =>
    rw [eraseDups_concat]
    by_cases ha : a ∈ l
    · -- A repeated node changes nothing.
      have hall : ∀ w ∈ l ++ [a], w ∈ l := List.forall_mem_append.mpr
        ⟨fun w hw => hw, List.forall_mem_singleton.mpr ha⟩
      rw [if_pos ha, List.idxOf_append_of_mem (hall u hu), List.idxOf_append_of_mem (hall v hv)]
      exact ih (hall u hu) (hall v hv)
    · -- A new one comes last on both sides.
      rw [if_neg ha]
      simp only [List.idxOf_append, List.mem_eraseDups]
      by_cases hu' : u ∈ l <;> by_cases hv' : v ∈ l
      · simpa [hu', hv'] using ih hu' hv'
      · have hlt := List.idxOf_lt_length_of_mem hu'
        have hlt' := List.idxOf_lt_length_of_mem (List.mem_eraseDups.mpr hu')
        simp only [hu', hv', if_true, if_false]
        omega
      · have hlt := List.idxOf_lt_length_of_mem hv'
        have hlt' := List.idxOf_lt_length_of_mem (List.mem_eraseDups.mpr hv')
        simp only [hu', hv', if_true, if_false]
        omega
      · obtain rfl : u = a := by simpa [hu'] using hu
        obtain rfl : v = u := by simpa [hv'] using hv
        simp

namespace Graph

theorem length_ids (g : Graph) : g.ids.length = g.size := List.length_map ..

/-- A graph contains the nodes that it has an entry for. -/
theorem contains_iff (g : Graph) (id : NodeId) : g.contains id = true ↔ id ∈ g.ids := by
  unfold contains neighbours? ids
  rw [List.lookup_isSome_iff]
  simp [List.mem_map]

/-- A node that is not there has no neighbours. -/
theorem neighbours_eq_none {g : Graph} {id : NodeId} (h : id ∉ g.ids) :
    g.neighbours id = .none := by
  rw [← contains_iff] at h
  simp only [contains, Bool.not_eq_true, Option.isSome_eq_false_iff, Option.isNone_iff_eq_none] at h
  rw [neighbours, h, Option.getD_none]

/-- Only nodes of the graph depend on anything. -/
theorem mem_ids_of_mem_dependencies {g : Graph} {u v : NodeId} (h : u ∈ g.dependencies v) :
    v ∈ g.ids := by
  by_contra hv
  rw [dependencies, neighbours_eq_none hv] at h
  simp [Neighbours.none] at h

/-! ### Nodes -/

/-- A node is entered behind the others, unless it is there already. -/
theorem ids_addNode (g : Graph) (id : NodeId) :
    (g.addNode id).ids = if id ∈ g.ids then g.ids else g.ids ++ [id] := by
  unfold addNode
  by_cases h : id ∈ g.ids
  · rw [if_pos ((contains_iff g id).mpr h), if_pos h]
  · rw [if_neg (by rw [contains_iff]; exact h), if_neg h]
    simp [ids]

/-- A new node has no neighbours, as a node that is not there. -/
theorem neighbours_addNode (g : Graph) (id v : NodeId) :
    (g.addNode id).neighbours v = g.neighbours v := by
  unfold addNode
  by_cases h : g.contains id
  · rw [if_pos h]
  · rw [if_neg h]
    simp only [neighbours, neighbours?, List.lookup_append, lookup_cons_if, List.lookup_nil]
    cases g.entries.lookup v with
    | some n => rfl
    | none => by_cases hv : v = id <;> simp [hv]

/-- The nodes of a graph stay, and new ones follow in the order of their first occurrence. -/
theorem ids_foldl_addNode (l : List NodeId) (g : Graph) :
    (l.foldl addNode g).ids = g.ids ++ (l.filter (· ∉ g.ids)).eraseDups := by
  induction l generalizing g with
  | nil => simp
  | cons id rest ih =>
    rw [List.foldl_cons, ih, ids_addNode]
    by_cases h : id ∈ g.ids
    · simp [h]
    · rw [if_neg h, List.filter_cons_of_pos (by simpa using h), List.eraseDups_cons,
        List.filter_filter]
      -- Behind a new node, what is new is neither in the graph nor that node.
      simp only [List.mem_append, List.mem_singleton, List.append_assoc, List.singleton_append]
      congr 3
      apply List.filter_congr
      intro x _
      simp only [not_or, Bool.decide_and]
      by_cases hx : x = id <;> simp [hx]

/-- However many nodes are entered, no neighbours come with them. -/
theorem neighbours_foldl_addNode (l : List NodeId) (g : Graph) (v : NodeId) :
    (l.foldl addNode g).neighbours v = g.neighbours v := by
  induction l generalizing g with
  | nil => rfl
  | cons id rest ih => rw [List.foldl_cons, ih, neighbours_addNode]

/-! ### Edges -/

/-- To change the neighbours of a node changes no node. -/
theorem ids_modify (f : Neighbours → Neighbours) (id : NodeId) (g : Graph) :
    (g.modify f id).ids = g.ids := by
  simp only [ids, modify, List.map_map]
  apply List.map_congr_left
  intro e _
  by_cases h : e.1 = id <;> simp [h]

/-- Only the node itself gets other neighbours. -/
theorem neighbours_modify (f : Neighbours → Neighbours) {id : NodeId} {g : Graph}
    (hid : id ∈ g.ids) (v : NodeId) :
    (g.modify f id).neighbours v = if v = id then f (g.neighbours v) else g.neighbours v := by
  simp only [neighbours, neighbours?, modify, lookup_map_if]
  by_cases h : v = id
  · subst h
    obtain ⟨n, hn⟩ := Option.isSome_iff_exists.mp ((contains_iff g v).mpr hid)
    rw [neighbours?] at hn
    simp [hn]
  · rw [if_neg h, if_neg h]

/-- No edge enters a node. -/
theorem ids_addEdge (g : Graph) (e : Edge) : (g.addEdge e).ids = g.ids := by
  unfold addEdge
  split
  · rw [ids_modify, ids_modify]
  · rfl

/-- An edge with both ends in the graph is noted at both of them. -/
theorem neighbours_addEdge (g : Graph) (e : Edge) (v : NodeId) :
    (g.addEdge e).neighbours v =
      if e.source ∈ g.ids ∧ e.target ∈ g.ids then
        { dependencies :=
            (g.neighbours v).dependencies ++ if e.target = v then [e.source] else []
          handles := (g.neighbours v).handles ++ if e.target = v then [e.targetHandle] else []
          dependents := (g.neighbours v).dependents ++ if e.source = v then [e.target] else [] }
      else g.neighbours v := by
  unfold addEdge
  simp only [Bool.and_eq_true, contains_iff]
  by_cases h : e.source ∈ g.ids ∧ e.target ∈ g.ids
  · rw [if_pos h, if_pos h, neighbours_modify _ (by rw [ids_modify]; exact h.2),
      neighbours_modify _ h.1]
    simp only [eq_comm (a := v)]
    -- The node may be at either end of the edge, at both or at none.
    by_cases hs : e.source = v <;> by_cases ht : e.target = v <;>
      simp [hs, ht, addInput, addDependent]
  · rw [if_neg h, if_neg h]
    rfl

/-- No number of edges enters a node. -/
theorem ids_foldl_addEdge (l : List Edge) (g : Graph) : (l.foldl addEdge g).ids = g.ids := by
  induction l generalizing g with
  | nil => rfl
  | cons e rest ih => rw [List.foldl_cons, ih, ids_addEdge]

/-- Every edge with both ends in the graph is noted once, in edge order. -/
theorem neighbours_foldl_addEdge (l : List Edge) (g : Graph) (v : NodeId) :
    let held := l.filter fun e => e.source ∈ g.ids ∧ e.target ∈ g.ids
    (l.foldl addEdge g).neighbours v =
      { dependencies := (g.neighbours v).dependencies ++
          (held.filter fun e => e.target = v).map Edge.source
        handles := (g.neighbours v).handles ++
          (held.filter fun e => e.target = v).map Edge.targetHandle
        dependents := (g.neighbours v).dependents ++
          (held.filter fun e => e.source = v).map Edge.target } := by
  induction l generalizing g with
  | nil => simp
  | cons e rest ih =>
    -- The nodes are the same before and after the first edge, so are the edges held.
    simp only [List.foldl_cons, ih, ids_addEdge, neighbours_addEdge, List.filter_cons,
      decide_eq_true_eq]
    by_cases h : e.source ∈ g.ids ∧ e.target ∈ g.ids
    · simp only [if_pos h, List.filter_cons]
      by_cases hs : e.source = v <;> by_cases ht : e.target = v <;> simp [hs, ht]
    · simp only [if_neg h]

/-! ### Inert edges -/

/-- Nodes are not counted among the edges. -/
theorem inertEdges_foldl_addNode (l : List NodeId) (g : Graph) :
    (l.foldl addNode g).inertEdges = g.inertEdges := by
  induction l generalizing g with
  | nil => rfl
  | cons id rest ih =>
    rw [List.foldl_cons, ih, addNode]
    split <;> rfl

/-- An edge counts as inert if one of its ends is missing. -/
theorem inertEdges_addEdge (g : Graph) (e : Edge) :
    (g.addEdge e).inertEdges
      = if e.source ∈ g.ids ∧ e.target ∈ g.ids then g.inertEdges else g.inertEdges + 1 := by
  unfold addEdge
  simp only [Bool.and_eq_true, contains_iff]
  by_cases h : e.source ∈ g.ids ∧ e.target ∈ g.ids
  · rw [if_pos h, if_pos h]
    rfl
  · rw [if_neg h, if_neg h]

/-- Every edge is either held by the graph or counted as inert. -/
theorem inertEdges_foldl_addEdge (l : List Edge) (g : Graph) :
    (l.foldl addEdge g).inertEdges
        + (l.filter fun e => e.source ∈ g.ids ∧ e.target ∈ g.ids).length
      = g.inertEdges + l.length := by
  induction l generalizing g with
  | nil => rfl
  | cons e rest ih =>
    -- The first edge changes no node, so it does not change which of the others are held.
    have hrest := ih (g.addEdge e)
    rw [ids_addEdge, inertEdges_addEdge] at hrest
    rw [List.foldl_cons, List.filter_cons, List.length_cons]
    by_cases h : e.source ∈ g.ids ∧ e.target ∈ g.ids
    · rw [if_pos h] at hrest
      rw [if_pos (by simpa using h), List.length_cons]
      omega
    · rw [if_neg h] at hrest
      rw [if_neg (by simpa using h)]
      omega

/-! ### The graph of a snapshot -/

/-- In a graph made from nothing each node stands where it occurs first. -/
theorem ids_foldl_addNode_empty (ids : List NodeId) :
    (ids.foldl addNode empty).ids = ids.eraseDups := by
  rw [ids_foldl_addNode]
  simp [Graph.ids, empty]

/-- The nodes of the graph are the ids of the node list, each at its first occurrence. -/
theorem build_ids (nodes : List Node) (edges : List Edge) :
    (build nodes edges).ids = (nodes.map Node.id).eraseDups := by
  rw [build, ids_foldl_addEdge, ids_foldl_addNode_empty]

/-- The nodes of the graph are those of the snapshot. -/
theorem mem_build_ids {id : NodeId} : id ∈ (build nodes edges).ids ↔ id ∈ nodes.map Node.id := by
  rw [build_ids, List.mem_eraseDups]

/-- The nodes of the graph stand in the order of the node list. -/
theorem idxOf_build_ids_lt_iff {u v : NodeId} (hu : u ∈ nodes.map Node.id)
    (hv : v ∈ nodes.map Node.id) :
    (build nodes edges).ids.idxOf u < (build nodes edges).ids.idxOf v ↔
      (nodes.map Node.id).idxOf u < (nodes.map Node.id).idxOf v := by
  rw [build_ids]
  exact idxOf_eraseDups_lt_iff hu hv

/-- The neighbours of a node are the other ends of its live edges: the sources of those into it,
    beside them their handles, and the targets of those from it. -/
theorem build_neighbours (nodes : List Node) (edges : List Edge) (v : NodeId) :
    (build nodes edges).neighbours v =
      { dependencies := (liveInto nodes edges v).map Edge.source
        handles := (liveInto nodes edges v).map Edge.targetHandle
        dependents := ((liveEdges nodes edges).filter fun e => e.source = v).map Edge.target } := by
  unfold build
  rw [neighbours_foldl_addEdge, neighbours_foldl_addNode]
  simp only [ids_foldl_addNode_empty, List.mem_eraseDups]
  rfl

/-- The edges of a snapshot are the live ones and those counted as inert. -/
theorem build_inertEdges (nodes : List Node) (edges : List Edge) :
    (build nodes edges).inertEdges + (liveEdges nodes edges).length = edges.length := by
  have hedges := inertEdges_foldl_addEdge edges ((nodes.map Node.id).foldl addNode empty)
  simp only [ids_foldl_addNode_empty, List.mem_eraseDups, inertEdges_foldl_addNode] at hedges
  exact hedges.trans (Nat.zero_add _)

/-- The inputs of a node: sources and handles of the live edges into it, in edge order. -/
theorem build_inputs (nodes : List Node) (edges : List Edge) (v : NodeId) :
    (build nodes edges).inputs v
      = (liveInto nodes edges v).map fun e => (e.source, e.targetHandle) := by
  rw [inputs, build_neighbours, Neighbours.inputs, List.zip_map']

/-- The dependents of a node: targets of the live edges from it, in edge order. -/
theorem build_dependents (nodes : List Node) (edges : List Edge) (v : NodeId) :
    (build nodes edges).dependents v
      = ((liveEdges nodes edges).filter fun e => e.source = v).map Edge.target := by
  rw [dependents, build_neighbours]

/-- The dependencies of a node: sources of the live edges into it, in edge order. -/
theorem build_dependencies (nodes : List Node) (edges : List Edge) (v : NodeId) :
    (build nodes edges).dependencies v = (liveInto nodes edges v).map Edge.source := by
  rw [dependencies, build_neighbours]

/-- The handles of a node, one for each dependency and in the same order. -/
theorem build_inputHandles (nodes : List Node) (edges : List Edge) (v : NodeId) :
    (build nodes edges).inputHandles v = (liveInto nodes edges v).map Edge.targetHandle := by
  rw [inputHandles, build_neighbours]

/-- In the graph of a snapshot, dependencies are what feeds a node. -/
theorem mem_build_dependencies {u v : NodeId} :
    u ∈ (build nodes edges).dependencies v ↔ Feeds nodes edges u v := by
  rw [build_dependencies, feeds_iff, List.mem_map]

/-! ### Well-formed graphs -/

/-- No node is entered twice, every dependency is a node, and the two directions agree on how
    often one node depends on another. -/
structure WellFormed (g : Graph) : Prop where
  nodup : g.ids.Nodup
  dependency_mem : ∀ {u v}, u ∈ g.dependencies v → u ∈ g.ids
  count_eq : ∀ u v, (g.dependents u).count v = (g.dependencies v).count u

theorem WellFormed.mem_dependents_iff {g : Graph} (hg : g.WellFormed) {u v : NodeId} :
    v ∈ g.dependents u ↔ u ∈ g.dependencies v := by
  rw [← List.count_pos_iff, hg.count_eq, List.count_pos_iff]

/-- First occurrences are without duplicates. -/
theorem nodup_eraseDups (l : List NodeId) : l.eraseDups.Nodup := by
  cases l with
  | nil => simp
  | cons a rest =>
    rw [List.eraseDups_cons, List.nodup_cons]
    exact ⟨by simp [List.mem_eraseDups], nodup_eraseDups _⟩
termination_by l.length
decreasing_by
  have hle := List.length_filter_le (fun x => !x == a) rest
  simp only [List.length_cons]
  omega

/-- The graph of a snapshot is well-formed: each node is entered once, and an edge is noted only if
    it is live, and then at both ends. -/
theorem build_wellFormed (nodes : List Node) (edges : List Edge) :
    (build nodes edges).WellFormed where
  nodup := by
    rw [build_ids]
    exact nodup_eraseDups _
  dependency_mem := by
    intro u v h
    obtain ⟨e, he, rfl, _⟩ := mem_build_dependencies.mp h
    rw [mem_build_ids]
    simp only [liveEdges, List.mem_filter, decide_eq_true_eq] at he
    exact he.2.1
  count_eq := by
    intro u v
    -- Both sides count the live edges from `u` to `v`.
    rw [build_dependents, build_dependencies, liveInto]
    simp only [List.count, List.countP_map, List.countP_filter]
    apply List.countP_congr
    intro e _
    simp [and_comm]

/-- The neighbours of a node are those of its only entry. -/
theorem WellFormed.neighbours_of_mem {g : Graph} (hg : g.WellFormed) {v : NodeId} {n : Neighbours}
    (h : (v, n) ∈ g.entries) : g.neighbours v = n := by
  have hlookup : g.entries.lookup v = some n := by
    rw [List.lookup_eq_some_iff]
    obtain ⟨l₁, l₂, hl⟩ := List.append_of_mem h
    -- No entry before it has the same id, so the look-up comes as far as this one.
    refine ⟨l₁, l₂, hl, fun e he => ?_⟩
    have hnodup := hg.nodup
    rw [ids, hl, List.map_append, List.map_cons, List.nodup_append] at hnodup
    simpa using Ne.symm (hnodup.2.2 e.1 (List.mem_map_of_mem he) v (by simp))
  rw [neighbours, neighbours?, hlookup, Option.getD_some]

/-! ### The graph as a table of edges -/

/-- The inert edges are those that are not live. -/
theorem build_inertEdges_eq (nodes : List Node) (edges : List Edge) :
    (build nodes edges).inertEdges = edges.countP fun e => ¬ e.IsLive nodes := by
  have hsum := build_inertEdges nodes edges
  have hcount : (liveEdges nodes edges).length = edges.countP fun e => e.IsLive nodes := by
    rw [liveEdges, List.countP_eq_length_filter]
  rw [hcount, List.length_eq_countP_add_countP fun e : Edge => decide (e.IsLive nodes)] at hsum
  simp only [decide_eq_true_eq] at hsum
  omega

/-- **The graph represents the edges of its snapshot.**  Its nodes are the ids of the node list in
    the order in which they first occur.  The dependencies of a node are the sources of the live
    edges into it, in edge order, with the handles of the same edges beside them; its dependents
    are the targets of the live edges from it, in edge order; all other edges are counted.  So a
    node is as often a dependent of another as that one is a dependency of it. -/
theorem build_represents_edges (nodes : List Node) (edges : List Edge) :
    let g := build nodes edges
    let live := edges.filter fun e =>
      e.source ∈ nodes.map Node.id ∧ e.target ∈ nodes.map Node.id
    g.ids = (nodes.map Node.id).eraseDups ∧
      (∀ v,
        g.dependencies v = (live.filter fun e => e.target = v).map Edge.source ∧
        g.inputHandles v = (live.filter fun e => e.target = v).map Edge.targetHandle ∧
        (g.inputHandles v).length = (g.dependencies v).length ∧
        g.dependents v = (live.filter fun e => e.source = v).map Edge.target) ∧
      (g.inertEdges = edges.countP fun e =>
        ¬ (e.source ∈ nodes.map Node.id ∧ e.target ∈ nodes.map Node.id)) ∧
      ∀ u v, (g.dependents u).count v = (g.dependencies v).count u := by
  intro g live
  refine ⟨build_ids nodes edges, fun v => ?_, build_inertEdges_eq nodes edges,
    (build_wellFormed nodes edges).count_eq⟩
  have hdependencies := build_dependencies nodes edges v
  have hhandles := build_inputHandles nodes edges v
  refine ⟨hdependencies, hhandles, ?_, build_dependents nodes edges v⟩
  -- Both lists have one entry for each live edge into the node.
  rw [hhandles, hdependencies, List.length_map, List.length_map]

end Graph

end QueryGraph
