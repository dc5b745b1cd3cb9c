import QueryGraph.Proofs.Graph.Shape
import QueryGraph.Proofs.Plan.Record
import QueryGraph.Proofs.Plan.Success

namespace QueryGraph

/-!
# What a plan counts

* `Plan.Writable`: the numbers in a plan are words, and no node stands twice in one of its maps.
* `FitsWords`: no list in the settings or in a snapshot is longer than a word counts.
* `writable_compile`: then the plan is writable, for all that it counts are parts of such lists.
-/

/-! ### The numbers in a plan -/

/-- All of the numbers are words. -/
def AreWords (counts : List Nat) : Prop := ∀ n ∈ counts, n < UInt64.size

/-- The numbers among the facts about a fragment. -/
def Metadata.counts : Metadata → List Nat
  | .event _ fields _ => [fields]
  | .unionAll inputs => [inputs]
  | .join _ conditions => [conditions]
  | .filter conditions => [conditions]
  | .aggregate _ aggregates => [aggregates]
  | .output _ _ => []

/-- The number in a rule for inputs. -/
def Arity.count : Arity → Nat
  | .exactly n => n
  | .atLeast n => n

/-- The numbers in the failure of a node. -/
def NodeFailure.counts : NodeFailure → List Nat
  | .arity _ _ expected found => [expected.count, found]
  | .missingConfig _ _ _ => []
  | .skipped _ _ => []

/-- The numbers in the failure of a graph. -/
def GraphFailure.counts : GraphFailure → List Nat
  | .cycles _ => []
  | .unschedulable scheduled total => [scheduled, total]

/-- The numbers in the statistics. -/
def Statistics.counts (s : Statistics) : List Nat :=
  [s.totalNodes, s.scheduledNodes, s.compiledNodes, s.failedNodes, s.skippedNodes, s.sourceNodes,
    s.sinkNodes, s.inertEdges]

/-- A plan whose numbers are words and whose maps have each node once. -/
structure Plan.Writable (p : Plan) : Prop where
  outputs_nodup : (p.outputs.map Prod.fst).Nodup
  programs_nodup : (p.programs.map Prod.fst).Nodup
  errors_nodup : (p.errors.map Prod.fst).Nodup
  outputs : ∀ e ∈ p.outputs, AreWords e.2.metadata.counts
  errors : ∀ e ∈ p.errors, AreWords e.2.counts
  fatal : ∀ e ∈ p.fatal, AreWords e.counts
  statistics : AreWords p.statistics.counts

/-! ### The lists that are counted -/

/-- How many fields, conditions or aggregations a configuration has. -/
def Content.itemCount : Content → Nat
  | .event config => config.fields.length
  | .unionAll => 0
  | .join config => config.conditions.length
  | .filter config => config.conditions.length
  | .aggregate config => config.aggregations.length
  | .output _ => 0

/-- No list is longer than a word counts, as is so of all lists in the memory of a machine. -/
structure FitsWords (settings : Settings) (nodes : List Node) (edges : List Edge) : Prop where
  nodes_lt : nodes.length < UInt64.size
  edges_lt : edges.length < UInt64.size
  columns_lt : settings.fallbackColumns.length < UInt64.size
  items_lt : ∀ n ∈ nodes, n.content.itemCount < UInt64.size

variable {settings : Settings} {context : Context} {nodes : List Node} {edges : List Edge}

/-! ### One node -/

/-- The numbers in the metadata of a fragment fit a word if those of the settings and the node
    do. -/
theorem areWords_metadata {content : Content} {inputs : List Input} {f : Fragment}
    (h : content.Yields settings context inputs f) (hinputs : inputs.length < UInt64.size)
    (hcolumns : settings.fallbackColumns.length < UInt64.size)
    (hitems : content.itemCount < UInt64.size) : AreWords f.metadata.counts := by
  cases h with
  | @event config =>
    refine List.forall_mem_singleton.mpr ?_
    rw [Event.items]
    split
    · exact hcolumns
    · rw [List.length_map]
      exact hitems
  | unionAll => exact List.forall_mem_singleton.mpr hinputs
  | join | filter | aggregate => exact List.forall_mem_singleton.mpr hitems
  | output => exact List.forall_mem_nil _

theorem Kind.arity_count_lt (k : Kind) : k.arity.count < UInt64.size := by
  cases k <;> decide

/-- There are no more inputs than edges. -/
theorem Outcomes.length_inputs_le (o : Outcomes) (into : List Edge) :
    (o.inputs into).length ≤ into.length := by
  rw [inputs]
  split
  · exact List.length_filterMap_le _ _
  · exact Nat.zero_le _

theorem length_liveInto_le (nodes : List Node) (edges : List Edge) (id : NodeId) :
    (liveInto nodes edges id).length ≤ edges.length :=
  (List.length_filter_le _ _).trans (List.length_filter_le _ _)

section Due

variable {o : Outcomes} {n : Node} {into : List Edge} (hinto : into.length < UInt64.size)

include hinto

/-- The numbers in a fragment that is due to a node fit a word. -/
theorem areWords_of_due_ok {f : Fragment} (h : o.due settings context n into = .ok f)
    (hcolumns : settings.fallbackColumns.length < UInt64.size)
    (hitems : n.content.itemCount < UInt64.size) : AreWords f.metadata.counts :=
  areWords_metadata (Node.yields_of_compile (Outcomes.compile_of_due h).2)
    ((o.length_inputs_le into).trans_lt hinto) hcolumns hitems

/-- The numbers in a failure that is due to a node fit a word. -/
theorem areWords_of_due_error {e : NodeFailure} (h : o.due settings context n into = .error e) :
    AreWords e.counts := by
  have harity : ∀ found < UInt64.size,
      AreWords (NodeFailure.arity n.id n.kind n.kind.arity found).counts := fun found hfound =>
    List.forall_mem_cons.mpr ⟨n.kind.arity_count_lt, List.forall_mem_singleton.mpr hfound⟩
  -- The node is skipped, or it fails when it is compiled, or it has too many or too few edges.
  unfold Outcomes.due at h
  split at h
  · obtain rfl := Except.error.inj h
    exact List.forall_mem_nil _
  · split at h
    · rcases Node.eq_of_compile_error h with rfl | ⟨field, -, rfl⟩
      · exact harity _ ((o.length_inputs_le into).trans_lt hinto)
      · exact List.forall_mem_nil _
    · obtain rfl := Except.error.inj h
      exact harity _ hinto

end Due

/-! ### Whole plans -/

theorem length_inOrder_le {α : Type} (order : List NodeId) (f : NodeId → Option α) :
    (inOrder order f).length ≤ order.length :=
  List.length_filterMap_le _ _

/-- In an order without repetitions nothing is listed twice. -/
theorem nodup_inOrder {α : Type} {order : List NodeId} (h : order.Nodup)
    (f : NodeId → Option α) : ((inOrder order f).map Prod.fst).Nodup := by
  rw [map_fst_inOrder]
  exact h.filter _

/-- The order of a plan has every node at most once. -/
theorem order_compile (settings : Settings) (context : Context) (nodes : List Node)
    (edges : List Edge) :
    let p := compile settings nodes edges context
    p.order.Nodup ∧ p.order.length ≤ nodes.length := by
  by_cases h : Acyclic nodes edges
  · obtain ⟨order, horder, hcompile⟩ := compile_of_acyclic settings context h
    rw [hcompile]
    have hsub : order ⊆ nodes.map Node.id := fun id hid => horder.mem_iff.mp hid
    refine ⟨horder.nodup, ?_⟩
    have hlength := (horder.nodup.subperm hsub).length_le
    rwa [List.length_map] at hlength
  · rw [compile_of_not_acyclic settings context h]
    exact ⟨List.nodup_nil, Nat.zero_le _⟩

/-- A graph has no more nodes than its snapshot has entries. -/
theorem size_build_le (nodes : List Node) (edges : List Edge) :
    (Graph.build nodes edges).size ≤ nodes.length := by
  have hsub : (Graph.build nodes edges).ids ⊆ nodes.map Node.id :=
    fun id hid => Graph.mem_build_ids.mp hid
  have hnodup : (Graph.build nodes edges).ids.Nodup := by
    rw [Graph.build_ids]
    exact Graph.nodup_eraseDups _
  have hlength := (hnodup.subperm hsub).length_le
  rwa [List.length_map, Graph.length_ids] at hlength
/-- What a plan counts are nodes and edges, the nodes of its order, and its own entries. -/
theorem statistics_compile (settings : Settings) (context : Context) (nodes : List Node)
    (edges : List Edge) :
    let p := compile settings nodes edges context
    p.statistics =
      { structuralStatistics nodes (Graph.build nodes edges) with
        scheduledNodes := p.order.length
        compiledNodes := p.outputs.length
        failedNodes := p.errors.length
        skippedNodes := p.errors.countP fun e => e.2.isSkipped } := by
  -- An abandoned plan has counted nothing behind the graph.
  by_cases h : Acyclic nodes edges
  · obtain ⟨order, -, hcompile⟩ := compile_of_acyclic settings context h
    rw [hcompile]
    rfl
  · rw [compile_of_not_acyclic settings context h]
    rfl

/-- The numbers in the statistics of a plan fit a word. -/
theorem areWords_statistics (h : FitsWords settings nodes edges) (context : Context) :
    AreWords (compile settings nodes edges context).statistics.counts := by
  obtain ⟨houtputs, herrors⟩ := compile_records settings context nodes edges
  obtain ⟨-, horder⟩ := order_compile settings context nodes edges
  -- Whatever is counted is part of the nodes or of the edges.
  have hscheduled := horder.trans_lt h.nodes_lt
  have hcompiled : (compile settings nodes edges context).outputs.length < UInt64.size := by
    rw [houtputs]
    exact (length_inOrder_le _ _).trans_lt hscheduled
  have hfailed : (compile settings nodes edges context).errors.length < UInt64.size := by
    rw [herrors]
    exact (length_inOrder_le _ _).trans_lt hscheduled
  have hsize := (size_build_le nodes edges).trans_lt h.nodes_lt
  have hkinds : ∀ q : Kind → Bool, (((Graph.build nodes edges).ids.filterMap
      (Node.find? nodes)).map Node.kind).countP q < UInt64.size := by
    intro q
    refine (List.countP_le_length.trans ?_).trans_lt hsize
    rw [List.length_map, ← Graph.length_ids]
    exact List.length_filterMap_le _ _
  have hinert : (Graph.build nodes edges).inertEdges < UInt64.size := by
    have hbuild := Graph.build_inertEdges nodes edges
    have hedges := h.edges_lt
    omega
  rw [statistics_compile]
  simp only [AreWords, Statistics.counts, List.forall_mem_cons, structuralStatistics]
  exact ⟨hsize, hscheduled, hcompiled, hfailed, List.countP_le_length.trans_lt hfailed, hkinds _,
    hkinds _, hinert, List.forall_mem_nil _⟩

/-- **A plan is writable** if the lists that it was made from can be counted. -/
theorem writable_compile (h : FitsWords settings nodes edges) (context : Context) :
    (compile settings nodes edges context).Writable := by
  have hstatistics := areWords_statistics h context
  by_cases hacyclic : Acyclic nodes edges
  · obtain ⟨houtputs, herrors⟩ := compile_records settings context nodes edges
    have hprograms := (compile_texts settings context nodes edges).1
    have horder := (order_compile settings context nodes edges).1
    have hsolves := solves_compile settings context hacyclic
    have hinto : ∀ id, (liveInto nodes edges id).length < UInt64.size := fun id =>
      (length_liveInto_le nodes edges id).trans_lt h.edges_lt
    refine ⟨?_, ?_, ?_, fun entry hentry => ?_, fun entry hentry => ?_, ?_, hstatistics⟩
    · rw [houtputs]
      exact nodup_inOrder horder _
    · rw [hprograms]
      exact nodup_inOrder (horder.filter _) _
    · rw [herrors]
      exact nodup_inOrder horder _
    · rw [houtputs] at hentry
      obtain ⟨n, hn, hdue⟩ := hsolves.due_of_output (mem_inOrder hentry)
      have hitems := h.items_lt n (List.mem_of_find?_eq_some hn)
      exact areWords_of_due_ok (hinto _) hdue h.columns_lt hitems
    · rw [herrors] at hentry
      obtain ⟨n, -, hdue⟩ := hsolves.due_of_error (mem_inOrder hentry)
      exact areWords_of_due_error (hinto _) hdue
    · obtain ⟨order, -, hcompile⟩ := compile_of_acyclic settings context hacyclic
      rw [hcompile]
      exact fun _ hnone => absurd hnone (by simp [finish])
  · -- An abandoned plan has nothing in it but cycles and counts.
    rw [compile_of_not_acyclic settings context hacyclic] at hstatistics ⊢
    refine ⟨List.nodup_nil, List.nodup_nil, List.nodup_nil, List.forall_mem_nil _,
      List.forall_mem_nil _, fun e he => ?_, hstatistics⟩
    obtain rfl := Option.some.inj he
    exact List.forall_mem_nil _

end QueryGraph
