import QueryGraph.Proofs.Plan.Size

namespace QueryGraph

/-!
# A plan accounts for every node and every edge

* `Outcomes.kind_of_due`, `Outcomes.node_of_due`: a fragment is of the kind of its node, and a
  failure names its node.
* `Graph.sum_length_dependencies`: the dependencies of all nodes are as many as the live edges.
* `Plan.AccountsFor`: a plan in which every node of a snapshot has either a fragment or a failure.
* `every_node_accounted_for`: a plan that is not abandoned accounts for the nodes of its
  snapshot, an abandoned one has no outcomes at all, and the numbers of every plan add up.
-/

/-! ### Whose outcome it is -/

namespace Outcomes

variable {settings : Settings} {context : Context} {o : Outcomes} {n : Node} {into : List Edge}

/-- A fragment that is due to a node is of the kind of the node, and says so in its metadata. -/
theorem kind_of_due {f : Fragment} (h : o.due settings context n into = .ok f) :
    f.kind = n.kind ∧ f.metadata.kind = n.kind :=
  (Node.yields_of_compile (compile_of_due h).2).kind_eq

/-- A failure that is due to a node names it. -/
theorem node_of_due {e : NodeFailure} (h : o.due settings context n into = .error e) :
    e.node = n.id := by
  -- The node is skipped, or it fails when it is compiled, or it has too many or too few edges.
  unfold due at h
  split at h
  · obtain rfl := Except.error.inj h
    rfl
  · split at h
    · obtain rfl | ⟨field, -, rfl⟩ := Node.eq_of_compile_error h
      · rfl
      · rfl
    · obtain rfl := Except.error.inj h
      rfl

end Outcomes

/-! ### Edges -/

section Groups

variable {α β : Type} [DecidableEq β]

/-- Groups by distinct keys, all that occur among them, are together as large as the list. -/
theorem sum_length_groups (f : α → β) {keys : List β} (hkeys : keys.Nodup) {l : List α}
    (h : ∀ a ∈ l, f a ∈ keys) :
    (keys.map fun k => (l.filter fun a => f a = k).length).sum = l.length := by
  induction l with
  | nil => simp
  | cons a rest ih =>
    obtain ⟨ha, hrest⟩ := List.forall_mem_cons.mp h
    -- The first item counts in the group of its own key, and that key stands there once.
    have hsingle : (keys.map fun k => if f a = k then 1 else 0).sum = 1 := by
      rw [List.sum_map_eq_nsmul_single (f a) _ fun k hk _ => if_neg hk.symm, if_pos rfl,
        List.count_eq_one_of_mem hkeys ha]
      rfl
    have hsplit : ∀ k, ((a :: rest).filter fun a => f a = k).length
        = (if f a = k then 1 else 0) + (rest.filter fun a => f a = k).length := by
      intro k
      rw [List.filter_cons]
      by_cases hk : f a = k
      · simp only [hk, decide_true, if_true, List.length_cons]
        omega
      · simp only [hk, decide_false, Bool.false_eq_true, if_false]
        omega
    simp only [hsplit, List.sum_map_add, hsingle, ih hrest, List.length_cons]
    omega

end Groups

/-- Every live edge is a dependency of one node, and of that node once. -/
theorem Graph.sum_length_dependencies (nodes : List Node) (edges : List Edge) :
    ((build nodes edges).ids.map fun id => ((build nodes edges).dependencies id).length).sum
      = (liveEdges nodes edges).length := by
  have hlength : ∀ id, ((build nodes edges).dependencies id).length
      = ((liveEdges nodes edges).filter fun e => e.target = id).length := by
    intro id
    rw [build_dependencies, List.length_map]
    rfl
  simp only [hlength]
  -- Live edges end at nodes of the snapshot, and those are the keys.
  refine sum_length_groups Edge.target (build_wellFormed nodes edges).nodup fun e he => ?_
  rw [mem_build_ids]
  exact (mem_liveEdges.mp he).2.2

/-! ### Nodes -/

/-- The plan has an outcome for every node: its order lists each id once; the nodes with a
    fragment and those with a failure make up the order between them and stand in it as they do
    in the lists; fragments are of the kind of their nodes, and failures name theirs. -/
structure Plan.AccountsFor (nodes : List Node) (p : Plan) : Prop where
  order_nodup : p.order.Nodup
  mem_order : ∀ id, id ∈ p.order ↔ id ∈ nodes.map Node.id
  outputs_sublist : (p.outputs.map Prod.fst).Sublist p.order
  errors_sublist : (p.errors.map Prod.fst).Sublist p.order
  disjoint : List.Disjoint (p.outputs.map Prod.fst) (p.errors.map Prod.fst)
  keys_perm : (p.outputs.map Prod.fst ++ p.errors.map Prod.fst).Perm p.order
  output_kind : ∀ entry ∈ p.outputs, ∃ n, Node.find? nodes entry.1 = some n ∧
    entry.2.kind = n.kind ∧ entry.2.metadata.kind = n.kind
  error_node : ∀ entry ∈ p.errors, entry.2.node = entry.1

variable {settings : Settings} {context : Context} {nodes : List Node} {edges : List Edge}

/-- In a solution, a node of the snapshot has either a fragment or a failure. -/
theorem Solves.isSome_error?_eq {o : Outcomes} (h : Solves settings context nodes edges o)
    {id : NodeId} (hid : id ∈ nodes.map Node.id) :
    (o.error? id).isSome = !(o.output? id).isSome := by
  obtain ⟨n, hn⟩ := Node.exists_find?_of_mem hid
  have hhas := h.has id n hn
  -- What is due to the node decides which of the two it has.
  revert hhas
  cases o.due settings context n (liveInto nodes edges id) with
  | ok f =>
    rintro ⟨hout, herr⟩
    rw [hout, herr]
    rfl
  | error e =>
    rintro ⟨hout, herr⟩
    rw [hout, herr]
    rfl

/-- The plan of an acyclic snapshot accounts for its nodes. -/
theorem accountsFor_compile (settings : Settings) (context : Context) (h : Acyclic nodes edges) :
    (compile settings nodes edges context).AccountsFor nodes := by
  obtain ⟨order, horder, hcompile⟩ := compile_of_acyclic settings context h
  have hsolves := solves_compile settings context h
  obtain ⟨houtputs, herrors⟩ := compile_records settings context nodes edges
  have hplan : (compile settings nodes edges context).order = order := by
    rw [hcompile]
    rfl
  set p := compile settings nodes edges context
  -- Both lists go through the order and keep the nodes that have what they list.
  have hkeys : p.outputs.map Prod.fst = order.filter fun id => (p.output? id).isSome := by
    rw [houtputs, map_fst_inOrder, hplan]
  have hkeys' : p.errors.map Prod.fst = order.filter fun id => !(p.output? id).isSome := by
    rw [herrors, map_fst_inOrder, hplan]
    exact List.filter_congr fun id hid => hsolves.isSome_error?_eq (horder.mem_iff.mp hid)
  refine ⟨?_, fun id => ?_, ?_, ?_, ?_, ?_, fun entry hentry => ?_, fun entry hentry => ?_⟩
  · rw [hplan]
    exact horder.nodup
  · rw [hplan]
    exact horder.mem_iff
  · rw [hkeys, hplan]
    exact List.filter_sublist
  · rw [hkeys', hplan]
    exact List.filter_sublist
  · rw [hkeys, hkeys']
    intro id hid hid'
    have hsome := (List.mem_filter.mp hid).2
    have hnone := (List.mem_filter.mp hid').2
    simp [hsome] at hnone
  · rw [hkeys, hkeys', hplan]
    exact List.filter_append_perm _ order
  · rw [houtputs] at hentry
    obtain ⟨n, hn, hdue⟩ := hsolves.due_of_output (mem_inOrder hentry)
    exact ⟨n, hn, Outcomes.kind_of_due hdue⟩
  · rw [herrors] at hentry
    obtain ⟨n, hn, hdue⟩ := hsolves.due_of_error (mem_inOrder hentry)
    have hid : n.id = entry.1 := by simpa using List.find?_some hn
    rw [Outcomes.node_of_due hdue, hid]

/-- What a plan that accounts for its nodes lists is as much as there are nodes. -/
theorem Plan.AccountsFor.length_eq {p : Plan} (h : p.AccountsFor nodes) :
    p.outputs.length + p.errors.length = p.order.length ∧
      p.order.length = (nodes.map Node.id).eraseDups.length := by
  have hkeys := h.keys_perm.length_eq
  -- The order lists the distinct ids, each of them once.
  have horder : p.order.Perm (nodes.map Node.id).eraseDups := by
    rw [List.perm_ext_iff_of_nodup h.order_nodup (Graph.nodup_eraseDups _)]
    intro id
    rw [h.mem_order, List.mem_eraseDups]
  rw [List.length_append, List.length_map, List.length_map] at hkeys
  exact ⟨hkeys, horder.length_eq⟩

/-! ### Numbers -/

/-- An acyclic snapshot is not abandoned, and its plan is a success if no node failed. -/
theorem flags_of_acyclic (settings : Settings) (context : Context) (h : Acyclic nodes edges) :
    let p := compile settings nodes edges context
    p.isFatal = false ∧ p.success = p.errors.isEmpty := by
  intro p
  obtain ⟨order, -, hp : p = _⟩ := compile_of_acyclic settings context h
  rw [hp]
  exact ⟨rfl, rfl⟩

/-- An abandoned plan has the numbers of the graph only. -/
theorem flags_of_not_acyclic (settings : Settings) (context : Context)
    (h : ¬ Acyclic nodes edges) :
    let p := compile settings nodes edges context
    p.isFatal = true ∧ p.success = false ∧
      p.statistics = structuralStatistics nodes (Graph.build nodes edges) := by
  intro p
  have hp : p = _ := compile_of_not_acyclic settings context h
  rw [hp]
  exact ⟨rfl, rfl, rfl⟩

/-- **Every node is accounted for.**  A plan that is not abandoned has either a fragment or a
    failure for every node, each in the order of the plan; it counts both, the skipped nodes
    among the failed ones, and as many nodes as there are distinct ids.  An abandoned plan has
    counted nothing that comes after the graph.  In every plan the inert edges and the
    dependencies are all edges, and success means that the plan was not abandoned and no node
    failed. -/
theorem every_node_accounted_for (settings : Settings) (context : Context) (nodes : List Node)
    (edges : List Edge) :
    let p := compile settings nodes edges context
    let counts := p.statistics
    let g := Graph.build nodes edges
    (p.isFatal = false →
        p.AccountsFor nodes ∧
          counts.compiledNodes = p.outputs.length ∧ counts.failedNodes = p.errors.length ∧
          counts.compiledNodes + counts.failedNodes = counts.scheduledNodes ∧
          counts.scheduledNodes = counts.totalNodes ∧
          counts.totalNodes = (nodes.map Node.id).eraseDups.length ∧
          counts.skippedNodes = p.errors.countP fun entry => entry.2.isSkipped) ∧
      (p.isFatal = true →
        counts.scheduledNodes = 0 ∧ counts.compiledNodes = 0 ∧ counts.failedNodes = 0 ∧
          counts.skippedNodes = 0 ∧ p.success = false) ∧
      counts.inertEdges + (g.ids.map fun id => (g.dependencies id).length).sum = edges.length ∧
      (p.success = true ↔ p.isFatal = false ∧ counts.failedNodes = 0) := by
  intro p counts g
  have hcounts : counts = _ := statistics_compile settings context nodes edges
  have hedges : counts.inertEdges + (g.ids.map fun id => (g.dependencies id).length).sum
      = edges.length := by
    rw [hcounts, Graph.sum_length_dependencies]
    exact Graph.build_inertEdges nodes edges
  -- A cycle is the only reason for a plan to be abandoned.
  by_cases hacyclic : Acyclic nodes edges
  · obtain ⟨hfatal, hsuccess⟩ := flags_of_acyclic settings context hacyclic
    have haccounts : p.AccountsFor nodes := accountsFor_compile settings context hacyclic
    obtain ⟨hkeys, horder⟩ := haccounts.length_eq
    have htotal : counts.totalNodes = (nodes.map Node.id).eraseDups.length := by
      rw [hcounts, ← Graph.build_ids nodes edges, Graph.length_ids]
      rfl
    have hscheduled : counts.scheduledNodes = p.order.length := by rw [hcounts]
    have hcompiled : counts.compiledNodes = p.outputs.length := by rw [hcounts]
    have hfailed : counts.failedNodes = p.errors.length := by rw [hcounts]
    refine ⟨fun _ => ⟨haccounts, hcompiled, hfailed, by omega, by omega, htotal, by rw [hcounts]⟩,
      fun htrue => absurd (hfatal.symm.trans htrue) (by decide), hedges, ?_⟩
    rw [hsuccess, hfailed, List.isEmpty_iff_length_eq_zero]
    exact ⟨fun hzero => ⟨hfatal, hzero⟩, And.right⟩
  · obtain ⟨hfatal, hsuccess, hzero⟩ := flags_of_not_acyclic settings context hacyclic
    refine ⟨fun hfalse => absurd (hfatal.symm.trans hfalse) (by decide), fun _ => ?_, hedges, ?_⟩
    · rw [show counts = _ from hzero]
      exact ⟨rfl, rfl, rfl, rfl, hsuccess⟩
    · rw [hsuccess, hfatal]
      simp

end QueryGraph
