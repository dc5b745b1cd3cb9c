import QueryGraph.Proofs.Graph.Cycle

namespace QueryGraph

open scoped List

/-!
# Reported cycles meet every cycle

The search does not report every cycle of a graph, but none escapes it entirely.

* `IsSimpleCycle`, `component`: the cycles of a snapshot without repetition, and its strongly
  connected components.
* `Graph.exists_reported_of_chain`: some step of every cycle is a step of a reported one.
* `exists_mem_cycles_of_feeds`: a component that holds an edge holds a reported cycle.
* `acyclic_without_cycles`: without the members of the reported cycles there is no cycle.
-/

instance (nodes : List Node) (edges : List Edge) : DecidableRel (Feeds nodes edges) :=
  fun _ _ => inferInstanceAs (Decidable (∃ _ ∈ _, _))

/-- Different nodes, each of which feeds the next one and the last of which feeds the first. -/
def IsSimpleCycle (nodes : List Node) (edges : List Edge) (c : List NodeId) : Prop :=
  c ≠ [] ∧ c.Nodup ∧ (Search.close c).IsChain (Feeds nodes edges)

instance (nodes : List Node) (edges : List Edge) (c : List NodeId) :
    Decidable (IsSimpleCycle nodes edges c) :=
  inferInstanceAs (Decidable (_ ∧ _ ∧ _))

/-- The strongly connected component of a node: what it leads to and is reached from. -/
def component (nodes : List Node) (edges : List Edge) (id : NodeId) : Set NodeId :=
  {v | Relation.ReflTransGen (Feeds nodes edges) id v ∧
    Relation.ReflTransGen (Feeds nodes edges) v id}

namespace Graph

variable {g : Graph}

/-- Some step of every cycle of dependencies is a step of a reported cycle, for the open
    dependencies are well-founded. -/
theorem exists_reported_of_chain (hg : g.WellFormed) {c : List NodeId} (hne : c ≠ [])
    (hc : (Search.close c).IsChain g.IsDependency) :
    ∃ u v, [u, v] <:+: Search.close c ∧ Search.Reported g.cycles u v := by
  by_contra! hnone
  have hopen : (Search.close c).IsChain (Search.Open g g.cycles) := by
    rw [List.isChain_iff_forall_rel_of_append_cons_cons] at hc ⊢
    intro u v l₁ l₂ hsplit
    refine ⟨hc hsplit, hnone u v ?_⟩
    rw [hsplit]
    exact ⟨l₁, l₂, by simp⟩
  -- The members of the cycle would depend on each other without end.
  obtain ⟨first, rest, rfl⟩ := List.exists_cons_of_ne_nil hne
  rw [Search.close_eq, ← Cycle.chain_coe_cons] at hopen
  have : IsWellFounded NodeId (Search.Open g g.cycles) := ⟨wellFounded_open hg⟩
  exact List.cons_ne_nil first rest ((Cycle.coe_eq_nil _).mp hopen.eq_nil_of_well_founded)

end Graph

variable {nodes : List Node} {edges : List Edge}

/-! ### Components -/

theorem component_trans {u v w : NodeId} (hv : v ∈ component nodes edges u)
    (hw : w ∈ component nodes edges v) : w ∈ component nodes edges u :=
  ⟨hv.1.trans hw.1, hw.2.trans hv.2⟩

/-- A walk between two members of a component does not leave it. -/
theorem walk_within_component {id u v : NodeId} (h : Relation.ReflTransGen (Feeds nodes edges) u v)
    (hu : u ∈ component nodes edges id) (hv : v ∈ component nodes edges id) :
    Relation.ReflTransGen
      (fun a b => Feeds nodes edges a b ∧ a ∈ component nodes edges id ∧
        b ∈ component nodes edges id) u v := by
  induction h using Relation.ReflTransGen.head_induction_on with
  | refl => exact .refl
  | head hab hbv ih =>
    have hb := component_trans hu ⟨.single hab, hbv.trans (hv.2.trans hu.1)⟩
    exact .head ⟨hab, hu, hb⟩ (ih hb)

/-- All members of a reported cycle are in one component. -/
theorem mem_component_of_mem_cycles {c : List NodeId} {u v : NodeId}
    (hc : c ∈ (Graph.build nodes edges).cycles) (hu : u ∈ c) (hv : v ∈ c) :
    v ∈ component nodes edges u := by
  have hg := Graph.build_wellFormed nodes edges
  rw [component, ← isDependency_build]
  exact ⟨(Graph.transGen_of_mem_cycles hg hc hu hv).to_reflTransGen,
    (Graph.transGen_of_mem_cycles hg hc hv hu).to_reflTransGen⟩

/-- A component that holds an edge holds a reported cycle: not all of its edges are open, for
    the edge belongs to a closed walk within the component. -/
theorem exists_mem_cycles_of_feeds {id u v : NodeId} (hu : u ∈ component nodes edges id)
    (hv : v ∈ component nodes edges id) (huv : Feeds nodes edges u v) :
    ∃ c ∈ (Graph.build nodes edges).cycles, ∀ w ∈ c, w ∈ component nodes edges id := by
  by_contra! hnone
  have hopen : ∀ a b, Feeds nodes edges a b ∧ a ∈ component nodes edges id ∧
      b ∈ component nodes edges id →
      Search.Open (Graph.build nodes edges) (Graph.build nodes edges).cycles a b := by
    rintro a b ⟨hab, ha, -⟩
    refine ⟨Graph.mem_build_dependencies.mpr hab, ?_⟩
    rintro ⟨c, hc, hstep⟩
    obtain ⟨w, hw, hout⟩ := hnone c hc
    exact hout (component_trans ha (mem_component_of_mem_cycles hc (hstep.subset (by simp)) hw))
  have hwalk := walk_within_component (hv.2.trans hu.1) hv hu
  have hclosed := Relation.TransGen.head' (hopen u v ⟨huv, hu, hv⟩)
    (Relation.ReflTransGen.mono hopen _ _ hwalk)
  have hwf := (Graph.wellFounded_open (Graph.build_wellFormed nodes edges)).transGen
  exact hwf.asymmetric u u hclosed hclosed

/-! ### What is left without reported cycles -/

theorem feeds_filter {keep : Node → Bool} {u v : NodeId}
    (h : Feeds (nodes.filter keep) edges u v) :
    Feeds nodes edges u v ∧ u ∈ (nodes.filter keep).map Node.id := by
  obtain ⟨e, he, rfl, rfl⟩ := h
  simp only [liveEdges, List.mem_filter, decide_eq_true_eq] at he
  have hsub : (nodes.filter keep).map Node.id ⊆ nodes.map Node.id :=
    (List.filter_sublist.map _).subset
  refine ⟨⟨e, ?_, rfl, rfl⟩, he.2.1⟩
  simp only [liveEdges, List.mem_filter, decide_eq_true_eq]
  exact ⟨he.1, hsub he.2.1, hsub he.2.2⟩

/-- Without the members of the reported cycles only open dependencies are left. -/
theorem acyclic_without_cycles (nodes : List Node) (edges : List Edge) :
    Acyclic (nodes.filter fun n => ∀ c ∈ (Graph.build nodes edges).cycles, n.id ∉ c) edges := by
  rw [← wellFounded_feeds_iff]
  refine Subrelation.wf (fun {u v} huv => ?_)
    (Graph.wellFounded_open (Graph.build_wellFormed nodes edges))
  obtain ⟨hfeeds, hmem⟩ := feeds_filter huv
  refine ⟨Graph.mem_build_dependencies.mpr hfeeds, ?_⟩
  rintro ⟨c, hc, hstep⟩
  obtain ⟨n, hn, rfl⟩ := List.mem_map.mp hmem
  have hout := of_decide_eq_true (List.mem_filter.mp hn).2
  exact hout c hc (hstep.subset (by simp))

/-- **Reported cycles meet every cycle.**  Some edge of every cycle without repetition is an
    edge of a reported cycle.  So every strongly connected component that holds an edge holds a
    reported cycle, and to remove the members of all reported cycles removes all cycles. -/
theorem cycles_meet_every_cycle (nodes : List Node) (edges : List Edge) :
    let found := (Graph.build nodes edges).cycles
    (∀ c, IsSimpleCycle nodes edges c →
        ∃ u v, [u, v] <:+: Search.close c ∧ ∃ r ∈ found, [u, v] <:+: r) ∧
      (∀ id, (∃ u ∈ component nodes edges id, ∃ v ∈ component nodes edges id,
          Feeds nodes edges u v) →
        ∃ r ∈ found, r ≠ [] ∧ ∀ v ∈ r, v ∈ component nodes edges id) ∧
      Acyclic (nodes.filter fun n => ∀ r ∈ found, n.id ∉ r) edges := by
  intro found
  have hg := Graph.build_wellFormed nodes edges
  refine ⟨?_, ?_, acyclic_without_cycles nodes edges⟩
  · rintro c ⟨hne, -, hchain⟩
    rw [← isDependency_build] at hchain
    exact Graph.exists_reported_of_chain hg hne hchain
  · rintro id ⟨u, hu, v, hv, huv⟩
    obtain ⟨r, hr, hmem⟩ := exists_mem_cycles_of_feeds hu hv huv
    exact ⟨r, hr, Graph.ne_nil_of_mem_cycles hg hr, hmem⟩

/-- Three nodes, each of which feeds both of the others. -/
def triangle : List Node × List Edge :=
  ([⟨⟨"a"⟩, .unionAll⟩, ⟨⟨"b"⟩, .unionAll⟩, ⟨⟨"c"⟩, .unionAll⟩],
    [⟨none, ⟨"a"⟩, ⟨"b"⟩, none, none⟩, ⟨none, ⟨"b"⟩, ⟨"c"⟩, none, none⟩,
      ⟨none, ⟨"c"⟩, ⟨"a"⟩, none, none⟩, ⟨none, ⟨"b"⟩, ⟨"a"⟩, none, none⟩,
      ⟨none, ⟨"c"⟩, ⟨"b"⟩, none, none⟩, ⟨none, ⟨"a"⟩, ⟨"c"⟩, none, none⟩])

/-- A cycle of the triangle that is not reported still meets one that is. -/
theorem cycles_meet_every_cycle_triangle :
    let c : List NodeId := [⟨"a"⟩, ⟨"c"⟩, ⟨"b"⟩]
    let found := (Graph.build triangle.1 triangle.2).cycles
    IsSimpleCycle triangle.1 triangle.2 c ∧ Search.close c ∉ found ∧
      ∃ u v, [u, v] <:+: Search.close c ∧ ∃ r ∈ found, [u, v] <:+: r := by
  intro c found
  have hc : IsSimpleCycle triangle.1 triangle.2 c := by decide
  exact ⟨hc, by decide, (cycles_meet_every_cycle triangle.1 triangle.2).1 c hc⟩

end QueryGraph
