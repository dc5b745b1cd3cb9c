import QueryGraph.Proofs.Graph.Shape
import QueryGraph.Proofs.Node.Complete
import QueryGraph.Proofs.Plan.Reference

namespace QueryGraph

/-!
# What a plan does not look at

* `firstEntries`: a node list without the entries whose id occurred before.
* `Edge.normal`, `normalEdges`: the live edges without names and source handles, and with those
  target handles only that a join looks at.
* `Node.compile_normal`: handles that are not looked at do not change a fragment.
* `sameShape_normal`: a snapshot and its normal form have graphs of the same shape.
* `normal_form_compiles_alike`: they have the same plan, but for the number of inert edges.
-/

/-! ### The normal form of a snapshot -/

/-- The entries of a node list whose id is not among some that were seen before, and did not
    occur earlier in the list. -/
def firstEntriesAfter (seen : List NodeId) : List Node → List Node
  | [] => []
  | n :: rest =>
    if n.id ∈ seen then firstEntriesAfter seen rest
    else n :: firstEntriesAfter (n.id :: seen) rest

/-- The first entry of each id. -/
def firstEntries (nodes : List Node) : List Node := firstEntriesAfter [] nodes

/-- A join looks at the handles of its two inputs, and nothing looks at any other. -/
def Kind.looksAt (k : Kind) (handle : String) : Bool :=
  k = .join && (handle = leftHandle || handle = rightHandle)

/-- An edge without what is not looked at: its name, the handle at its source, and the handle at
    its target unless that is one a join looks at. -/
def Edge.normal (nodes : List Node) (e : Edge) : Edge where
  id := none
  source := e.source
  target := e.target
  sourceHandle := none
  targetHandle := e.targetHandle.filter fun handle =>
    (Node.find? nodes e.target).any fun n => n.kind.looksAt handle

/-- The live edges, each without what is not looked at. -/
def normalEdges (nodes : List Node) (edges : List Edge) : List Edge :=
  (liveEdges nodes edges).map (Edge.normal nodes)

/-- An input without a handle that its node does not look at. -/
def Input.normal (k : Kind) (i : Input) : Input := { i with handle := i.handle.filter k.looksAt }

variable {settings : Settings} {context : Context} {nodes : List Node} {edges : List Edge}

/-! ### Nodes -/

/-- The graph gets the same nodes if those that it has are not added again. -/
theorem foldl_addNode_firstEntriesAfter (nodes : List Node) (seen : List NodeId) (g : Graph)
    (hseen : ∀ id, id ∈ seen ↔ id ∈ g.ids) :
    ((firstEntriesAfter seen nodes).map Node.id).foldl Graph.addNode g
      = (nodes.map Node.id).foldl Graph.addNode g := by
  induction nodes generalizing seen g with
  | nil => rfl
  | cons n rest ih =>
    unfold firstEntriesAfter
    -- An id that was seen is in the graph already, and adding it again changes nothing.
    by_cases hn : n.id ∈ seen
    · have hadd : g.addNode n.id = g := by
        unfold Graph.addNode
        rw [if_pos ((g.contains_iff n.id).mpr ((hseen n.id).mp hn))]
      rw [if_pos hn, ih seen g hseen, List.map_cons, List.foldl_cons, hadd]
    · have hids : (g.addNode n.id).ids = g.ids ++ [n.id] := by
        rw [Graph.ids_addNode, if_neg (mt (hseen n.id).mpr hn)]
      rw [if_neg hn, List.map_cons, List.map_cons, List.foldl_cons, List.foldl_cons]
      refine ih (n.id :: seen) (g.addNode n.id) fun id => ?_
      rw [hids, List.mem_cons, List.mem_append, List.mem_singleton, hseen id]
      exact or_comm

/-- Leaving out later entries does not change which entry of an id comes first. -/
theorem find?_firstEntriesAfter (nodes : List Node) {seen : List NodeId} {id : NodeId}
    (hid : id ∉ seen) : Node.find? (firstEntriesAfter seen nodes) id = Node.find? nodes id := by
  induction nodes generalizing seen with
  | nil => rfl
  | cons n rest ih =>
    unfold firstEntriesAfter
    by_cases hn : n.id = id
    · subst hn
      rw [if_neg hid]
      simp [Node.find?]
    · have hskip : Node.find? (n :: rest) id = Node.find? rest id := by simp [Node.find?, hn]
      -- An entry of another id is passed, whether it is left out or not.
      by_cases hseen : n.id ∈ seen
      · rw [if_pos hseen, ih hid, hskip]
      · have hid' : id ∉ n.id :: seen := by
          rw [List.mem_cons, not_or]
          exact ⟨Ne.symm hn, hid⟩
        have hstep : Node.find? (n :: firstEntriesAfter (n.id :: seen) rest) id
            = Node.find? (firstEntriesAfter (n.id :: seen) rest) id := by simp [Node.find?, hn]
        rw [if_neg hseen, hstep, ih hid', hskip]

/-- The first entry of an id is the first among the first entries. -/
theorem find?_firstEntries (nodes : List Node) :
    Node.find? (firstEntries nodes) = Node.find? nodes :=
  funext fun _ => find?_firstEntriesAfter nodes List.not_mem_nil

theorem mem_ids_firstEntries {id : NodeId} :
    id ∈ (firstEntries nodes).map Node.id ↔ id ∈ nodes.map Node.id := by
  rw [← not_iff_not, ← Node.find?_eq_none_iff, ← Node.find?_eq_none_iff, find?_firstEntries]

/-! ### Edges -/

/-- All edges of a normal form are live. -/
theorem liveEdges_normal (nodes : List Node) (edges : List Edge) :
    liveEdges (firstEntries nodes) (normalEdges nodes edges) = normalEdges nodes edges := by
  refine List.filter_eq_self.mpr fun e he => ?_
  obtain ⟨e, hlive, rfl⟩ := List.mem_map.mp he
  obtain ⟨-, hsource, htarget⟩ := mem_liveEdges.mp hlive
  rw [decide_eq_true_eq]
  exact ⟨mem_ids_firstEntries.mpr hsource, mem_ids_firstEntries.mpr htarget⟩

/-- The live edges into a node are those of the normal form, in the same order. -/
theorem liveInto_normal (nodes : List Node) (edges : List Edge) (id : NodeId) :
    liveInto (firstEntries nodes) (normalEdges nodes edges) id
      = (liveInto nodes edges id).map (Edge.normal nodes) := by
  rw [liveInto, liveInto, liveEdges_normal, normalEdges, List.filter_map]
  rfl

/-! ### The graph of a normal form -/

/-- The normal form has the same ids, in the same order. -/
theorem ids_normal (nodes : List Node) (edges : List Edge) :
    (Graph.build (firstEntries nodes) (normalEdges nodes edges)).ids
      = (Graph.build nodes edges).ids := by
  unfold Graph.build firstEntries
  rw [Graph.ids_foldl_addEdge, Graph.ids_foldl_addEdge,
    foldl_addNode_firstEntriesAfter nodes [] Graph.empty fun id => Iff.rfl]

/-- A node has the same inputs in the normal form, without the handles that it does not look at. -/
theorem inputs_normal {id : NodeId} {n : Node} (hn : Node.find? nodes id = some n) :
    (Graph.build (firstEntries nodes) (normalEdges nodes edges)).inputs id
      = ((Graph.build nodes edges).inputs id).map fun s => (s.1, s.2.filter n.kind.looksAt) := by
  rw [Graph.build_inputs, Graph.build_inputs, liveInto_normal, List.map_map, List.map_map]
  apply List.map_congr_left
  intro e he
  have htarget := (mem_liveInto.mp he).2
  simp [Edge.normal, htarget, hn]

/-- The graph of the normal form has the shape of the graph. -/
theorem sameShape_normal (nodes : List Node) (edges : List Edge) :
    (Graph.build (firstEntries nodes) (normalEdges nodes edges)).SameShape
      (Graph.build nodes edges) where
  ids_eq := ids_normal nodes edges
  dependencies_eq id := by
    rw [Graph.build_dependencies, Graph.build_dependencies, liveInto_normal, List.map_map]
    rfl
  dependents_eq id := by
    rw [Graph.build_dependents, Graph.build_dependents, liveEdges_normal, normalEdges,
      List.filter_map, List.map_map]
    rfl

/-! ### Fragments -/

/-- A join finds its sides without the handles that it does not look at. -/
theorem Join.sides_normal (first second : Input) :
    sides (first.normal .join) (second.normal .join)
      = ((sides first second).1.normal .join, (sides first second).2.normal .join) := by
  -- A join looks at two handles, and those are kept.
  have hhandle : ∀ handle, Kind.join.looksAt handle = true → ∀ i : Input,
      (i.normal .join).handle = some handle ↔ i.handle = some handle := by
    intro handle hlooks i
    rw [Input.normal, Option.filter_eq_some_iff]
    exact ⟨fun h => h.1, fun h => ⟨h, hlooks⟩⟩
  simp only [sides_eq, hhandle leftHandle (by decide), hhandle rightHandle (by decide)]
  split <;> rfl

/-- The blocks of a union do not show any handles. -/
theorem UnionAll.blocks_normal (k : Kind) (position : Nat) (inputs : List Input) :
    blocks position (inputs.map (Input.normal k)) = blocks position inputs := by
  induction inputs generalizing position with
  | nil => rfl
  | cons i rest ih =>
    rw [List.map_cons, blocks, blocks, ih]
    rfl

/-- What a configuration makes of inputs does not depend on handles that it does not look at. -/
theorem Content.Yields.normal {c : Content} {inputs : List Input} {f : Fragment}
    (h : c.Yields settings context inputs f) :
    c.Yields settings context (inputs.map (Input.normal c.kind)) f := by
  -- Only unions and joins read more of their inputs than the texts.
  cases h with
  | event => exact .event
  | unionAll hcount =>
    have hsame : UnionAll.fragment (inputs.map (Input.normal .unionAll))
        = UnionAll.fragment inputs := by
      unfold UnionAll.fragment
      rw [UnionAll.blocks_normal, List.length_map]
    rw [← hsame]
    exact .unionAll (by rwa [List.length_map])
  | @join config first second =>
    have hsame : Join.fragment settings config
          (Join.sides (first.normal .join) (second.normal .join)).1
          (Join.sides (first.normal .join) (second.normal .join)).2
        = Join.fragment settings config (Join.sides first second).1
          (Join.sides first second).2 := by
      rw [Join.sides_normal]
      rfl
    rw [← hsame]
    exact .join
  | filter => exact .filter
  | aggregate => exact .aggregate
  | output hname => exact .output hname

/-- Handles that are not looked at change nothing about a fragment or a failure. -/
theorem Node.compile_normal (n : Node) (inputs : List Input) :
    n.compile settings context (inputs.map (Input.normal n.kind))
      = n.compile settings context inputs := by
  have hlength : (inputs.map (Input.normal n.kind)).length = inputs.length := List.length_map _
  -- The number of inputs is the same, so the same check fails, or none does.
  rcases n.compile_cases settings context inputs with
    ⟨harity, hcompile⟩ | ⟨harity, field, hmissing, hcompile⟩ |
      ⟨-, hmissing, f, hcompile, hyields⟩
  · rw [hcompile, compile_of_not_accepts (hlength ▸ harity), miswired, miswired, hlength]
  · rw [hcompile, compile_of_missing (hlength ▸ harity) hmissing]
  · rw [hcompile]
    exact compile_of_yields hmissing hyields.normal

/-! ### Plans -/

namespace Progress

/-- Inputs that are put together without these handles are the same but for them. -/
theorem inputs_normal (p : Progress) (k : Kind) (sources : List (NodeId × Option String)) :
    p.inputs (sources.map fun s => (s.1, s.2.filter k.looksAt))
      = (p.inputs sources).map (Input.normal k) := by
  have hinput : ∀ s : NodeId × Option String,
      p.input? (s.1, s.2.filter k.looksAt) = (p.input? s).map (Input.normal k) := by
    intro s
    unfold input?
    rw [Option.map_map]
    rfl
  unfold inputs
  rw [mapM_getD_nil, mapM_getD_nil, List.all_map, List.filterMap_map]
  simp only [Function.comp_def, hinput, Option.isSome_map]
  split
  · rw [List.map_filterMap]
  · rfl

/-- The outcome of a node does not depend on handles that it does not look at. -/
theorem outcome_normal (p : Progress) (n : Node) (sources : List (NodeId × Option String)) :
    p.outcome settings context n (sources.map fun s => (s.1, s.2.filter n.kind.looksAt))
      = p.outcome settings context n sources := by
  unfold outcome
  rw [inputs_normal, Node.compile_normal, List.length_map, List.find?_map]
  simp only [Function.comp_def]
  by_cases hskip : settings.failurePolicy = .skipDependents
  · rw [if_pos hskip, if_pos hskip]
    cases sources.find? fun s => p.hasFailed s.1 <;> rfl
  · rw [if_neg hskip, if_neg hskip]

/-- Along the order, the same outcome is noted for each node. -/
theorem advance_normal (nodes : List Node) (edges : List Edge) :
    advance settings context (firstEntries nodes)
        (Graph.build (firstEntries nodes) (normalEdges nodes edges))
      = advance settings context nodes (Graph.build nodes edges) := by
  funext p id
  unfold advance
  rw [find?_firstEntries]
  cases hn : Node.find? nodes id with
  | none => rfl
  | some n =>
    show p.note id _ = p.note id _
    rw [QueryGraph.inputs_normal hn, outcome_normal]

end Progress

/-- Of the numbers about the graph, only that of the inert edges can differ. -/
theorem structuralStatistics_normal (nodes : List Node) (edges : List Edge) :
    structuralStatistics nodes (Graph.build nodes edges) =
      { structuralStatistics (firstEntries nodes)
          (Graph.build (firstEntries nodes) (normalEdges nodes edges)) with
        inertEdges := (Graph.build nodes edges).inertEdges } := by
  unfold structuralStatistics
  rw [find?_firstEntries, ids_normal, (sameShape_normal nodes edges).size_eq]

/-- What is put together at the end differs in the number of inert edges only. -/
theorem finish_normal (nodes : List Node) (edges : List Edge) (order : List NodeId)
    (p : Progress) :
    finish nodes (Graph.build nodes edges) order p =
      let q := finish (firstEntries nodes)
        (Graph.build (firstEntries nodes) (normalEdges nodes edges)) order p
      { q with statistics :=
          { q.statistics with inertEdges := (Graph.build nodes edges).inertEdges } } := by
  have hterminal : isTerminal (firstEntries nodes)
      (Graph.build (firstEntries nodes) (normalEdges nodes edges))
        = isTerminal nodes (Graph.build nodes edges) := by
    funext id
    unfold isTerminal
    rw [find?_firstEntries, (sameShape_normal nodes edges).dependents_eq]
  unfold finish
  rw [structuralStatistics_normal, hterminal]

/-- The same cycles or the same order are found, and along the order the same is compiled. -/
theorem compile_eq_normal (settings : Settings) (context : Context) (nodes : List Node)
    (edges : List Edge) :
    compile settings nodes edges context =
      let q := compile settings (firstEntries nodes) (normalEdges nodes edges) context
      { q with statistics :=
          { q.statistics with inertEdges := (Graph.build nodes edges).inertEdges } } := by
  have hg := Graph.build_wellFormed nodes edges
  have hg' := Graph.build_wellFormed (firstEntries nodes) (normalEdges nodes edges)
  have hcycles := (sameShape_normal nodes edges).cycles_eq hg' hg
  have hschedule := (sameShape_normal nodes edges).schedule_eq hg' hg
  simp only [compile, hcycles, hschedule, Progress.advance_normal]
  -- Graphs of one shape have the same cycles and the same schedule, so both plans go one way.
  by_cases h : (Graph.build nodes edges).cycles.isEmpty = true
  · rw [if_pos h, if_pos h]
    cases (Graph.build nodes edges).schedule with
    | error failure =>
      rw [structuralStatistics_normal]
      rfl
    | ok order => exact finish_normal nodes edges order _
  · rw [if_neg h, if_neg h, structuralStatistics_normal]
    rfl

/-- **A plan does not look at what is left out of the normal form.**  Later entries of an id,
    edges with an end that is no node, names and source handles of edges, and target handles
    other than those of the two sides of a join change nothing in the plan but the number of
    inert edges, which counts the edges left out. -/
theorem normal_form_compiles_alike (settings : Settings) (context : Context) (nodes : List Node)
    (edges : List Edge) :
    let p := compile settings nodes edges context
    let q := compile settings (firstEntries nodes) (normalEdges nodes edges) context
    p = { q with statistics :=
          { q.statistics with inertEdges := p.statistics.inertEdges } } ∧
      p.statistics.inertEdges + (normalEdges nodes edges).length = edges.length ∧
      q.statistics.inertEdges = 0 := by
  intro p q
  have hp : p = _ := compile_eq_normal settings context nodes edges
  have hq : q = _ :=
    compile_eq_normal settings context (firstEntries nodes) (normalEdges nodes edges)
  have hpcount : p.statistics.inertEdges = (Graph.build nodes edges).inertEdges := by rw [hp]
  have hqcount : q.statistics.inertEdges
      = (Graph.build (firstEntries nodes) (normalEdges nodes edges)).inertEdges := by rw [hq]
  -- The live edges are those of the normal form, and the other edges are counted.
  have hedges := Graph.build_inertEdges nodes edges
  have hedges' := Graph.build_inertEdges (firstEntries nodes) (normalEdges nodes edges)
  have hlength : (normalEdges nodes edges).length = (liveEdges nodes edges).length :=
    List.length_map ..
  rw [liveEdges_normal] at hedges'
  refine ⟨?_, by omega, by omega⟩
  rw [hpcount]
  exact hp

end QueryGraph
