import QueryGraph.Proofs.Graph.Reported
import QueryGraph.Proofs.Graph.Shape

namespace QueryGraph

/-!
# Parallel edges do not count for cycles

* `firstEdges`: the edges of a snapshot without those that have the ends of an earlier one.
* `Graph.Thins`: a graph with the nodes of another one, and with each of their dependencies once.
* `Search.thin`: a search as it stands if it has looked at no dependency twice.
* `Search.step_of_looked`, `Search.step_thin`: to look at a dependency again changes nothing, and
  every other step is a step of the thin search in the thin graph.
* `Search.run_thin`, `Search.explore_eq`: so the two searches come to the same end.
* `cycles_firstEdges`: parallel edges do not change the cycles that are reported.
-/

/-! ### Edges with different ends -/

/-- The two ends of an edge. -/
def Edge.ends (e : Edge) : NodeId × NodeId := (e.source, e.target)

/-- The edges without those that have the ends of an earlier edge. -/
def firstEdges : List Edge → List Edge
  | [] => []
  | e :: rest => e :: (firstEdges rest).filter fun e' => e'.ends ≠ e.ends

/-- Behind the others, an edge counts if none before it has its ends. -/
theorem firstEdges_concat (edges : List Edge) (e : Edge) :
    firstEdges (edges ++ [e])
      = if e.ends ∈ edges.map Edge.ends then firstEdges edges else firstEdges edges ++ [e] := by
  induction edges with
  | nil => rfl
  | cons a rest ih =>
    rw [List.cons_append, firstEdges, ih, firstEdges, List.map_cons]
    by_cases hrest : e.ends ∈ rest.map Edge.ends
    · rw [if_pos hrest, if_pos (List.mem_cons_of_mem _ hrest)]
    · rw [if_neg hrest, List.filter_append]
      -- The head may hide the last edge as well as one in between.
      by_cases ha : e.ends = a.ends
      · simp [ha]
      · simp [ha, hrest]

variable {nodes : List Node} {edges : List Edge}

/-- Without parallel edges, every node keeps its sources, each at its first occurrence. -/
theorem sources_firstEdges (nodes : List Node) (edges : List Edge) (v : NodeId) :
    (liveInto nodes (firstEdges edges) v).map Edge.source
      = ((liveInto nodes edges v).map Edge.source).eraseDups := by
  induction edges using List.reverseRecOn with
  | nil => rfl
  | append_singleton edges e ih =>
    rw [firstEdges_concat, liveInto_append, liveInto_singleton]
    by_cases hlive : e.IsLive nodes ∧ e.target = v
    · -- An earlier edge with the ends of `e` leads into `v` as well, from the same source.
      have hends : e.ends ∈ edges.map Edge.ends ↔
          e.source ∈ (liveInto nodes edges v).map Edge.source := by
        rw [List.mem_map, List.mem_map]
        refine exists_congr fun a => ?_
        rw [mem_liveInto, mem_liveEdges, Edge.ends, Edge.ends, Prod.mk.injEq]
        constructor
        · rintro ⟨ha, hsource, htarget⟩
          rw [hsource, htarget]
          exact ⟨⟨⟨ha, hlive.1⟩, hlive.2⟩, rfl⟩
        · rintro ⟨⟨⟨ha, -⟩, htarget⟩, hsource⟩
          exact ⟨ha, hsource, htarget.trans hlive.2.symm⟩
      rw [if_pos hlive, List.map_append, List.map_singleton, eraseDups_concat]
      by_cases hearlier : e.ends ∈ edges.map Edge.ends
      · rw [if_pos hearlier, if_pos (hends.mp hearlier), ih]
      · rw [if_neg hearlier, if_neg (mt hends.mpr hearlier), liveInto_append,
          liveInto_singleton, if_pos hlive, List.map_append, ih, List.map_singleton]
    · rw [if_neg hlive, List.append_nil, ← ih]
      split
      · rfl
      · rw [liveInto_append, liveInto_singleton, if_neg hlive, List.append_nil]

/-- The graph has the nodes of another one in the same order, and each dependency of theirs at its
    first occurrence. -/
structure Graph.Thins (g' g : Graph) : Prop where
  ids_eq : g'.ids = g.ids
  dependencies_eq : ∀ v, g'.dependencies v = (g.dependencies v).eraseDups

/-- Without parallel edges the graph has the same nodes and each dependency once. -/
theorem thins_build (nodes : List Node) (edges : List Edge) :
    (Graph.build nodes (firstEdges edges)).Thins (Graph.build nodes edges) where
  ids_eq := by rw [Graph.build_ids, Graph.build_ids]
  dependencies_eq v := by
    rw [Graph.build_dependencies, Graph.build_dependencies, sources_firstEdges]

/-! ### Looking at each dependency once -/

/-- The frame has looked at as many dependencies as the given one has looked at different ones. -/
def Visit.thin (g : Graph) (v : Visit) : Visit :=
  ⟨v.node, ((g.dependencies v.node).take v.next).eraseDups.length⟩

namespace Search

/-- The search as it stands if it has looked at no dependency twice. -/
def thin (g : Graph) (s : Search) : Search := { s with frames := s.frames.map (Visit.thin g) }

variable {g g' : Graph} {s : Search} {v : Visit} {rest : List Visit} {u : NodeId}

@[simp] theorem frames_thin (g : Graph) (s : Search) :
    (s.thin g).frames = s.frames.map (Visit.thin g) := rfl

/-- A search between two roots has no frame that could be thinned. -/
theorem thin_of_frames (hframes : s.frames = []) : s.thin g = s := by
  obtain ⟨visited, onWay, way, frames, bodies, found⟩ := s
  obtain rfl : frames = [] := hframes
  rfl

/-- A dependency that was looked at before does not count. -/
theorem thin_next_of_looked (hu : (g.dependencies v.node)[v.next]? = some u)
    (hlooked : u ∈ (g.dependencies v.node).take v.next) :
    Visit.thin g ⟨v.node, v.next + 1⟩ = v.thin g := by
  simp only [Visit.thin, List.take_add_one, hu, Option.toList_some, eraseDups_concat,
    if_pos hlooked]

/-- To look at a new dependency is one step of the thin frame too. -/
theorem thin_next_of_new (hu : (g.dependencies v.node)[v.next]? = some u)
    (hnew : u ∉ (g.dependencies v.node).take v.next) :
    Visit.thin g ⟨v.node, v.next + 1⟩ = ⟨v.node, (v.thin g).next + 1⟩ := by
  simp only [Visit.thin, List.take_add_one, hu, Option.toList_some, eraseDups_concat, if_neg hnew,
    List.length_append, List.length_singleton]

/-- A dependency that was not looked at before is the next one of the thin frame. -/
theorem getElem?_thin_of_new (hg : g'.Thins g) (hu : (g.dependencies v.node)[v.next]? = some u)
    (hnew : u ∉ (g.dependencies v.node).take v.next) :
    (g'.dependencies v.node)[(v.thin g).next]? = some u := by
  obtain ⟨hlt, hget⟩ := List.getElem?_eq_some_iff.mp hu
  have hsplit : g.dependencies v.node = (g.dependencies v.node).take v.next ++
      u :: (g.dependencies v.node).drop (v.next + 1) := by
    rw [← hget, ← List.drop_eq_getElem_cons hlt, List.take_append_drop]
  rw [hg.dependencies_eq, hsplit, List.eraseDups_append, Visit.thin,
    List.getElem?_append_right (by simp)]
  simp [List.removeAll, hnew, List.eraseDups_cons]

/-- A thin frame has looked at all dependencies if the frame has. -/
theorem getElem?_thin_of_none (hg : g'.Thins g) (hdone : (g.dependencies v.node)[v.next]? = none) :
    (g'.dependencies v.node)[(v.thin g).next]? = none := by
  rw [hg.dependencies_eq, Visit.thin,
    List.take_of_length_le (List.getElem?_eq_none_iff.mp hdone), List.getElem?_eq_none_iff]

/-! ### Steps -/

/-- What a step does about a dependency, once the frame is marked. -/
def look (g : Graph) (dep : NodeId) (s : Search) : Search :=
  if dep ∈ s.onWay then s.record g dep else if dep ∈ s.visited then s else s.enter dep

/-- Unless a frame is at its end, a step marks it and does what there is to do about the
    dependency. -/
theorem step_eq_look (hframes : s.frames = v :: rest)
    (hu : (g.dependencies v.node)[v.next]? = some u) :
    s.step g = look g u { s with frames := ⟨v.node, v.next + 1⟩ :: rest } := by
  unfold step
  rw [hframes]
  dsimp only
  rw [hu]
  rfl

/-- The invariants of the search together. -/
structure Steady (g : Graph) (s : Search) : Prop where
  sound : s.Sound g
  greedy : s.Greedy g
  thorough : s.Thorough g

/-- All three invariants are kept by a step. -/
theorem Steady.step (hg : g.WellFormed) (h : s.Steady g) : (s.step g).Steady g :=
  ⟨step_sound hg h.sound, h.greedy.step h.sound, h.thorough.step h.greedy h.sound⟩

/-- To look at a dependency again changes nothing: it was visited, and a cycle that it closes is
    recorded. -/
theorem step_of_looked (h : s.Steady g) (hframes : s.frames = v :: rest)
    (hu : (g.dependencies v.node)[v.next]? = some u)
    (hlooked : u ∈ (g.dependencies v.node).take v.next) :
    s.step g = { s with frames := ⟨v.node, v.next + 1⟩ :: rest } := by
  rcases step_cases (g := g) hframes with ⟨hnone, -⟩ | ⟨u', hu', hcase⟩
  · simp [hu] at hnone
  obtain rfl : u = u' := Option.some.inj (hu.symm.trans hu')
  rcases hcase with ⟨hon, heq⟩ | ⟨-, -, heq⟩ | ⟨-, hnew, -⟩
  · have hway : u ∈ s.way := (h.sound.onWay_iff u).mp hon
    have hclosed := h.thorough.looked v rest (hframes ▸ List.suffix_refl _) u hlooked
    rw [List.map_cons, ← h.sound.way_cons hframes] at hclosed
    -- The cycle was recorded when the dependency was looked at first.
    have hknown : s.record g u = s := by
      simp only [record, if_pos hway, if_pos (hclosed hway)]
    rw [heq, hknown]
  · exact heq
  · -- A dependency that the newest node has looked at is no new one.
    have hexhausted := h.greedy.newest v (by simp [hframes]) u hlooked
    exact absurd (hexhausted.mem_visited h.sound) hnew

/-- Recording leaves the frames alone, and goes by the order of the nodes. -/
theorem thin_record (hg : g'.Thins g) (closing : NodeId) (s : Search) :
    (s.record g closing).thin g = (s.thin g).record g' closing := by
  rw [← Graph.record_congr hg.ids_eq.symm]
  unfold record
  by_cases hclosing : closing ∈ s.way
  · rw [if_pos hclosing, if_pos (show closing ∈ (s.thin g).way from hclosing)]
    dsimp only
    by_cases hknown : rotate g (back s.way closing) ∈ s.bodies
    · rw [if_pos hknown]
      exact (if_pos hknown).symm
    · rw [if_neg hknown]
      exact (if_neg hknown).symm
  · rw [if_neg hclosing]
    exact (if_neg hclosing).symm

/-- What a step does about a dependency does not depend on how often others were looked at. -/
theorem thin_look (hg : g'.Thins g) (u : NodeId) (s : Search) :
    (s.look g u).thin g = (s.thin g).look g' u := by
  unfold look
  by_cases hon : u ∈ s.onWay
  · rw [if_pos hon, if_pos (show u ∈ (s.thin g).onWay from hon), thin_record hg]
  · rw [if_neg hon, if_neg (show u ∉ (s.thin g).onWay from hon)]
    by_cases hvisited : u ∈ s.visited
    · rw [if_pos hvisited]
      exact (if_pos hvisited).symm
    · rw [if_neg hvisited]
      exact (if_neg hvisited).symm

/-- Every other step is one of the thin search. -/
theorem step_thin_of_new (hg : g'.Thins g) (hframes : s.frames = v :: rest)
    (hu : (g.dependencies v.node)[v.next]? = some u)
    (hnew : u ∉ (g.dependencies v.node).take v.next) :
    (s.step g).thin g = (s.thin g).step g' := by
  have hframes' : (s.thin g).frames = v.thin g :: rest.map (Visit.thin g) := by
    rw [frames_thin, hframes, List.map_cons]
  rw [step_eq_look hframes hu, thin_look hg,
    step_eq_look hframes' (getElem?_thin_of_new hg hu hnew)]
  simp only [thin, List.map_cons, thin_next_of_new hu hnew]
  rfl

/-- A step of the search is one of the thin search, or none. -/
theorem step_thin (hg : g'.Thins g) (h : s.Steady g) (hframes : s.frames = v :: rest) :
    (s.step g).thin g = s.thin g ∨ (s.step g).thin g = (s.thin g).step g' := by
  cases hu : (g.dependencies v.node)[v.next]? with
  | none =>
    -- Both frames are at their ends, so both searches leave the node.
    have hu' := getElem?_thin_of_none hg hu
    right
    simp only [step, hframes, hu, thin, List.map_cons, leave]
    rw [show (v.thin g).node = v.node from rfl, hu']
    simp
  | some u =>
    by_cases hlooked : u ∈ (g.dependencies v.node).take v.next
    · left
      rw [step_of_looked h hframes hu hlooked]
      simp only [thin, List.map_cons, thin_next_of_looked hu hlooked, hframes]
    · exact Or.inr (step_thin_of_new hg hframes hu hlooked)

/-! ### Runs -/

/-- A run that has come to its end does not depend on the number of steps it was given. -/
theorem run_eq_run {m n : Nat} (hm : (run g m s).frames = []) (hn : (run g n s).frames = []) :
    run g m s = run g n s := by
  induction m generalizing n s with
  | zero =>
    have hframes : s.frames = [] := hm
    -- One of the two runs may not have been given a step at all, and is at its end as it is.
    cases n with
    | zero => rfl
    | succ n => simp [run, hframes]
  | succ m ih =>
    cases n with
    | zero =>
      have hframes : s.frames = [] := hn
      simp [run, hframes]
    | succ n =>
      rw [run] at hm hn ⊢
      rw [run]
      split
      · rfl
      next hsome =>
        rw [if_neg hsome] at hm hn
        exact ih hm hn

/-- A run is a run of the thin search, with as many steps as look at something new. -/
theorem run_thin (hwf : g.WellFormed) (hg : g'.Thins g) (fuel : Nat) (h : s.Steady g) :
    ∃ fuel', (run g fuel s).thin g = run g' fuel' (s.thin g) := by
  induction fuel generalizing s with
  | zero => exact ⟨0, rfl⟩
  | succ fuel ih =>
    rw [run]
    cases hframes : s.frames with
    | nil => exact ⟨0, rfl⟩
    | cons v rest =>
      obtain ⟨fuel', hrun⟩ := ih (h.step hwf)
      -- A step that changes nothing is no step of the thin run.
      rcases step_thin hg h hframes with hsame | hstep
      · exact ⟨fuel', by rw [← hsame]; exact hrun⟩
      · refine ⟨fuel' + 1, ?_⟩
        have hsome : (s.thin g).frames.isEmpty = false := by simp [hframes]
        rw [run, hsome, ← hstep]
        exact hrun

/-- The searches from a root end alike. -/
theorem explore_eq (hwf : g.WellFormed) (hwf' : g'.WellFormed) (hg : g'.Thins g) {root : NodeId}
    (hroot : root ∈ g.ids) (hsound : s.Sound g) (hsound' : s.Sound g') (hframes : s.frames = [])
    (hsteady : root ∉ s.visited → (s.enter root).Steady g) :
    explore g s root = explore g' s root := by
  obtain ⟨-, hend, -⟩ := explore_sound hwf hroot hsound hframes
  obtain ⟨-, hend', -⟩ := explore_sound hwf' (hg.ids_eq ▸ hroot) hsound' hframes
  unfold explore at hend hend' ⊢
  split
  · rfl
  next hnew =>
    rw [if_neg hnew] at hend hend'
    obtain ⟨fuel', hrun⟩ := run_thin hwf hg (bound g) (hsteady hnew)
    -- A frame that has looked at nothing is thin.
    have hstart : (s.enter root).thin g = s.enter root := by
      simp [thin, enter, hframes, Visit.thin]
    rw [thin_of_frames hend, hstart] at hrun
    rw [hrun] at hend ⊢
    exact run_eq_run hend hend'

end Search

/-! ### The cycles of a snapshot -/

/-- The searches stand alike whenever some of the roots are done. -/
theorem Search.foldl_explore_eq {g g' : Graph} (hwf : g.WellFormed) (hwf' : g'.WellFormed)
    (hg : g'.Thins g) {before after : List NodeId} (hids : g.ids = before ++ after) :
    before.foldl (explore g) start = before.foldl (explore g') start := by
  induction before using List.reverseRecOn generalizing after with
  | nil => rfl
  | append_singleton before root ih =>
    rw [List.append_assoc, List.singleton_append] at hids
    have hsub : before ⊆ g.ids := hids ▸ List.subset_append_left _ _
    have hroot : root ∈ g.ids := by simp [hids]
    obtain ⟨hsound, hframes, hvisited⟩ := foldl_explore_sound hwf hsub (start_sound g) rfl
    obtain ⟨hsound', -, -⟩ := foldl_explore_sound hwf' (hg.ids_eq ▸ hsub) (start_sound g') rfl
    obtain ⟨hgreedy, hthorough⟩ := greedy_thorough_before hwf hids
    rw [← ih hids] at hsound'
    rw [List.foldl_append, List.foldl_append, ← ih hids]
    refine explore_eq hwf hwf' hg hroot hsound hsound' hframes fun hnew => ?_
    have hbefore := (List.append_subset.mp hvisited).1
    exact ⟨hsound.enter_root hroot hnew hframes,
      hgreedy.enter_root hsound hframes hids hbefore hnew, hthorough.enter hnew⟩

/-- A graph and a thin one have the same cycles, found in the same order. -/
theorem Graph.Thins.cycles_eq {g g' : Graph} (hg : g'.Thins g) (hwf : g.WellFormed)
    (hwf' : g'.WellFormed) : g.cycles = g'.cycles := by
  have hsearch := Search.foldl_explore_eq hwf hwf' hg (List.append_nil g.ids).symm
  rw [cycles, cycles, hsearch, hg.ids_eq]

/-- **Parallel edges do not change the report.**  The cycles of a snapshot, and the order in which
    they are found, stay the same if every edge is left out that has the ends of an earlier one. -/
theorem cycles_firstEdges (nodes : List Node) (edges : List Edge) :
    (Graph.build nodes edges).cycles = (Graph.build nodes (firstEdges edges)).cycles :=
  (thins_build nodes edges).cycles_eq (Graph.build_wellFormed nodes edges)
    (Graph.build_wellFormed nodes (firstEdges edges))

end QueryGraph
