import QueryGraph.Proofs.Graph.FirstWay

namespace QueryGraph

/-!
# The search at every one of its steps

* `Search.Settled`: what a node that was left depends on was visited, and so was what a frame has
  looked at; `Settled.step` and `settled_foldl_explore`: one step keeps this, and so does a search
  from any roots.
* `Search.Consistent`: the way, the frames and the set of nodes on the way describe one chain of
  dependencies, all of it visited, and a dependency that closes a cycle is found on the way.
* `Search.exists_return`: a search from a root comes to a state without frames, before the bound
  on its steps cuts it off.
* `search_stays_consistent`: a search from any root, after searches from any others, is consistent
  after each of its steps, and ends with an empty way.
-/

namespace Search

variable {g : Graph} {s : Search} {u : NodeId} {v : Visit} {newer rest : List Visit}

/-! ### Settled nodes -/

/-- The dependencies that frames have looked at were visited, and all dependencies of the nodes
    that were left. -/
structure Settled (g : Graph) (s : Search) : Prop where
  looked : ∀ v ∈ s.frames, (g.dependencies v.node).take v.next ⊆ s.visited
  left : ∀ id, s.Done id → g.dependencies id ⊆ s.visited

/-- Before the search no frame has looked at anything, and no node was left. -/
theorem start_settled (g : Graph) : start.Settled g := by
  constructor <;> simp [start, Done]

/-- A new node has looked at nothing, and none was left for it. -/
theorem Settled.enter (h : s.Settled g) (hnew : u ∉ s.visited) : (s.enter u).Settled g where
  looked := by
    intro v hv
    rcases List.mem_cons.mp hv with rfl | hv
    · simp
    · exact List.subset_cons_of_subset u (h.looked v hv)
  left := by
    intro id hid
    exact List.subset_cons_of_subset u (h.left id ((done_enter_iff hnew).mp hid))

/-- Marking the next dependency of a frame as looked at, once it was visited. -/
theorem Settled.look (h : s.Settled g) (hframes : s.frames = newer ++ v :: rest)
    (hu : (g.dependencies v.node)[v.next]? = some u) (hvisited : u ∈ s.visited) :
    Settled g { s with frames := newer ++ ⟨v.node, v.next + 1⟩ :: rest } where
  looked := by
    have hlooked := h.looked
    simp only [hframes, List.forall_mem_append, List.forall_mem_cons] at hlooked ⊢
    obtain ⟨hnewer, hv, hrest⟩ := hlooked
    refine ⟨hnewer, ?_, hrest⟩
    rw [List.take_add_one, hu]
    exact List.append_subset.mpr ⟨hv, List.cons_subset.mpr ⟨hvisited, List.nil_subset _⟩⟩
  left := h.left

/-- Only the visited nodes, the way and the frames matter. -/
theorem Settled.congr {t : Search} (h : s.Settled g) (hvisited : t.visited = s.visited)
    (hway : t.way = s.way) (hframes : t.frames = s.frames) : t.Settled g := by
  refine ⟨fun v hv => ?_, fun id hid => ?_⟩
  · rw [hvisited]
    exact h.looked v (hframes ▸ hv)
  · rw [Done, hvisited, hway] at hid
    exact hvisited ▸ h.left id hid

/-- Leaving the newest node: all of its dependencies were looked at. -/
theorem Settled.leave (h : s.Settled g) (hsound : s.Sound g) (hframes : s.frames = v :: rest)
    (hdone : (g.dependencies v.node)[v.next]? = none) : (s.leave v.node).Settled g where
  looked := by
    intro w hw
    exact h.looked w (List.mem_of_mem_drop hw)
  left := by
    intro id hid
    rcases done_of_leave (hsound.way_cons hframes) hid with rfl | hid
    · have hlooked := h.looked v (by rw [hframes]; exact List.mem_cons_self)
      rwa [List.take_of_length_le (List.getElem?_eq_none_iff.mp hdone)] at hlooked
    · exact h.left id hid

/-- **One step keeps the nodes settled.** -/
theorem Settled.step (h : s.Settled g) (hsound : s.Sound g) : (s.step g).Settled g := by
  cases hframes : s.frames with
  | nil => simpa [Search.step, hframes] using h
  | cons v rest =>
    rcases step_cases (g := g) hframes with ⟨hdone, heq⟩ | ⟨u, hu, hcase⟩
    · rw [heq]
      exact h.leave hsound hframes hdone
    · have hframes₀ : s.frames = [] ++ v :: rest := hframes
      rcases hcase with ⟨hon, heq⟩ | ⟨-, hvisited, heq⟩ | ⟨-, hnew, heq⟩
      · -- What is recorded does not matter here.
        have hvisited := hsound.way_visited ((hsound.onWay_iff u).mp hon)
        rw [heq]
        exact (h.look hframes₀ hu hvisited).congr (visited_record g u s)
          (way_record g u s) rfl
      · rw [heq]
        exact h.look hframes₀ hu hvisited
      · have hframes' : (s.enter u).frames = [⟨u, 0⟩] ++ v :: rest := by
          simp [Search.enter, hframes]
        rw [heq]
        exact (h.enter hnew).look hframes' hu List.mem_cons_self

/-- The searches from any roots, one after the other, leave the nodes settled. -/
theorem settled_foldl_explore (hg : g.WellFormed) {roots : List NodeId} (hroots : roots ⊆ g.ids) :
    (roots.foldl (explore g) start).Settled g := by
  induction roots using List.reverseRecOn with
  | nil => exact start_settled g
  | append_singleton roots root ih =>
    obtain ⟨hroots, hroot⟩ := List.append_subset.mp hroots
    obtain ⟨hsound, hframes, -⟩ := foldl_explore_sound hg hroots (start_sound g) rfl
    rw [List.foldl_append, List.foldl_cons, List.foldl_nil]
    unfold explore
    split
    · exact ih hroots
    -- The search from a new root is entered and run, and every step of it keeps what is settled.
    next hnew =>
      have hentered := hsound.enter_root (hroot List.mem_cons_self) hnew hframes
      exact run_induct hg (fun hsound h => h.step hsound) _ hentered ((ih hroots).enter hnew)

/-! ### What the search keeps in step -/

/-- The way, the frames and the nodes on the way fit together. -/
structure Consistent (g : Graph) (s : Search) : Prop where
  /-- The way goes through the nodes of the frames, and comes to none of them twice. -/
  way_eq : s.way = s.frames.map Visit.node
  nodup : s.way.Nodup
  /-- The nodes on the way are those of the way, and were visited. -/
  onWay_iff : ∀ id, id ∈ s.onWay ↔ id ∈ s.way
  visited : s.way ⊆ s.visited
  /-- Every node of the way is a dependency of the one that it was come to from. -/
  linked : s.way.IsChain g.IsDependency
  /-- A frame looks at the dependencies of its node, or has looked at all of them. -/
  next_le : ∀ v ∈ s.frames, v.next ≤ (g.dependencies v.node).length
  /-- All that a node depends on was visited once the node was left. -/
  settled : ∀ id ∈ s.visited, id ∉ s.onWay → g.dependencies id ⊆ s.visited
  /-- The cycle that is recorded next begins at a node of the way. -/
  closing : ∀ v ∈ s.frames.head?, ∀ u, (g.dependencies v.node)[v.next]? = some u →
    u ∈ s.onWay → u ∈ s.way

/-- The invariants of the search say that its parts fit together. -/
theorem Sound.consistent (hsound : s.Sound g) (h : s.Settled g) : s.Consistent g where
  way_eq := hsound.way_eq
  nodup := hsound.nodup
  onWay_iff := hsound.onWay_iff
  visited := hsound.way_visited
  linked := hsound.linked
  next_le := hsound.next_le
  settled := by
    intro id hid hnot
    exact h.left id ⟨hid, fun hway => hnot ((hsound.onWay_iff id).mpr hway)⟩
  closing := fun _ _ u _ hon => (hsound.onWay_iff u).mp hon

/-! ### The end of a search -/

theorem step_of_frames_nil (h : s.frames = []) : s.step g = s := by
  rw [step, h]

/-- A run is so many steps. -/
theorem run_eq_iterate (g : Graph) (fuel : Nat) (s : Search) :
    run g fuel s = (step g)^[fuel] s := by
  induction fuel generalizing s with
  | zero => rfl
  | succ fuel ih =>
    rw [run]
    split
    next h =>
      -- The run ends early, and further steps would change nothing.
      have hfixed : s.step g = s := step_of_frames_nil (List.isEmpty_iff.mp h)
      exact (Function.iterate_fixed hfixed _).symm
    next => rw [ih, Function.iterate_succ_apply]

/-- Both invariants hold after any number of steps. -/
theorem iterate_sound_settled (hg : g.WellFormed) (hsound : s.Sound g) (h : s.Settled g) (k : Nat) :
    ((step g)^[k] s).Sound g ∧ ((step g)^[k] s).Settled g := by
  induction k with
  | zero => exact ⟨hsound, h⟩
  | succ k ih =>
    rw [Function.iterate_succ_apply']
    exact ⟨step_sound hg ih.1, ih.2.step ih.1⟩

/-- The search comes to a state without frames, and the bound on its steps does not cut it off
    before. -/
theorem exists_return (hg : g.WellFormed) (h : s.Sound g) (hle : remaining g s ≤ bound g) :
    ∃ k ≤ bound g, (∀ j < k, ((step g)^[j] s).frames ≠ []) ∧ ((step g)^[k] s).frames = [] ∧
      (step g)^[k] s = run g (bound g) s := by
  have hend : ((step g)^[bound g] s).frames = [] := by
    rw [← run_eq_iterate]
    exact (run_sound hg _ h hle).2.1
  rw [run_eq_iterate]
  exact exists_first_stop (fun s : Search => s.frames = [])
    (fun _ h => step_of_frames_nil h) hend

end Search

/-- **The search stays consistent.**  After every step of a search from a new root, whatever roots
    were searched from before, its way, its frames and its set of nodes on the way fit together.
    The search ends, with nothing on the way, before the bound on its steps cuts it off. -/
theorem search_stays_consistent (nodes : List Node) (edges : List Edge) {roots : List NodeId}
    {root : NodeId} (hroots : roots ⊆ nodes.map Node.id) (hroot : root ∈ nodes.map Node.id)
    (hnew : root ∉ (roots.foldl (Search.explore (Graph.build nodes edges)) Search.start).visited) :
    let g := Graph.build nodes edges
    let before := roots.foldl (Search.explore g) Search.start
    let after (k : Nat) : Search := (Search.step g)^[k] (before.enter root)
    (∀ k, (after k).Consistent g) ∧
      ∃ k ≤ Search.bound g, (∀ j < k, (after j).frames ≠ []) ∧ (after k).frames = [] ∧
        (after k).way = [] ∧ (after k).onWay = [] ∧ after k = before.explore g root := by
  intro g before after
  have hg : g.WellFormed := Graph.build_wellFormed nodes edges
  have hids : roots ⊆ g.ids := fun id hid => Graph.mem_build_ids.mpr (hroots hid)
  have hroot' : root ∈ g.ids := Graph.mem_build_ids.mpr hroot
  obtain ⟨hsound, hframes, -⟩ := Search.foldl_explore_sound hg hids (Search.start_sound g) rfl
  have hentered : (before.enter root).Sound g := hsound.enter_root hroot' hnew hframes
  have hsettled : (before.enter root).Settled g := (Search.settled_foldl_explore hg hids).enter hnew
  have hafter : ∀ k, (after k).Sound g ∧ (after k).Settled g :=
    Search.iterate_sound_settled hg hentered hsettled
  refine ⟨fun k => (hafter k).1.consistent (hafter k).2, ?_⟩
  obtain ⟨k, hk, hbefore, hreturn, hrun⟩ := Search.exists_return hg hentered
    (Search.remaining_enter_root hg hroot' hnew hframes)
  have hway : (after k).way = [] := by
    rw [(hafter k).1.way_eq, hreturn, List.map_nil]
  -- The nodes on the way are those of the way, which is empty.
  have honWay : (after k).onWay = [] := by
    rw [List.eq_nil_iff_forall_not_mem]
    intro id hid
    rw [(hafter k).1.onWay_iff, hway] at hid
    exact List.not_mem_nil hid
  refine ⟨k, hk, hbefore, hreturn, hway, honWay, ?_⟩
  rw [Search.explore, if_neg hnew]
  exact hrun

/-- In a graph of two cycles with the node `b` in common, a search from `c` after one from the node
    `d`, which depends on nothing. -/
theorem search_stays_consistent_second_root :
    let nodes : List Node := [⟨⟨"a"⟩, .unionAll⟩, ⟨⟨"b"⟩, .unionAll⟩, ⟨⟨"c"⟩, .unionAll⟩,
      ⟨⟨"d"⟩, .unionAll⟩]
    let edges : List Edge := [⟨none, ⟨"a"⟩, ⟨"b"⟩, none, none⟩, ⟨none, ⟨"b"⟩, ⟨"a"⟩, none, none⟩,
      ⟨none, ⟨"b"⟩, ⟨"c"⟩, none, none⟩, ⟨none, ⟨"c"⟩, ⟨"b"⟩, none, none⟩,
      ⟨none, ⟨"d"⟩, ⟨"c"⟩, none, none⟩]
    let g := Graph.build nodes edges
    let before := [(⟨"d"⟩ : NodeId)].foldl (Search.explore g) Search.start
    let after (k : Nat) : Search := (Search.step g)^[k] (before.enter ⟨"c"⟩)
    before.visited = [⟨"d"⟩] ∧ (after 2).way = [⟨"a"⟩, ⟨"b"⟩, ⟨"c"⟩] ∧ (after 2).Consistent g := by
  intro nodes edges g before after
  refine ⟨by decide, by decide, ?_⟩
  have hroots : [(⟨"d"⟩ : NodeId)] ⊆ nodes.map Node.id := by decide
  have hroot : (⟨"c"⟩ : NodeId) ∈ nodes.map Node.id := by decide
  exact (search_stays_consistent nodes edges hroots hroot (by decide)).1 2

end QueryGraph
