import QueryGraph.Proofs.Graph.Cover
import QueryGraph.Proofs.Graph.FirstWay
import QueryGraph.Proofs.Graph.Report

namespace QueryGraph

open scoped List

/-!
# Which cycles are reported

The search goes through every node once, so of the cycles through a node it sees those only that
the way to the node runs through.

* `Graph.OnFirstWay`: the cycles that a dependency of a node closes on the first way to it.
* `Search.Thorough`: the fourth invariant of the search.  It has recorded the cycles of that kind
  for every node that it has left, and no others.
* `Graph.exists_isFirstWay`, `Graph.mem_cycles_iff`: there is a first way to every node, and the
  recorded cycles are exactly those closed on one.
* `reported_iff_on_first_way`: a cycle of a snapshot is reported exactly if it is a part of a first
  way; one that has no edge in common with another is.
-/

/-- What a dependency of a node cuts off the first way to the node, starting with the member that
    is first in the node list. -/
def Graph.OnFirstWay (g : Graph) (body : List NodeId) : Prop :=
  ∃ v way u, g.IsFirstWay v way ∧ u ∈ way ∧ u ∈ g.dependencies v ∧
    body = Search.rotate g (Search.back way u)

namespace Search

variable {g : Graph} {s t : Search} {v : Visit} {rest : List Visit} {u : NodeId}
  {way us : List NodeId}

/-! ### The invariant -/

/-- The cycles that the given nodes close on a way are recorded. -/
def Closed (g : Graph) (s : Search) (way us : List NodeId) : Prop :=
  ∀ u ∈ us, u ∈ way → rotate g (back way u) ∈ s.bodies

theorem Closed.mono (h : s.Closed g way us) (hbodies : s.bodies ⊆ t.bodies) :
    t.Closed g way us :=
  fun u hu hway => hbodies (h u hu hway)

/-- For one node there is at most one cycle to record. -/
theorem closed_singleton (h : u ∈ way → rotate g (back way u) ∈ s.bodies) :
    s.Closed g way [u] := by
  intro x hx hway
  obtain rfl := List.mem_singleton.mp hx
  exact h hway

/-- The cycles that the dependencies looked at close on the way, and that those of the nodes left
    have closed on the first way to them, are recorded, and no others. -/
structure Thorough (g : Graph) (s : Search) : Prop where
  looked : ∀ v older, v :: older <:+ s.frames →
    s.Closed g ((v :: older).map Visit.node) ((g.dependencies v.node).take v.next)
  finished : ∀ y, s.Done y → ∃ way, g.IsFirstWay y way ∧ s.Closed g way (g.dependencies y)
  origin : ∀ body ∈ s.bodies, g.OnFirstWay body

/-- Before the search nothing was looked at, left or recorded. -/
theorem start_thorough (g : Graph) : start.Thorough g := by
  constructor <;> simp [start, Done]

/-! ### Steps -/

/-- A new node has looked at nothing, and nothing new was left. -/
theorem Thorough.enter (h : s.Thorough g) (hnew : u ∉ s.visited) : (s.enter u).Thorough g where
  looked := forall_suffix_cons_iff.mpr ⟨by simp [Closed], h.looked⟩
  finished := by
    intro y hy
    exact h.finished y ((done_enter_iff hnew).mp hy)
  origin := h.origin

/-- Marking a dependency of the newest frame as looked at, once the cycle that it may close is
    recorded. -/
theorem Thorough.look (h : s.Thorough g) (hframes : s.frames = v :: rest)
    (hu : (g.dependencies v.node)[v.next]? = some u)
    (hclosed : s.Closed g ((v :: rest).map Visit.node) [u]) :
    Thorough g { s with frames := ⟨v.node, v.next + 1⟩ :: rest } where
  looked := by
    have hlooked := h.looked
    rw [hframes, forall_suffix_cons_iff] at hlooked
    obtain ⟨hv, hrest⟩ := hlooked
    refine forall_suffix_cons_iff.mpr ⟨fun x hx => ?_, hrest⟩
    rw [List.take_add_one, hu, List.mem_append] at hx
    rcases hx with hx | hx
    · exact hv x hx
    · exact hclosed x hx
  finished := h.finished
  origin := h.origin

/-- Recording the cycle that a dependency of the newest node closes. -/
theorem Thorough.record (h : s.Thorough g) (hway : g.IsFirstWay v.node s.way)
    (hu : u ∈ g.dependencies v.node) : (s.record g u).Thorough g := by
  rcases record_cases g u s with ⟨heq, -⟩ | ⟨hclosing, heq⟩
  · rw [heq]
    exact h
  · have hmore : s.bodies ⊆ (s.record g u).bodies := by
      rw [heq]
      exact List.subset_cons_self _ _
    rw [heq] at hmore ⊢
    refine ⟨fun v older hsuffix => (h.looked v older hsuffix).mono hmore, fun y hy => ?_, ?_⟩
    · obtain ⟨way, hway, hclosed⟩ := h.finished y hy
      exact ⟨way, hway, hclosed.mono hmore⟩
    · exact List.forall_mem_cons.mpr ⟨⟨v.node, s.way, u, hway, hclosing, hu, rfl⟩, h.origin⟩

/-- Leaving the newest node: all of its dependencies were looked at. -/
theorem Thorough.leave (h : s.Thorough g) (hgreedy : s.Greedy g) (hsound : s.Sound g)
    (hframes : s.frames = v :: rest) (hdone : (g.dependencies v.node)[v.next]? = none) :
    (s.leave v.node).Thorough g := by
  have hway := hsound.way_cons hframes
  have hframes' : (s.leave v.node).frames = rest := by simp [Search.leave, hframes]
  have hlooked := h.looked
  rw [hframes, forall_suffix_cons_iff] at hlooked
  obtain ⟨hv, hrest⟩ := hlooked
  rw [List.take_of_length_le (List.getElem?_eq_none_iff.mp hdone), List.map_cons, ← hway] at hv
  refine ⟨hframes'.symm ▸ hrest, fun y hy => ?_, h.origin⟩
  rcases done_of_leave hway hy with rfl | hy
  · exact ⟨s.way, hgreedy.isFirstWay hsound (by rw [hway]; rfl), hv⟩
  · exact h.finished y hy

/-- **One step keeps the search thorough.** A dependency on the way has its cycle recorded before it
    counts as looked at, and any other closes none. -/
theorem Thorough.step (h : s.Thorough g) (hgreedy : s.Greedy g) (hsound : s.Sound g) :
    (s.step g).Thorough g := by
  cases hframes : s.frames with
  | nil => simpa [Search.step, hframes] using h
  | cons v rest =>
    have hway : s.way = (v :: rest).map Visit.node := hsound.way_cons hframes
    -- A dependency that is not on the way closes no cycle.
    have hopen : ∀ {u}, u ∉ s.onWay → s.Closed g ((v :: rest).map Visit.node) [u] := by
      intro u hon
      rw [hsound.onWay_iff, hway] at hon
      exact closed_singleton fun hmem => absurd hmem hon
    rcases step_cases (g := g) hframes with ⟨hdone, heq⟩ | ⟨u, hu, hcase⟩
    · rw [heq]
      exact h.leave hgreedy hsound hframes hdone
    · rcases hcase with ⟨hon, heq⟩ | ⟨hon, -, heq⟩ | ⟨hon, hnew, heq⟩
      · -- On the way: the cycle recorded is one that the first way to the newest node closes.
        have hfirst := hgreedy.isFirstWay hsound (u := v.node) (by rw [hway]; rfl)
        have hrecord := h.record hfirst (List.mem_of_getElem? hu)
        have hclosed : (s.record g u).Closed g ((v :: rest).map Visit.node) [u] :=
          closed_singleton fun hmem => hway ▸ back_mem_bodies_record g (hway ▸ hmem)
        rw [heq]
        exact hrecord.look (by rw [frames_record, hframes]) hu hclosed
      · rw [heq]
        exact h.look hframes hu (hopen hon)
      · rw [heq]
        exact (h.look hframes hu (hopen hon)).enter hnew

/-- The last two invariants hold whenever some of the roots are done. -/
theorem greedy_thorough_before (hg : g.WellFormed) {before after : List NodeId}
    (hids : g.ids = before ++ after) :
    (before.foldl (explore g) start).Greedy g ∧ (before.foldl (explore g) start).Thorough g :=
  @search_induct_before g (fun s => s.Greedy g ∧ s.Thorough g) hg
    ⟨start_greedy g, start_thorough g⟩
    (fun hids hsound hframes hbefore hnew ⟨hgreedy, h⟩ =>
      ⟨hgreedy.enter_root hsound hframes hids hbefore hnew, h.enter hnew⟩)
    (fun hsound ⟨hgreedy, h⟩ => ⟨hgreedy.step hsound, h.step hgreedy hsound⟩) before after hids

end Search

/-! ### The cycles of a graph -/

namespace Graph

variable {g : Graph}

/-- The end of the search: every node was left, and the cycles are the recorded bodies. -/
theorem exists_search (hg : g.WellFormed) :
    ∃ s : Search, s.Thorough g ∧ (∀ v ∈ g.ids, s.Done v) ∧
      ∀ c, c ∈ g.cycles ↔ ∃ body ∈ s.bodies, Search.close body = c := by
  obtain ⟨hsound, hframes, hvisited⟩ :=
    Search.foldl_explore_sound hg (List.Subset.refl g.ids) (Search.start_sound g) rfl
  obtain ⟨-, hthorough⟩ := Search.greedy_thorough_before hg (List.append_nil g.ids).symm
  refine ⟨_, hthorough, fun v hv => ⟨hvisited (List.mem_append_left _ hv), ?_⟩, fun c => ?_⟩
  · simp [hsound.way_eq, hframes]
  · rw [cycles, hsound.found_eq, List.mem_reverse, List.mem_map]

/-- There is a first way to every node, the one on which the search came to it. -/
theorem exists_isFirstWay (hg : g.WellFormed) {v : NodeId} (hv : v ∈ g.ids) :
    ∃ way, g.IsFirstWay v way := by
  obtain ⟨s, hthorough, hdone, -⟩ := exists_search hg
  obtain ⟨way, hway, -⟩ := hthorough.finished v (hdone v hv)
  exact ⟨way, hway⟩

/-- The recorded cycles are those that are closed on a first way. -/
theorem mem_cycles_iff (hg : g.WellFormed) {c : List NodeId} :
    c ∈ g.cycles ↔ ∃ body, g.OnFirstWay body ∧ Search.close body = c := by
  obtain ⟨s, hthorough, hdone, hcycles⟩ := exists_search hg
  rw [hcycles]
  constructor
  · rintro ⟨body, hbody, rfl⟩
    exact ⟨body, hthorough.origin body hbody, rfl⟩
  · rintro ⟨body, ⟨v, way, u, hway, hu, hdep, rfl⟩, rfl⟩
    -- The search came to `v` on its only first way, and looked at `u` there.
    have hv := mem_ids_of_mem_dependencies hdep
    obtain ⟨way', hway', hclosed⟩ := hthorough.finished v (hdone v hv)
    obtain rfl := hway.unique hway'
    exact ⟨_, hclosed u hdep hu, rfl⟩

/-- The newest part of a first way is closed on it if it is a cycle. -/
theorem onFirstWay_rotate {v : NodeId} {way body : List NodeId} (hway : g.IsFirstWay v way)
    (hpart : body <+: way) (hne : body ≠ []) (hnodup : body.Nodup)
    (hchain : (body : Cycle NodeId).Chain g.IsDependency) :
    g.OnFirstWay (Search.rotate g body) := by
  obtain ⟨older, rfl⟩ := hpart
  have hhead : body.head? = some v := by
    rw [← List.head?_append_of_ne_nil body hne]
    exact hway.1
  -- The part ends with the node that closes it, for that one comes next in the cycle.
  rcases List.eq_nil_or_concat' body with rfl | ⟨newer, u, rfl⟩
  · exact absurd rfl hne
  have hdep : g.IsDependency u v :=
    ((Search.chain_coe_iff hhead List.getLast?_concat).mp hchain).1
  have hu : u ∉ newer := by
    rw [List.nodup_append] at hnodup
    exact fun hmem => hnodup.2.2 u hmem u (List.mem_singleton_self u) rfl
  refine ⟨v, _, u, hway, by simp, hdep, ?_⟩
  rw [List.append_assoc, List.singleton_append, Search.back_eq hu]

end Graph

/-! ### The cycles of a snapshot -/

variable {nodes : List Node} {edges : List Edge}

/-- All that the search records is a cycle as it is reported. -/
theorem isReport_of_mem_cycles {c : List NodeId} (hc : c ∈ (Graph.build nodes edges).cycles) :
    IsReport nodes edges c := by
  obtain ⟨bodies, hfound, -, hbodies⟩ :=
    Graph.exists_bodies (Graph.build_wellFormed nodes edges)
  rw [hfound, List.mem_map] at hc
  obtain ⟨body, hbody, rfl⟩ := hc
  obtain ⟨hne, hchain, hcanonical⟩ := hbodies body hbody
  exact hcanonical.isReport hne hchain

/-- A reported cycle is a part of a first way, with another beginning perhaps. -/
theorem exists_firstWay_of_mem_cycles {c : List NodeId}
    (hc : c ∈ (Graph.build nodes edges).cycles) :
    ∃ v way body, (Graph.build nodes edges).IsFirstWay v way ∧ body <+: way ∧
      body ~r c.dropLast := by
  obtain ⟨body, ⟨v, way, u, hway, hu, -, rfl⟩, rfl⟩ :=
    (Graph.mem_cycles_iff (Graph.build_wellFormed nodes edges)).mp hc
  refine ⟨v, way, _, hway, (Search.back_spec hu).1, ?_⟩
  rw [Search.dropLast_close]
  exact (Search.isRotated_rotate _ _).symm

/-- A cycle that is a part of a first way is reported. -/
theorem IsReport.mem_cycles {c way body : List NodeId} {v : NodeId} (hc : IsReport nodes edges c)
    (hway : (Graph.build nodes edges).IsFirstWay v way) (hpart : body <+: way)
    (hrotated : body ~r c.dropLast) : c ∈ (Graph.build nodes edges).cycles := by
  obtain ⟨body', hne, rfl, hchain, hcanonical⟩ := hc.exists_body
  rw [Search.dropLast_close] at hrotated
  have hne' : body ≠ [] := by
    rintro rfl
    exact hne (List.isRotated_nil_iff'.mp hrotated).symm
  have hnodup : body.Nodup := hrotated.nodup_iff.mpr hcanonical.nodup
  rw [← Cycle.coe_eq_coe.mpr hrotated] at hchain
  have hfirst := Graph.onFirstWay_rotate hway hpart hne' hnodup hchain
  -- Rotated to its first member in the node list, the part is the cycle that was to be found.
  have hids : body ⊆ (Graph.build nodes edges).ids := fun id hid =>
    hcanonical.ids (hrotated.mem_iff.mp hid)
  have hsame := (Search.canonical_rotate hnodup hids).eq_of_isRotated hcanonical
    ((Search.isRotated_rotate _ body).trans hrotated)
  rw [hsame] at hfirst
  exact (Graph.mem_cycles_iff (Graph.build_wellFormed nodes edges)).mpr ⟨body', hfirst, rfl⟩

/-- A cycle that has no edge in common with another is reported, for some edge of it is an edge
    of a reported one. -/
theorem IsReport.mem_cycles_of_separate {c : List NodeId} (hc : IsReport nodes edges c)
    (hseparate : ∀ c', IsReport nodes edges c' →
      (∃ u v, [u, v] <:+: c ∧ [u, v] <:+: c') → c' = c) :
    c ∈ (Graph.build nodes edges).cycles := by
  obtain ⟨body, hne, rfl, -, -⟩ := hc.exists_body
  have hlive := hc.live
  rw [← isDependency_build] at hlive
  obtain ⟨u, v, hstep, c', hc', hstep'⟩ :=
    Graph.exists_reported_of_chain (Graph.build_wellFormed nodes edges) hne hlive
  have heq := hseparate c' (isReport_of_mem_cycles hc') ⟨u, v, hstep, hstep'⟩
  exact heq ▸ hc'

/-- **A cycle is reported if the search comes along it.**  There is exactly one first way to every
    node.  Of the cycles of a snapshot, those are reported that are the newest part of a first
    way, with another beginning perhaps; among them are all that have no edge in common with
    another cycle. -/
theorem reported_iff_on_first_way (nodes : List Node) (edges : List Edge) :
    let g := Graph.build nodes edges
    (∀ n ∈ nodes, ∃! way, g.IsFirstWay n.id way) ∧
      (∀ c, c ∈ g.cycles ↔ IsReport nodes edges c ∧
        ∃ v way body, g.IsFirstWay v way ∧ body <+: way ∧ body ~r c.dropLast) ∧
      ∀ c, IsReport nodes edges c →
        (∀ c', IsReport nodes edges c' →
          (∃ u v, [u, v] <:+: c ∧ [u, v] <:+: c') → c' = c) → c ∈ g.cycles := by
  intro g
  refine ⟨fun n hn => ?_, fun c => ?_, fun c hc hseparate => hc.mem_cycles_of_separate hseparate⟩
  · -- The search comes to every node, and first ways are unique.
    have hid : n.id ∈ g.ids := Graph.mem_build_ids.mpr (List.mem_map_of_mem hn)
    obtain ⟨way, hway⟩ := Graph.exists_isFirstWay (Graph.build_wellFormed nodes edges) hid
    exact ⟨way, hway, fun way' hway' => hway'.unique hway⟩
  · constructor
    · intro hc
      exact ⟨isReport_of_mem_cycles hc, exists_firstWay_of_mem_cycles hc⟩
    · rintro ⟨hc, v, way, body, hway, hpart, hrotated⟩
      exact hc.mem_cycles hway hpart hrotated

/-- Two cycles through `a` and `b`, one of them by way of `c`. -/
def overlapping : List Node × List Edge :=
  ([⟨⟨"a"⟩, .unionAll⟩, ⟨⟨"b"⟩, .unionAll⟩, ⟨⟨"c"⟩, .unionAll⟩],
    [⟨none, ⟨"b"⟩, ⟨"a"⟩, none, none⟩, ⟨none, ⟨"c"⟩, ⟨"a"⟩, none, none⟩,
      ⟨none, ⟨"a"⟩, ⟨"b"⟩, none, none⟩, ⟨none, ⟨"b"⟩, ⟨"c"⟩, none, none⟩])

/-- The search comes to `b` first, so it does not come to it by way of `c` any more. -/
theorem overlapping_cycle_is_missed :
    let c : List NodeId := [⟨"a"⟩, ⟨"b"⟩, ⟨"c"⟩, ⟨"a"⟩]
    IsReport overlapping.1 overlapping.2 c ∧
      (Graph.build overlapping.1 overlapping.2).cycles = [[⟨"a"⟩, ⟨"b"⟩, ⟨"a"⟩]] ∧
      c ∉ (Graph.build overlapping.1 overlapping.2).cycles := by
  intro c
  refine ⟨⟨by decide, by decide, by decide, by decide, by decide⟩, by decide, by decide⟩

end QueryGraph
