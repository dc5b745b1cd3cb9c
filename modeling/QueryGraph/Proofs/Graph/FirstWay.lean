import QueryGraph.Proofs.Graph.Cycle

namespace QueryGraph

/-!
# The way on which the search comes to a node

* `Graph.ReachesPast`: one node leads to another along dependencies, past the nodes of a list.
* `Graph.IsFirstWay`: the way to a node on which every step is the first one that can still lead
  there, with `IsFirstWay.unique`.
* `Search.Greedy`: the third invariant of the search.  The choices that it has passed over are
  exhausted: all that they lead to, past the way, was visited and left.
* `Search.Greedy.isFirstWay`: so the way of the search is always the first way to its newest node.
* `Search.Greedy.step`: one step keeps the invariant.

Ways stand with their newest node first, as in the search.
-/

namespace Graph

variable {g : Graph} {u v : NodeId} {past older way : List NodeId}

/-! ### First ways -/

/-- What a way can begin or go on with: the nodes in the order of the node list, and then the
    dependencies of its newest node in edge order. -/
def choices (g : Graph) : List NodeId → List NodeId
  | [] => g.ids
  | newest :: _ => g.dependencies newest

/-- Dependencies lead from `u` to `v` past the nodes of a list. -/
def ReachesPast (g : Graph) (past : List NodeId) (u v : NodeId) : Prop :=
  u ∉ past ∧ Relation.ReflTransGen (fun a b => g.IsDependency b a ∧ b ∉ past) u v

open Classical in
/-- A way to `v` on which every node is the first choice at its place that leads to `v` past the
    older ones. -/
def IsFirstWay (g : Graph) (v : NodeId) (way : List NodeId) : Prop :=
  way.head? = some v ∧ ∀ u older, u :: older <:+ way →
    (g.choices older).find? (fun w => g.ReachesPast older w v) = some u

/-- What is reached past some nodes is none of them. -/
theorem ReachesPast.not_mem (h : g.ReachesPast past u v) : v ∉ past := by
  obtain ⟨hu, hwalk⟩ := h
  rcases Relation.ReflTransGen.cases_tail hwalk with rfl | ⟨w, -, -, hv⟩
  · exact hu
  · exact hv

/-- Every node of a chain of different nodes leads to the newest one past the older ones. -/
theorem reachesPast_of_suffix (hlinked : way.IsChain g.IsDependency) (hnodup : way.Nodup)
    (hv : way.head? = some v) (h : u :: older <:+ way) : g.ReachesPast older u v := by
  induction way generalizing v with
  | nil => simp at hv
  | cons newest rest ih =>
    obtain rfl : newest = v := by simpa using hv
    obtain ⟨hnew, hrest⟩ := List.nodup_cons.mp hnodup
    obtain ⟨hlink, hlinked'⟩ := List.isChain_cons.mp hlinked
    rcases List.suffix_cons_iff.mp h with heq | hsuffix
    · obtain ⟨rfl, rfl⟩ := List.cons.inj heq
      exact ⟨hnew, .refl⟩
    · -- What leads to the node below the newest one leads on to the newest one.
      obtain ⟨below, hbelow⟩ : ∃ below, rest.head? = some below := by
        rw [← Option.isSome_iff_exists, List.isSome_head?]
        exact List.ne_nil_of_mem (hsuffix.subset List.mem_cons_self)
      obtain ⟨hu, hwalk⟩ := ih hlinked' hrest hbelow hsuffix
      have hpast : newest ∉ older := fun hmem =>
        hnew (hsuffix.subset (List.mem_cons_of_mem u hmem))
      exact ⟨hu, hwalk.tail ⟨hlink below hbelow, hpast⟩⟩

/-- Every node of a first way leads to its end past the older ones. -/
theorem IsFirstWay.reachesPast (h : g.IsFirstWay v way) (hsuffix : u :: older <:+ way) :
    g.ReachesPast older u v := by
  have hfound := List.find?_some (h.2 u older hsuffix)
  simpa using hfound

/-- From a common part on, first ways to one node go on in the same way. -/
theorem IsFirstWay.append_unique {newer newer' : List NodeId}
    (h : g.IsFirstWay v (newer ++ older)) (h' : g.IsFirstWay v (newer' ++ older)) :
    newer = newer' := by
  -- The first steps after the common part are one choice; the induction is on what follows them.
  induction newer using List.reverseRecOn generalizing newer' older with
  | nil =>
    rcases List.eq_nil_or_concat' newer' with rfl | ⟨newer', u, rfl⟩
    · rfl
    · have hsuffix : u :: older <:+ newer' ++ [u] ++ older := ⟨newer', by simp⟩
      exact absurd (List.mem_of_mem_head? h.1) (h'.reachesPast hsuffix).not_mem
  | append_singleton newer u ih =>
    have hsuffix : u :: older <:+ newer ++ [u] ++ older := ⟨newer, by simp⟩
    rcases List.eq_nil_or_concat' newer' with rfl | ⟨newer', u', rfl⟩
    · exact absurd (List.mem_of_mem_head? h'.1) (h.reachesPast hsuffix).not_mem
    · have hu' := h'.2 u' older ⟨newer', by simp⟩
      obtain rfl : u = u' := Option.some.inj ((h.2 u older hsuffix).symm.trans hu')
      rw [List.append_assoc, List.singleton_append] at h h'
      rw [ih h h']

/-- There is at most one first way to a node. -/
theorem IsFirstWay.unique {way' : List NodeId} (h : g.IsFirstWay v way)
    (h' : g.IsFirstWay v way') : way = way' := by
  rw [← List.append_nil way] at h
  rw [← List.append_nil way'] at h'
  exact h.append_unique h'

end Graph

namespace Search

variable {g : Graph} {s t : Search} {v : Visit} {older rest : List Visit} {u w x : NodeId}

/-- What holds at every place of a list, with what stands behind it. -/
theorem forall_suffix_cons_iff {α : Type} {p : α → List α → Prop} {a : α} {l : List α} :
    (∀ b l', b :: l' <:+ a :: l → p b l') ↔ p a l ∧ ∀ b l', b :: l' <:+ l → p b l' := by
  constructor
  · intro h
    exact ⟨h a l (List.suffix_refl _), fun b l' hsuffix =>
      h b l' (hsuffix.trans (List.suffix_cons a l))⟩
  · rintro ⟨ha, hrest⟩ b l' hsuffix
    rcases List.suffix_cons_iff.mp hsuffix with heq | hsuffix
    · obtain ⟨rfl, rfl⟩ := List.cons.inj heq
      exact ha
    · exact hrest b l' hsuffix

/-! ### Exhausted choices -/

/-- A node was visited and left. -/
def Done (s : Search) (x : NodeId) : Prop := x ∈ s.visited ∧ x ∉ s.way

/-- To enter a new node leaves none. -/
theorem done_enter_iff (hnew : u ∉ s.visited) : (s.enter u).Done x ↔ s.Done x := by
  simp only [Done, Search.enter, List.mem_cons, not_or]
  constructor
  · rintro ⟨hvisited, hne, hway⟩
    exact ⟨hvisited.resolve_left hne, hway⟩
  · rintro ⟨hvisited, hway⟩
    exact ⟨Or.inr hvisited, fun he => hnew (he ▸ hvisited), hway⟩

theorem Done.leave {id : NodeId} (h : s.Done x) : (s.leave id).Done x :=
  ⟨h.1, fun hmem => h.2 (List.mem_of_mem_drop hmem)⟩

/-- Only the newest node is left by a step that leaves it. -/
theorem done_of_leave (hway : s.way = v.node :: older.map Visit.node)
    (h : (s.leave v.node).Done x) : x = v.node ∨ s.Done x := by
  obtain ⟨hvisited, hnot⟩ := h
  simp only [Search.leave, hway, List.drop_one, List.tail_cons] at hnot
  by_cases hx : x = v.node
  · exact Or.inl hx
  · refine Or.inr ⟨hvisited, ?_⟩
    rw [hway, List.mem_cons, not_or]
    exact ⟨hx, hnot⟩

/-- All that a node leads to past the nodes of a list was visited and left. -/
def Exhausted (g : Graph) (s : Search) (past : List NodeId) (w : NodeId) : Prop :=
  ∀ x, g.ReachesPast past w x → s.Done x

/-- A choice stays exhausted when more nodes are left. -/
theorem Exhausted.mono {past : List NodeId} (h : s.Exhausted g past w)
    (hle : ∀ x, s.Done x → t.Done x) : t.Exhausted g past w :=
  fun x hx => hle x (h x hx)

/-- A choice that is exhausted, or on the way, was visited. -/
theorem Exhausted.mem_visited (h : s.Exhausted g s.way w) (hsound : s.Sound g) :
    w ∈ s.visited := by
  by_cases hway : w ∈ s.way
  · exact hsound.way_visited hway
  · exact (h w ⟨hway, .refl⟩).1

/-- The node `u` was entered above the frames `older`: it is one of the choices there, those
    before it are exhausted, and the frame below goes on with those behind it. -/
def Entered (g : Graph) (s : Search) (older : List Visit) (u : NodeId) : Prop :=
  ∃ l₁ l₂, g.choices (older.map Visit.node) = l₁ ++ u :: l₂ ∧
    (∀ w ∈ l₁, s.Exhausted g (older.map Visit.node) w) ∧
    ∀ v ∈ older.head?, v.next = l₁.length + 1

/-- The node of every frame was entered above the frames below it. -/
def Trail (g : Graph) (s : Search) (frames : List Visit) : Prop :=
  ∀ v older, v :: older <:+ frames → s.Entered g older v.node

theorem trail_nil : s.Trail g [] := by
  intro v older h
  simp at h

theorem trail_cons : s.Trail g (v :: older) ↔ s.Entered g older v.node ∧ s.Trail g older :=
  forall_suffix_cons_iff

/-- A trail stays one when more nodes are left, since its choices stay exhausted. -/
theorem Trail.mono {frames : List Visit} (h : s.Trail g frames)
    (hle : ∀ x, s.Done x → t.Done x) : t.Trail g frames := by
  intro v older hsuffix
  obtain ⟨l₁, l₂, hsplit, hl₁, hnext⟩ := h v older hsuffix
  exact ⟨l₁, l₂, hsplit, fun w hw => (hl₁ w hw).mono hle, hnext⟩

/-! ### The invariant -/

/-- What was left leads to visited nodes only, the newest node has exhausted the dependencies
    that it has looked at, and every node on the way was entered when the choices before it were
    exhausted. -/
structure Greedy (g : Graph) (s : Search) : Prop where
  settled : ∀ y, s.Done y → g.dependencies y ⊆ s.visited
  newest : ∀ v ∈ s.frames.head?, ∀ w ∈ (g.dependencies v.node).take v.next, s.Exhausted g s.way w
  trail : s.Trail g s.frames

/-- Before the search no choice was passed over. -/
theorem start_greedy (g : Graph) : start.Greedy g :=
  ⟨fun _ h => absurd h.1 List.not_mem_nil, by simp [start], trail_nil⟩

/-- If what was left leads to visited nodes only, a visited node leads, past the way, to nodes
    only that were left. -/
theorem exhausted_of_settled (hsettled : ∀ y, s.Done y → g.dependencies y ⊆ s.visited)
    (hw : w ∈ s.visited) : s.Exhausted g s.way w := by
  rintro x ⟨hnot, hwalk⟩
  induction hwalk with
  | refl => exact ⟨hw, hnot⟩
  | tail _ hstep ih => exact ⟨hsettled _ ih hstep.1, hstep.2⟩

/-- The way of the search is the first way to its newest node. -/
theorem Greedy.isFirstWay (h : s.Greedy g) (hsound : s.Sound g) (hv : s.way.head? = some u) :
    g.IsFirstWay u s.way := by
  classical
  refine ⟨hv, fun u' older hsuffix => ?_⟩
  have hreach := Graph.reachesPast_of_suffix hsound.linked hsound.nodup hv hsuffix
  -- Each place of the way is that of a frame, which was entered after the choices before it.
  obtain ⟨_ | ⟨x, frames⟩, hframes, hmap⟩ := List.suffix_map_iff.mp (hsound.way_eq ▸ hsuffix)
  · simp at hmap
  · obtain ⟨rfl, rfl⟩ := List.cons.inj hmap
    obtain ⟨l₁, l₂, hsplit, hl₁, -⟩ := h.trail x frames hframes
    rw [List.find?_eq_some_iff_append]
    refine ⟨decide_eq_true hreach, l₁, l₂, hsplit, fun w hw => ?_⟩
    -- An exhausted choice does not lead to the newest node, which was not left.
    have hnot : ¬ g.ReachesPast (frames.map Visit.node) w u := fun hw' =>
      (hl₁ w hw u hw').2 (List.mem_of_mem_head? hv)
    simpa using hnot

/-! ### Steps -/

/-- Entering a new node above frames that were entered in order themselves. -/
theorem Greedy.enter {frames : List Visit} (h : s.Greedy g) (hnew : u ∉ s.visited)
    (hu : s.Entered g frames u) (htrail : s.Trail g frames) :
    Greedy g { s.enter u with frames := ⟨u, 0⟩ :: frames } where
  settled := by
    intro y hy
    have hdone := (done_enter_iff hnew).mp hy
    exact List.Subset.trans (h.settled y hdone) (List.subset_cons_self u s.visited)
  newest := by simp
  trail := by
    have hle : ∀ x, s.Done x → (s.enter u).Done x := fun x => (done_enter_iff hnew).mpr
    have hall : s.Trail g (⟨u, 0⟩ :: frames) := trail_cons.mpr ⟨hu, htrail⟩
    exact hall.mono hle

/-- Marking a dependency of the newest frame as looked at, once it was visited. -/
theorem Greedy.look (h : s.Greedy g) (hframes : s.frames = v :: rest)
    (hu : (g.dependencies v.node)[v.next]? = some u) (hvisited : u ∈ s.visited) :
    Greedy g { s with frames := ⟨v.node, v.next + 1⟩ :: rest } where
  settled := h.settled
  newest := by
    intro v' hv' w hw
    obtain rfl := Option.some.inj hv'
    rw [List.take_add_one, hu, List.mem_append] at hw
    rcases hw with hw | hw
    · exact h.newest v (by rw [hframes]; rfl) w hw
    · obtain rfl : w = u := by simpa using hw
      exact exhausted_of_settled h.settled hvisited
  trail := by
    have htrail := h.trail
    rw [hframes, trail_cons] at htrail
    exact trail_cons.mpr htrail

/-- Going on from the newest frame to a dependency that was not visited. -/
theorem Greedy.descend (h : s.Greedy g) (hsound : s.Sound g) (hframes : s.frames = v :: rest)
    (hu : (g.dependencies v.node)[v.next]? = some u) (hnew : u ∉ s.visited) :
    Greedy g { s.enter u with frames := ⟨u, 0⟩ :: ⟨v.node, v.next + 1⟩ :: rest } := by
  have htrail := h.trail
  rw [hframes, trail_cons] at htrail
  obtain ⟨hlt, hget⟩ := List.getElem?_eq_some_iff.mp hu
  refine h.enter hnew ?_ (trail_cons.mpr htrail)
  -- The choices before `u` are the dependencies that the newest frame has looked at.
  refine ⟨(g.dependencies v.node).take v.next, (g.dependencies v.node).drop (v.next + 1),
    ?_, fun w hw => ?_, ?_⟩
  · show g.dependencies v.node = _
    rw [← hget, ← List.drop_eq_getElem_cons hlt, List.take_append_drop]
  · have hexhausted := h.newest v (by rw [hframes]; rfl) w hw
    rwa [hsound.way_cons hframes] at hexhausted
  · intro v' hv'
    obtain rfl := Option.some.inj hv'
    simp only [List.length_take]
    omega

/-- Leaving the newest node: what it was chosen from is then exhausted up to it. -/
theorem Greedy.leave (h : s.Greedy g) (hsound : s.Sound g) (hframes : s.frames = v :: rest)
    (hdone : (g.dependencies v.node)[v.next]? = none) : (s.leave v.node).Greedy g := by
  have hway := hsound.way_cons hframes
  have hway' : (s.leave v.node).way = rest.map Visit.node := by simp [Search.leave, hway]
  have hframes' : (s.leave v.node).frames = rest := by simp [Search.leave, hframes]
  have htrail := h.trail
  rw [hframes, trail_cons] at htrail
  obtain ⟨⟨l₁, l₂, hsplit, hl₁, hnext⟩, hrest⟩ := htrail
  have hle : ∀ x, s.Done x → (s.leave v.node).Done x := fun x hx => hx.leave
  -- The newest node has looked at all its dependencies, so they were visited.
  have hsettled : ∀ y, (s.leave v.node).Done y → g.dependencies y ⊆ s.visited := by
    intro y hy x hx
    rcases done_of_leave hway hy with rfl | hy
    · rw [← List.take_of_length_le (List.getElem?_eq_none_iff.mp hdone)] at hx
      exact (h.newest v (by rw [hframes]; rfl) x hx).mem_visited hsound
    · exact h.settled y hy hx
  refine ⟨hsettled, fun v' hv' w hw => ?_, ?_⟩
  · -- The frame below has looked at what was exhausted before, and at the node that is left now.
    rw [hframes'] at hv'
    rw [hway']
    obtain ⟨below, rfl⟩ := List.head?_eq_some_iff.mp hv'
    have hsplit' : g.dependencies v'.node = l₁ ++ v.node :: l₂ := hsplit
    rw [hnext v' rfl, hsplit', List.take_length_add_append, List.mem_append] at hw
    rcases hw with hw | hw
    · exact (hl₁ w hw).mono hle
    · obtain rfl : w = v.node := by simpa using hw
      have hvisited : v.node ∈ s.visited :=
        hsound.way_visited (by rw [hway]; exact List.mem_cons_self)
      exact hway' ▸ exhausted_of_settled (s := s.leave v.node) hsettled hvisited
  · rw [hframes']
    exact hrest.mono hle

/-- Only the visited nodes, the way and the frames matter. -/
theorem Greedy.congr (h : s.Greedy g) (hvisited : t.visited = s.visited) (hway : t.way = s.way)
    (hframes : t.frames = s.frames) : t.Greedy g := by
  have hle : ∀ x, s.Done x → t.Done x := by
    intro x hx
    rwa [Done, hvisited, hway]
  refine ⟨fun y hy => ?_, fun v hv w hw => ?_, ?_⟩
  · rw [Done, hvisited, hway] at hy
    exact hvisited ▸ h.settled y hy
  · rw [hway]
    exact (h.newest v (hframes ▸ hv) w hw).mono hle
  · rw [hframes]
    exact h.trail.mono hle

/-- **One step keeps the choices passed over exhausted.** -/
theorem Greedy.step (h : s.Greedy g) (hsound : s.Sound g) : (s.step g).Greedy g := by
  cases hframes : s.frames with
  | nil => simpa [Search.step, hframes] using h
  | cons v rest =>
    rcases step_cases (g := g) hframes with ⟨hdone, heq⟩ | ⟨u, hu, hcase⟩
    · rw [heq]
      exact h.leave hsound hframes hdone
    · rcases hcase with ⟨hon, heq⟩ | ⟨-, hvisited, heq⟩ | ⟨-, hnew, heq⟩
      · -- What is recorded does not matter here.
        have hvisited := hsound.way_visited ((hsound.onWay_iff u).mp hon)
        rw [heq]
        exact (h.look hframes hu hvisited).congr (visited_record g u s) (way_record g u s) rfl
      · rw [heq]
        exact h.look hframes hu hvisited
      · rw [heq]
        exact h.descend hsound hframes hu hnew

/-- A search that has come to its end goes on from the next root, for those before were visited. -/
theorem Greedy.enter_root {root : NodeId} {roots roots' : List NodeId} (h : s.Greedy g)
    (hsound : s.Sound g) (hframes : s.frames = []) (hids : g.ids = roots ++ root :: roots')
    (hroots : roots ⊆ s.visited) (hnew : root ∉ s.visited) : (s.enter root).Greedy g := by
  have hway : s.way = [] := by rw [hsound.way_eq, hframes, List.map_nil]
  have hentered : s.Entered g [] root := by
    refine ⟨roots, roots', hids, fun w hw => ?_, by simp⟩
    have hexhausted := exhausted_of_settled h.settled (hroots hw)
    rwa [hway] at hexhausted
  have henter := h.enter hnew hentered trail_nil
  rwa [← hframes] at henter

end Search

end QueryGraph
