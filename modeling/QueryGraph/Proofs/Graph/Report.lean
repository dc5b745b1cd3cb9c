import QueryGraph.Proofs.Graph.Cycle

namespace QueryGraph

open scoped List

/-!
# What a reported cycle looks like

* `Search.minIndex_spec`, `Search.rotate_spec`: a rotated cycle starts with its first member in
  the node list.
* `Search.Canonical`: a list of different nodes that starts like that, with
  `Canonical.eq_of_isRotated`: two of them that are one cycle are one list.
* `Search.Tidy`: the second invariant of the search.  All recorded bodies are canonical, and none
  is recorded twice.
* `Search.Tidy.step`: one step keeps it, and so all steps do (`Search.search_induct`).
* `reported_cycles_canonical`: the cycles of a snapshot are closed walks of live edges without
  repetition, each with a fixed beginning, and no cycle is among them twice.
-/

/-! ### The first member -/

/-- The position of a node in the node list, as rotation looks it up, is that of its id. -/
theorem Graph.index?_getD (g : Graph) (id : NodeId) :
    (g.index? id).getD g.size = g.ids.idxOf id := by
  have hfind : g.ids.findIdx (· = id) = g.ids.idxOf id := rfl
  rw [index?, List.findIdx?_eq_guard_findIdx_lt, hfind, ← length_ids]
  by_cases hid : id ∈ g.ids
  · simp [List.idxOf_lt_length_of_mem hid]
  · simp [List.idxOf_eq_length hid, Option.guard]

namespace Search

/-- The smallest number stands at its position. -/
theorem minIndex_spec {ns : List Nat} (hne : ns ≠ []) :
    ∃ n, ns[minIndex ns]? = some n ∧ ∀ m ∈ ns, n ≤ m := by
  induction ns with
  | nil => exact absurd rfl hne
  | cons n rest ih =>
    unfold minIndex
    -- The head is kept unless a smaller number stands behind it.
    by_cases hall : rest.all (n ≤ ·) = true
    · refine ⟨n, by rw [if_pos hall]; rfl, List.forall_mem_cons.mpr ⟨Nat.le_refl n, ?_⟩⟩
      simpa using hall
    · -- Some number behind is smaller, so the smallest one of those is the smallest of all.
      obtain ⟨m, hm, hlt⟩ : ∃ m ∈ rest, m < n := by simpa using hall
      obtain ⟨least, hleast, hle⟩ := ih (List.ne_nil_of_mem hm)
      have hleast_m := hle m hm
      refine ⟨least, ?_, List.forall_mem_cons.mpr ⟨by omega, hle⟩⟩
      rw [if_neg hall, List.getElem?_cons_succ]
      exact hleast

/-- A cycle is rotated to start with its first member in the node list. -/
theorem rotate_spec (g : Graph) {members : List NodeId} (hne : members ≠ []) :
    ∃ first, (rotate g members).head? = some first ∧
      ∀ id ∈ members, g.ids.idxOf first ≤ g.ids.idxOf id := by
  simp only [rotate, Graph.index?_getD]
  have hpositions : members.map g.ids.idxOf ≠ [] := mt List.map_eq_nil_iff.mp hne
  obtain ⟨n, hn, hle⟩ := minIndex_spec hpositions
  rw [List.getElem?_map, Option.map_eq_some_iff] at hn
  obtain ⟨first, hfirst, rfl⟩ := hn
  refine ⟨first, ?_, fun id hid => hle _ (List.mem_map_of_mem hid)⟩
  rw [List.head?_append, List.head?_drop, hfirst]
  rfl

/-! ### Canonical lists -/

/-- Different nodes of the graph, starting with the first of them in the node list. -/
structure Canonical (g : Graph) (body : List NodeId) : Prop where
  nodup : body.Nodup
  ids : body ⊆ g.ids
  least : ∀ first ∈ body.head?, ∀ id ∈ body, g.ids.idxOf first ≤ g.ids.idxOf id

variable {g : Graph} {s : Search}

theorem isRotated_rotate (g : Graph) (members : List NodeId) : rotate g members ~r members :=
  Cycle.coe_eq_coe.mp (coe_rotate g members)

/-- Different nodes of the graph, rotated, are canonical. -/
theorem canonical_rotate {members : List NodeId} (hnodup : members.Nodup)
    (hids : members ⊆ g.ids) : Canonical g (rotate g members) := by
  have hrotated := isRotated_rotate g members
  refine ⟨hrotated.nodup_iff.mpr hnodup, fun id hid => hids (hrotated.mem_iff.mp hid), ?_⟩
  intro first hfirst id hid
  have hid' := hrotated.mem_iff.mp hid
  obtain ⟨first', hfirst', hle⟩ := rotate_spec g (List.ne_nil_of_mem hid')
  obtain rfl : first' = first := Option.some.inj (hfirst'.symm.trans hfirst)
  exact hle id hid'

/-- Different items that are rotated back to the same beginning are rotated all the way. -/
theorem eq_of_isRotated_of_head? {l l' : List NodeId} (hnodup : l.Nodup) (h : l ~r l')
    (hhead : l.head? = l'.head?) : l = l' := by
  obtain ⟨n, hn, rfl⟩ := List.isRotated_iff_mod.mp h
  rcases Nat.eq_or_lt_of_le hn with rfl | hlt
  · rw [List.rotate_length]
  · rw [List.head?_rotate hlt, List.head?_eq_getElem?] at hhead
    obtain rfl := (List.getElem?_inj (by omega) hnodup).mp hhead
    rw [List.rotate_zero]

/-- Canonical lists of one cycle start with the same member. -/
theorem Canonical.eq_of_isRotated {body body' : List NodeId} (h : Canonical g body)
    (h' : Canonical g body') (hrotated : body ~r body') : body = body' := by
  refine eq_of_isRotated_of_head? h.nodup hrotated ?_
  cases hfirst : body.head? with
  | none =>
    obtain rfl := List.head?_eq_none_iff.mp hfirst
    rw [← List.isRotated_nil_iff'.mp hrotated, List.head?_nil]
  | some first =>
    have hmem : first ∈ body := List.mem_of_mem_head? hfirst
    obtain ⟨first', hfirst'⟩ := Option.ne_none_iff_exists'.mp
      (mt List.head?_eq_none_iff.mp (List.ne_nil_of_mem (hrotated.mem_iff.mp hmem)))
    -- Each of the two stands no later in the node list than the other.
    have hle := h.least first hfirst first' (hrotated.mem_iff.mpr (List.mem_of_mem_head? hfirst'))
    have hge := h'.least first' hfirst' first (hrotated.mem_iff.mp hmem)
    have heq := (List.idxOf_inj (h.ids hmem)).mp (Nat.le_antisymm hle hge)
    rw [hfirst', heq]

/-! ### The invariant -/

/-- Recorded bodies are canonical, and different from each other. -/
structure Tidy (g : Graph) (s : Search) : Prop where
  nodup : s.bodies.Nodup
  canonical : ∀ body ∈ s.bodies, Canonical g body

theorem start_tidy (g : Graph) : start.Tidy g :=
  ⟨List.nodup_nil, List.forall_mem_nil _⟩

/-- Only the recorded bodies matter. -/
theorem Tidy.congr {t : Search} (h : s.Tidy g) (hbodies : t.bodies = s.bodies) : t.Tidy g :=
  ⟨hbodies ▸ h.nodup, hbodies ▸ h.canonical⟩

/-- What is recorded is a rotated part of the way, and only if it was not recorded before. -/
theorem Tidy.record (h : s.Tidy g) (hsound : s.Sound g) (closing : NodeId) :
    (s.record g closing).Tidy g := by
  unfold Search.record
  split
  next hclosing =>
    dsimp only
    split
    next => exact h
    next hknown =>
      have hsub := (back_spec hclosing).1
      have hids : back s.way closing ⊆ g.ids := fun id hid =>
        hsound.visited_ids (hsound.way_visited (hsub.subset hid))
      -- The way is without repetition, and so is the part of it that is rotated.
      exact ⟨List.nodup_cons.mpr ⟨hknown, h.nodup⟩, List.forall_mem_cons.mpr
        ⟨canonical_rotate (hsub.sublist.nodup hsound.nodup) hids, h.canonical⟩⟩
  next => exact h

/-- **One step keeps the recorded bodies canonical and different.** -/
theorem Tidy.step (h : s.Tidy g) (hsound : s.Sound g) : (s.step g).Tidy g := by
  cases hframes : s.frames with
  | nil => simpa [Search.step, hframes] using h
  | cons v rest =>
    -- Bodies are recorded only where a dependency on the way is looked at.
    rcases step_cases (g := g) hframes with ⟨-, heq⟩ | ⟨u, -, ⟨-, heq⟩ | ⟨-, -, heq⟩ | ⟨-, -, heq⟩⟩
    · rw [heq]
      exact h.congr rfl
    · rw [heq]
      exact (h.record hsound u).congr rfl
    · rw [heq]
      exact h.congr rfl
    · rw [heq]
      exact h.congr rfl

/-! ### Closed lists -/

/-- A closed list without its last node is the list that was closed. -/
theorem dropLast_close (body : List NodeId) : (close body).dropLast = body := by
  cases body with
  | nil => rfl
  | cons id rest =>
    show ((id :: rest) ++ [id]).dropLast = id :: rest
    rw [List.dropLast_concat]

end Search

/-- The cycles of a graph are the closed lists of different canonical ones. -/
theorem Graph.exists_bodies {g : Graph} (hg : g.WellFormed) :
    ∃ bodies : List (List NodeId), g.cycles = bodies.map Search.close ∧ bodies.Nodup ∧
      ∀ body ∈ bodies, body ≠ [] ∧ (body : Cycle NodeId).Chain g.IsDependency ∧
        Search.Canonical g body := by
  obtain ⟨hsound, -, -⟩ :=
    Search.foldl_explore_sound hg (List.Subset.refl g.ids) (Search.start_sound g) rfl
  have htidy : (g.ids.foldl (Search.explore g) Search.start).Tidy g :=
    Search.search_induct hg (Search.start_tidy g) (fun _ _ _ _ _ h => h.congr rfl)
      fun hsound h => h.step hsound
  set s := g.ids.foldl (Search.explore g) Search.start with hs
  refine ⟨s.bodies.reverse, ?_, List.nodup_reverse.mpr htidy.nodup, fun body hbody => ?_⟩
  · rw [cycles, ← hs, hsound.found_eq, List.map_reverse]
  · rw [List.mem_reverse] at hbody
    obtain ⟨hne, hchain⟩ := hsound.genuine body hbody
    exact ⟨hne, hchain, htidy.canonical body hbody⟩

/-! ### The cycles of a snapshot -/

/-- A cycle as it is reported: it ends with its first node, repeats no other, follows live edges,
    and starts with the member that comes first in the node list. -/
structure IsReport (nodes : List Node) (edges : List Edge) (c : List NodeId) : Prop where
  two_le_length : 2 ≤ c.length
  closed : c.head? = c.getLast?
  nodup : c.dropLast.Nodup
  live : c.IsChain (Feeds nodes edges)
  least : ∀ first ∈ c.head?, ∀ id ∈ c,
    (nodes.map Node.id).idxOf first ≤ (nodes.map Node.id).idxOf id

variable {nodes : List Node} {edges : List Edge}

/-- A canonical cycle of live edges, closed, is a cycle as it is reported. -/
theorem Search.Canonical.isReport {body : List NodeId}
    (h : Canonical (Graph.build nodes edges) body) (hne : body ≠ [])
    (hchain : (body : Cycle NodeId).Chain (Graph.build nodes edges).IsDependency) :
    IsReport nodes edges (close body) := by
  obtain ⟨first, rest, rfl⟩ := List.exists_cons_of_ne_nil hne
  have hids : ∀ id ∈ close (first :: rest), id ∈ nodes.map Node.id := fun id hid =>
    Graph.mem_build_ids.mp (h.ids (mem_close.mp hid))
  refine ⟨?_, ?_, by rw [dropLast_close]; exact h.nodup, ?_, fun first' hfirst' id hid => ?_⟩
  · simp [close_eq]
  · show some first = ((first :: rest) ++ [first]).getLast?
    rw [List.getLast?_concat]
  · rw [Cycle.chain_coe_cons, isDependency_build] at hchain
    exact hchain
  · -- The graph lists the nodes by first occurrence, so its positions compare as those of the node
    -- list.
    obtain rfl : first = first' := Option.some.inj hfirst'
    have hle := h.least first rfl id (mem_close.mp hid)
    have hfirst : first ∈ nodes.map Node.id := hids first List.mem_cons_self
    exact Nat.not_lt.mp fun hlt =>
      Nat.not_lt.mpr hle ((Graph.idxOf_build_ids_lt_iff (hids id hid) hfirst).mpr hlt)

/-- The converse: a cycle as it is reported is the closed list of a canonical one. -/
theorem IsReport.exists_body {c : List NodeId} (h : IsReport nodes edges c) :
    ∃ body, body ≠ [] ∧ c = Search.close body ∧
      (body : Cycle NodeId).Chain (Graph.build nodes edges).IsDependency ∧
      Search.Canonical (Graph.build nodes edges) body := by
  have hlength := h.two_le_length
  have hne : c ≠ [] := List.ne_nil_of_length_pos (by omega)
  obtain ⟨first, rest, rfl⟩ := List.exists_cons_of_ne_nil hne
  -- What has two nodes or more ends with the one that it starts with.
  rcases List.eq_nil_or_concat' rest with rfl | ⟨rest, last, rfl⟩
  · simp at hlength
  have hbody : (first :: (rest ++ [last])).dropLast = first :: rest := by
    rw [← List.cons_append, List.dropLast_concat]
  obtain rfl : first = last := by
    have hclosed := h.closed
    rw [← List.cons_append, List.getLast?_concat] at hclosed
    exact Option.some.inj hclosed
  have hchain : ((first :: rest : List NodeId) : Cycle NodeId).Chain
      (Graph.build nodes edges).IsDependency := by
    rw [Cycle.chain_coe_cons, isDependency_build]
    exact h.live
  have hids : first :: rest ⊆ (Graph.build nodes edges).ids := by
    intro id hid
    -- Every member of the cycle leads back to itself, so some node depends on it.
    have hall := Cycle.chain_iff_pairwise.mp (hchain.imp fun _ _ => Relation.TransGen.single)
    obtain ⟨v, hdep, -⟩ := Relation.TransGen.head'_iff.mp (hall id hid id hid)
    exact (Graph.build_wellFormed nodes edges).dependency_mem hdep
  refine ⟨first :: rest, List.cons_ne_nil _ _, rfl, hchain, hbody ▸ h.nodup, hids, ?_⟩
  intro first' hfirst' id hid
  obtain rfl : first = first' := Option.some.inj hfirst'
  have hle := h.least first rfl id (Search.mem_close.mpr hid)
  have hmem := Graph.mem_build_ids.mp (hids hid)
  have hfirst := Graph.mem_build_ids.mp (hids List.mem_cons_self)
  exact Nat.not_lt.mp fun hlt =>
    Nat.not_lt.mpr hle ((Graph.idxOf_build_ids_lt_iff hmem hfirst).mp hlt)

/-- **Reported cycles are canonical.**  Every one of them is a closed walk of live edges that
    repeats no node but the first, which comes first of all members in the node list; and no two
    of them are equal or one cycle with another beginning. -/
theorem reported_cycles_canonical (nodes : List Node) (edges : List Edge) :
    let found := (Graph.build nodes edges).cycles
    (∀ c ∈ found, IsReport nodes edges c) ∧
      found.Pairwise fun c c' => c ≠ c' ∧ ¬ c.dropLast ~r c'.dropLast := by
  intro found
  obtain ⟨bodies, hfound, hnodup, hbodies⟩ :=
    Graph.exists_bodies (Graph.build_wellFormed nodes edges)
  rw [show found = bodies.map Search.close from hfound]
  refine ⟨fun c hc => ?_, ?_⟩
  · obtain ⟨body, hbody, rfl⟩ := List.mem_map.mp hc
    obtain ⟨hne, hchain, hcanonical⟩ := hbodies body hbody
    exact hcanonical.isReport hne hchain
  · rw [List.pairwise_map]
    refine hnodup.imp_of_mem fun {body body'} hbody hbody' hdiff => ?_
    -- Were one of them the other rotated, both would be the same canonical list.
    have hrotated : ¬ body ~r body' := fun hrotated =>
      hdiff ((hbodies body hbody).2.2.eq_of_isRotated (hbodies body' hbody').2.2 hrotated)
    rw [Search.dropLast_close, Search.dropLast_close]
    refine ⟨fun heq => hrotated ?_, hrotated⟩
    rw [← Search.dropLast_close body, heq, Search.dropLast_close]

end QueryGraph
