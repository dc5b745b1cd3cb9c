import QueryGraph.Proofs.Plan.Success

namespace QueryGraph

/-!
# What becomes of a node depends on its ancestors only

* `wiring`: the sources of the live edges into a node, with the handles of these edges.
* `SharedPart`: a set of nodes that two snapshots have in common, with all that feeds them.
* `SharedPart.has`: solutions of the two snapshots have the same outcomes on such a set.
* `outcome_depends_on_ancestors`: the same for plans, and for a node and its ancestors.
-/

/-- The sources of the live edges into a node, in edge order, each with the handle at which its
    edge ends. -/
def wiring (nodes : List Node) (edges : List Edge) (id : NodeId) :
    List (NodeId × Option String) :=
  (liveInto nodes edges id).map fun e => (e.source, e.targetHandle)

/-- Nodes that are the same in two snapshots, that are fed only by each other, and that are fed
    in the same way in both. -/
structure SharedPart (nodes nodes' : List Node) (edges edges' : List Edge)
    (part : Set NodeId) : Prop where
  node : ∀ id ∈ part, ∃ n, Node.find? nodes id = some n ∧ Node.find? nodes' id = some n
  closed : ∀ id ∈ part, ∀ e ∈ liveInto nodes edges id, e.source ∈ part
  wiring_eq : ∀ id ∈ part, wiring nodes edges id = wiring nodes' edges' id

variable {settings : Settings} {context : Context} {nodes nodes' : List Node}
  {edges edges' : List Edge}

/-- Edges count for a plan by their sources and the handles at which they end. -/
theorem Plan.due_eq_of_wiring (p : Plan) (n : Node) {into into' : List Edge}
    (h : (into.map fun e => (e.source, e.targetHandle))
      = into'.map fun e => (e.source, e.targetHandle)) :
    p.outcomes.due settings context n into = p.outcomes.due settings context n into' := by
  have hdue : ∀ l : List Edge,
      Progress.outcome settings context ⟨p.outputs, p.errors⟩ n
          (l.map fun e => (e.source, e.targetHandle))
        = p.outcomes.due settings context n l := Progress.outcome_eq_due _ n
  exact (hdue into).symm.trans ((congrArg _ h).trans (hdue into'))

/-- A source of an edge into the shared part is fed before the node it leads to, so it has the
    same outcome in both plans when the node is reached. -/
theorem SharedPart.has {part : Set NodeId} (hpart : SharedPart nodes nodes' edges edges' part)
    (hacyclic : Acyclic nodes edges) {p p' : Plan}
    (h : Solves settings context nodes edges p.outcomes)
    (h' : Solves settings context nodes' edges' p'.outcomes) {id : NodeId} (hid : id ∈ part) :
    ∃ r, p.outcomes.Has id r ∧ p'.outcomes.Has id r := by
  -- The induction goes along the edges of the first snapshot, whose part is closed under them.
  induction id using (wellFounded_feeds_iff.mpr hacyclic).induction with
  | _ id ih =>
    obtain ⟨n, hn, hn'⟩ := hpart.node id hid
    have hsources : ∀ e ∈ liveInto nodes edges id, p.outcomes.SameAt p'.outcomes e.source := by
      intro e he
      obtain ⟨r, hr, hr'⟩ :=
        ih e.source (feeds_iff.mpr ⟨e, he, rfl⟩) (hpart.closed id hid e he)
      exact hr.sameAt hr'
    have hdue : p.outcomes.due settings context n (liveInto nodes edges id)
        = p'.outcomes.due settings context n (liveInto nodes' edges' id) :=
      (Outcomes.due_congr settings context n _ fun e he => (hsources e he).agreeAt).trans
        (p'.due_eq_of_wiring n (hpart.wiring_eq id hid))
    exact ⟨_, h.has id n hn, hdue ▸ h'.has id n hn'⟩

/-- The ancestors of a node, itself among them, are a shared part if they are the same nodes in
    both snapshots and fed in the same way. -/
theorem SharedPart.ancestors {v : NodeId}
    (h : ∀ u, Relation.ReflTransGen (Feeds nodes edges) u v →
      (∃ n, Node.find? nodes u = some n ∧ Node.find? nodes' u = some n) ∧
        wiring nodes edges u = wiring nodes' edges' u) :
    SharedPart nodes nodes' edges edges' {u | Relation.ReflTransGen (Feeds nodes edges) u v} where
  node u hu := (h u hu).1
  closed _ hu e he := .head (feeds_iff.mpr ⟨e, he, rfl⟩) hu
  wiring_eq u hu := (h u hu).2

/-- **What becomes of a node depends on its ancestors only.**  Two plans that are not abandoned
    have the same fragment or the same failure for every node of a part that their snapshots
    share.  So no change to nodes and edges that do not belong to the ancestors of a node
    changes what becomes of it. -/
theorem outcome_depends_on_ancestors (settings : Settings) (context : Context)
    (nodes nodes' : List Node) (edges edges' : List Edge)
    (hfatal : (compile settings nodes edges context).stage ≠ .fatal)
    (hfatal' : (compile settings nodes' edges' context).stage ≠ .fatal) :
    let p := compile settings nodes edges context
    let p' := compile settings nodes' edges' context
    (∀ part, SharedPart nodes nodes' edges edges' part →
        ∀ id ∈ part, ∃ r, p.outcomes.Has id r ∧ p'.outcomes.Has id r) ∧
      ∀ v, (∀ u, Relation.ReflTransGen (Feeds nodes edges) u v →
          (∃ n, Node.find? nodes u = some n ∧ Node.find? nodes' u = some n) ∧
            wiring nodes edges u = wiring nodes' edges' u) →
        ∃ r, p.outcomes.Has v r ∧ p'.outcomes.Has v r := by
  intro p p'
  have hacyclic := acyclic_of_not_fatal hfatal
  have h := solves_compile settings context hacyclic
  have h' := solves_compile settings context (acyclic_of_not_fatal hfatal')
  refine ⟨fun part hpart id hid => hpart.has hacyclic h h' hid, fun v hv => ?_⟩
  exact (SharedPart.ancestors hv).has hacyclic h h' .refl

/-- A union in other surroundings than those of the fork: a view of it, a second node under the
    id of the event, and an edge to nowhere. -/
def forkRewired : List Node × List Edge :=
  ([⟨⟨"event"⟩, .event ⟨none, []⟩⟩, ⟨⟨"view"⟩, .output ⟨none⟩⟩, ⟨⟨"union"⟩, .unionAll⟩,
      ⟨⟨"event"⟩, .unionAll⟩],
    [⟨none, ⟨"union"⟩, ⟨"view"⟩, none, none⟩, ⟨none, ⟨"event"⟩, ⟨"union"⟩, none, none⟩,
      ⟨none, ⟨"union"⟩, ⟨"gone"⟩, none, none⟩,
      ⟨some ⟨"second"⟩, ⟨"event"⟩, ⟨"union"⟩, some "out", none⟩])

/-- The union has the same fragment in both surroundings. -/
theorem outcome_depends_on_ancestors_fork :
    let settings : Settings := { Settings.default with failurePolicy := .skipDependents }
    let p := compile settings forkNodes forkEdges ⟨"games", 7⟩
    let p' := compile settings forkRewired.1 forkRewired.2 ⟨"games", 7⟩
    p.stage ≠ .fatal ∧ p'.stage ≠ .fatal ∧ p.order ≠ p'.order ∧
      (p.output? ⟨"union"⟩).isSome ∧
      ∃ r, p.outcomes.Has ⟨"union"⟩ r ∧ p'.outcomes.Has ⟨"union"⟩ r := by
  intro settings p p'
  have hfatal : p.stage ≠ .fatal := by decide +kernel
  have hfatal' : p'.stage ≠ .fatal := by decide +kernel
  -- The union and the event are all that the union depends on.
  have hpart : SharedPart forkNodes forkRewired.1 forkEdges forkRewired.2
      {⟨"union"⟩, ⟨"event"⟩} := by
    refine ⟨?_, ?_, ?_⟩
    · rintro id (rfl | rfl) <;> exact ⟨_, rfl, rfl⟩
    · have hclosed : ∀ e ∈ forkEdges, e.target = ⟨"union"⟩ ∨ e.target = ⟨"event"⟩ →
          e.source = ⟨"union"⟩ ∨ e.source = ⟨"event"⟩ := by decide
      intro id hid e he
      simp only [liveInto, liveEdges, List.mem_filter, decide_eq_true_eq] at he
      exact hclosed e he.1.1 (he.2 ▸ hid)
    · rintro id (rfl | rfl) <;> decide
  have hsame := (outcome_depends_on_ancestors settings ⟨"games", 7⟩ forkNodes forkRewired.1
    forkEdges forkRewired.2 hfatal hfatal').1
  exact ⟨hfatal, hfatal', by decide +kernel, by decide +kernel, hsame _ hpart _ (Or.inl rfl)⟩

end QueryGraph
