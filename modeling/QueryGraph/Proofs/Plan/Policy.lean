import QueryGraph.Proofs.Plan.Record
import QueryGraph.Proofs.Plan.Success

namespace QueryGraph

/-!
# The failure policy decides on labels only

Whether dependents of a failed node are tried or skipped, they fail; the policies differ in the
failure they note.

* `Settings.withPolicy`: settings under another failure policy.
* `Outcomes.due_of_clean`, `Outcomes.due_of_failed_skip`, `Outcomes.due_of_failed_continue`: what
  is due to a node without a failed source, and with one under either policy.
* `Solves.agreeAt`, `Solves.error?_eq_of_clean`: the solutions under the two policies have the
  same fragments and the same failed nodes, and other failures only below a failed node.
* `Solves.names_first`, `Solves.exists_root`: a skipped node names its first failed dependency,
  and from name to name one comes to a node that failed by itself.
* `policy_relabels_failures`: the same for plans, with all that follows for their other parts.
-/

/-- The settings under a failure policy. -/
def Settings.withPolicy (s : Settings) (policy : FailurePolicy) : Settings :=
  { s with failurePolicy := policy }

/-! ### Nodes by themselves -/

namespace Node

variable {settings : Settings} {context : Context} {n : Node} {inputs : List Input}

/-- The failure policy is none of the business of a single node. -/
theorem compile_withPolicy (settings : Settings) (context : Context) (n : Node)
    (inputs : List Input) (policy : FailurePolicy) :
    n.compile (settings.withPolicy policy) context inputs = n.compile settings context inputs :=
  rfl

/-- No node fails on its own for being skipped. -/
theorem not_isSkipped_of_compile {e : NodeFailure}
    (h : n.compile settings context inputs = .error e) : e.isSkipped = false := by
  obtain rfl | ⟨field, -, rfl⟩ := eq_of_compile_error h
  · rfl
  · rfl

end Node

/-! ### What is due under each policy -/

namespace Outcomes

variable {settings : Settings} {context : Context} {o o' : Outcomes} {n : Node} {into : List Edge}

/-- Without a failed source, the same is due under every policy. -/
theorem due_of_clean {policy policy' : FailurePolicy}
    (hagree : ∀ e ∈ into, o.AgreeAt o' e.source) (hclean : ∀ e ∈ into, o'.error? e.source = none) :
    o.due (settings.withPolicy policy) context n into
      = o'.due (settings.withPolicy policy') context n into := by
  have hclean' : ∀ e ∈ into, o.error? e.source = none := by
    intro e he
    have hfailed := (hagree e he).failed_eq
    rw [hclean e he] at hfailed
    simpa using hfailed
  rw [due_of_sources_clean _ _ _ hclean', due_of_sources_clean _ _ _ hclean,
    inputs_congr fun e he => (hagree e he).output_eq, Node.compile_withPolicy,
    Node.compile_withPolicy]

/-- Where dependents of a failure are skipped, the first failed source is named. -/
theorem due_of_failed_skip {e : Edge}
    (h : (into.find? fun e => (o.error? e.source).isSome) = some e) :
    o.due (settings.withPolicy .skipDependents) context n into
      = .error (.skipped n.id e.source) := by
  rw [due, h]
  rfl

/-- Where dependents of a failure are tried, no source is asked for its failure. -/
theorem due_continue (settings : Settings) (context : Context) (o : Outcomes) (n : Node)
    (into : List Edge) :
    o.due (settings.withPolicy .continue) context n into =
      if n.kind.arity.accepts into.length then n.compile settings context (o.inputs into)
      else .error (.arity n.id n.kind n.kind.arity into.length) :=
  rfl

/-- There, a node with a failed source has a wrong number of inputs: that of its edges is wrong,
    or it is left without inputs. -/
theorem due_of_failed_continue {e : Edge} (he : e ∈ into) (hfailed : o.output? e.source = none) :
    o.due (settings.withPolicy .continue) context n into
      = .error (.arity n.id n.kind n.kind.arity
          (if n.kind.arity.accepts into.length then 0 else into.length)) := by
  -- One source without a fragment is enough for no inputs to be listed.
  have hinputs : o.inputs into = [] := by
    rw [inputs, if_neg]
    intro hall
    have hsome := List.all_eq_true.mp hall e he
    simp [hfailed] at hsome
  rw [due_continue, hinputs]
  by_cases harity : n.kind.arity.accepts into.length = true
  · have hzero := Kind.not_accepts_zero
      (fun hlen => List.ne_nil_of_mem he (List.length_eq_zero_iff.mp hlen)) harity
    rw [if_pos harity, if_pos harity]
    exact Node.compile_of_not_accepts hzero
  · rw [if_neg harity, if_neg harity]

end Outcomes

/-! ### Solutions under both policies -/

section Solutions

variable {settings : Settings} {context : Context} {nodes : List Node} {edges : List Edge}
  {o o' : Outcomes}

/-- A node that failed has no fragment. -/
theorem Solves.output?_eq_none {id : NodeId} (h : Solves settings context nodes edges o)
    (hfailed : (o.error? id).isSome = true) : o.output? id = none := by
  obtain ⟨e, he⟩ := Option.isSome_iff_exists.mp hfailed
  obtain ⟨n, hn, hdue⟩ := h.due_of_error he
  have hhas := h.has id n hn
  rw [hdue] at hhas
  exact hhas.1

/-- Where dependents of a failure are tried, no failure is a label. -/
theorem Solves.not_isSkipped {id : NodeId} {e : NodeFailure}
    (h : Solves (settings.withPolicy .continue) context nodes edges o)
    (he : o.error? id = some e) : e.isSkipped = false := by
  obtain ⟨n, -, hdue⟩ := h.due_of_error he
  rw [Outcomes.due_continue] at hdue
  by_cases harity : n.kind.arity.accepts (liveInto nodes edges id).length = true
  · rw [if_pos harity] at hdue
    exact Node.not_isSkipped_of_compile hdue
  · rw [if_neg harity] at hdue
    obtain rfl := Except.error.inj hdue
    rfl

/-- The two solutions agree at a node if they agree at those that feed it: with a failed source
    it fails in both, and otherwise the same is due to it in both. -/
theorem Solves.agreeAt (hacyclic : Acyclic nodes edges)
    (h : Solves (settings.withPolicy .continue) context nodes edges o)
    (h' : Solves (settings.withPolicy .skipDependents) context nodes edges o') (id : NodeId) :
    o.AgreeAt o' id := by
  induction id using (wellFounded_feeds_iff.mpr hacyclic).induction with
  | _ id ih =>
    cases hn : Node.find? nodes id with
    | none =>
      have hl := h.lacks id hn
      have hl' := h'.lacks id hn
      exact ⟨hl.1.trans hl'.1.symm, by rw [hl.2, hl'.2]⟩
    | some n =>
      have hagree : ∀ e ∈ liveInto nodes edges id, o.AgreeAt o' e.source :=
        fun e he => ih e.source (feeds_iff.mpr ⟨e, he, rfl⟩)
      have hhas := h.has id n hn
      have hhas' := h'.has id n hn
      cases hfind : (liveInto nodes edges id).find? fun e => (o'.error? e.source).isSome with
      | none =>
        -- No source has failed, so the policies do not come into it.
        have hclean : ∀ e ∈ liveInto nodes edges id, o'.error? e.source = none := by
          intro e he
          simpa using List.find?_eq_none.mp hfind e he
        rw [Outcomes.due_of_clean hagree hclean] at hhas
        have hsame := hhas.sameAt hhas'
        exact ⟨hsame.1, by rw [hsame.2]⟩
      | some e =>
        -- One has: the node has failed in both solutions, if for different reasons.
        have he := List.mem_of_find?_eq_some hfind
        have hfailed : (o.error? e.source).isSome = true := by
          rw [(hagree e he).failed_eq]
          simpa using List.find?_some hfind
        rw [Outcomes.due_of_failed_continue he (h.output?_eq_none hfailed)] at hhas
        rw [Outcomes.due_of_failed_skip hfind] at hhas'
        exact ⟨hhas.1.trans hhas'.1.symm, by rw [hhas.2, hhas'.2]; rfl⟩

/-- Without a failed dependency, a node has the same failure in both solutions, or none. -/
theorem Solves.error?_eq_of_clean (hacyclic : Acyclic nodes edges)
    (h : Solves (settings.withPolicy .continue) context nodes edges o)
    (h' : Solves (settings.withPolicy .skipDependents) context nodes edges o') {id : NodeId}
    (hclean : ∀ u ∈ (Graph.build nodes edges).dependencies id, o'.error? u = none) :
    o.error? id = o'.error? id := by
  cases hn : Node.find? nodes id with
  | none => exact (h.lacks id hn).2.trans (h'.lacks id hn).2.symm
  | some n =>
    have hclean' : ∀ e ∈ liveInto nodes edges id, o'.error? e.source = none := by
      intro e he
      exact hclean e.source (Graph.mem_build_dependencies.mpr (feeds_iff.mpr ⟨e, he, rfl⟩))
    -- The same is due to the node in both, so both have the same outcome for it.
    have hhas := h.has id n hn
    rw [Outcomes.due_of_clean (fun e _ => h.agreeAt hacyclic h' e.source) hclean'] at hhas
    exact (hhas.sameAt (h'.has id n hn)).2

/-- Where dependents of a failure are skipped, a node with a failed dependency names the first
    one. -/
theorem Solves.names_first
    (h' : Solves (settings.withPolicy .skipDependents) context nodes edges o') {id u : NodeId}
    (hfind : ((Graph.build nodes edges).dependencies id).find? (fun u => (o'.error? u).isSome)
      = some u) : o'.error? id = some (.skipped id u) := by
  rw [Graph.build_dependencies, List.find?_map, Option.map_eq_some_iff] at hfind
  obtain ⟨e, he, rfl⟩ := hfind
  obtain ⟨n, hn⟩ := exists_find?_target (List.mem_of_find?_eq_some he)
  have hid : n.id = id := by simpa using List.find?_some hn
  have hhas := h'.has id n hn
  rw [Outcomes.due_of_failed_skip he, hid] at hhas
  exact hhas.2

/-- A skipped node names a dependency that has failed. -/
theorem Solves.names_failed (hacyclic : Acyclic nodes edges)
    (h : Solves (settings.withPolicy .continue) context nodes edges o)
    (h' : Solves (settings.withPolicy .skipDependents) context nodes edges o') {id v u : NodeId}
    (hskip : o'.error? id = some (.skipped v u)) :
    v = id ∧ Feeds nodes edges u id ∧ (o'.error? u).isSome = true := by
  cases hfind : ((Graph.build nodes edges).dependencies id).find?
      fun u => (o'.error? u).isSome with
  | none =>
    -- Without a failed dependency, both solutions hold a failure of the node itself.
    have hclean : ∀ u ∈ (Graph.build nodes edges).dependencies id, o'.error? u = none := by
      intro u hu
      simpa using List.find?_eq_none.mp hfind u hu
    have hown := h.not_isSkipped ((h.error?_eq_of_clean hacyclic h' hclean).trans hskip)
    simp [NodeFailure.isSkipped] at hown
  | some w =>
    have hname := hskip.symm.trans (h'.names_first hfind)
    obtain ⟨rfl, rfl⟩ : v = id ∧ u = w := by simpa using hname
    exact ⟨rfl, Graph.mem_build_dependencies.mp (List.mem_of_find?_eq_some hfind),
      by simpa using List.find?_some hfind⟩

/-- Failures that are no labels are the same under both policies. -/
theorem Solves.error?_eq_of_not_isSkipped (hacyclic : Acyclic nodes edges)
    (h : Solves (settings.withPolicy .continue) context nodes edges o)
    (h' : Solves (settings.withPolicy .skipDependents) context nodes edges o') {id : NodeId}
    {e : NodeFailure} (he : o'.error? id = some e) (hown : e.isSkipped = false) :
    o.error? id = some e := by
  refine (h.error?_eq_of_clean hacyclic h' fun u hu => ?_).trans he
  by_contra hfailed
  -- A failed dependency would make the failure a label.
  have hsome : ((Graph.build nodes edges).dependencies id).find? (fun u => (o'.error? u).isSome)
      ≠ none := by
    rw [ne_eq, List.find?_eq_none, not_forall]
    exact ⟨u, by simpa [hu, Option.isNone_iff_eq_none] using hfailed⟩
  obtain ⟨w, hw⟩ := Option.ne_none_iff_exists'.mp hsome
  obtain rfl := Option.some.inj (he.symm.trans (h'.names_first hw))
  simp [NodeFailure.isSkipped] at hown

/-- From a failed node, the names lead to a failure that is no label: each name is a dependency
    of the node before, and chains of dependencies end. -/
theorem Solves.exists_root (hacyclic : Acyclic nodes edges)
    (h : Solves (settings.withPolicy .continue) context nodes edges o)
    (h' : Solves (settings.withPolicy .skipDependents) context nodes edges o') {id : NodeId}
    (hfailed : (o'.error? id).isSome = true) :
    ∃ root e, Relation.ReflTransGen (fun v u => o'.error? v = some (.skipped v u)) id root ∧
      o'.error? root = some e ∧ e.isSkipped = false ∧ o.error? root = some e := by
  -- The name is that of a node further up, so the induction goes along the edges.
  induction id using (wellFounded_feeds_iff.mpr hacyclic).induction with
  | _ id ih =>
    obtain ⟨e, he⟩ := Option.isSome_iff_exists.mp hfailed
    cases e with
    | arity v kind expected found =>
      exact ⟨id, _, .refl, he, rfl, h.error?_eq_of_not_isSkipped hacyclic h' he rfl⟩
    | missingConfig v kind field =>
      exact ⟨id, _, .refl, he, rfl, h.error?_eq_of_not_isSkipped hacyclic h' he rfl⟩
    | skipped v u =>
      obtain ⟨rfl, hfeeds, hu⟩ := h.names_failed hacyclic h' he
      obtain ⟨root, e, hwalk, hroot⟩ := ih u hfeeds hu
      exact ⟨root, e, .head he hwalk, hroot⟩

end Solutions

/-! ### Plans under both policies -/

namespace Plan

/-- Two plans that differ at most in what they note about nodes that failed. -/
structure SameButLabels (p q : Plan) : Prop where
  success_eq : p.success = q.success
  stage_eq : p.stage = q.stage
  order_eq : p.order = q.order
  outputs_eq : p.outputs = q.outputs
  finalText_eq : p.finalText = q.finalText
  programs_eq : p.programs = q.programs
  failed_eq : p.errors.map Prod.fst = q.errors.map Prod.fst
  cycles_eq : p.cycles = q.cycles
  fatal_eq : p.fatal = q.fatal
  statistics_eq :
    { p.statistics with skippedNodes := 0 } = { q.statistics with skippedNodes := 0 }

theorem SameButLabels.refl (p : Plan) : p.SameButLabels p :=
  ⟨rfl, rfl, rfl, rfl, rfl, rfl, rfl, rfl, rfl, rfl⟩

theorem SameButLabels.symm {p q : Plan} (h : p.SameButLabels q) : q.SameButLabels p :=
  ⟨h.1.symm, h.2.symm, h.3.symm, h.4.symm, h.5.symm, h.6.symm, h.7.symm, h.8.symm, h.9.symm,
    h.10.symm⟩

/-- A node is skipped and names another. -/
def Names (p : Plan) (id u : NodeId) : Prop := p.error? id = some (.skipped id u)

end Plan

/-- What is finished from the same fragments and the same failed nodes is the same but for the
    labels. -/
theorem finish_sameButLabels (nodes : List Node) (g : Graph) (order : List NodeId)
    {p q : Progress} (houtputs : p.outputs = q.outputs)
    (hfailed : p.errors.map Prod.fst = q.errors.map Prod.fst) :
    (finish nodes g order p).SameButLabels (finish nodes g order q) := by
  have hlength : p.errors.length = q.errors.length := by
    simpa using congrArg List.length hfailed
  have houtput : p.output? = q.output? := by
    funext id
    rw [Progress.output?, Progress.output?, houtputs]
  -- All other parts of a plan are read off the fragments and the number of failures.
  constructor
  case success_eq =>
    show p.errors.isEmpty = q.errors.isEmpty
    simpa using congrArg List.isEmpty hfailed
  case failed_eq => exact hfailed
  case statistics_eq => simp [finish, houtputs, hlength]
  all_goals simp [finish, houtputs, houtput]

variable {settings : Settings} {context : Context} {nodes : List Node} {edges : List Edge}

/-- The plans under the two policies are the same but for their labels. -/
theorem compile_sameButLabels (settings : Settings) (context : Context) (nodes : List Node)
    (edges : List Edge) :
    (compile (settings.withPolicy .continue) nodes edges context).SameButLabels
      (compile (settings.withPolicy .skipDependents) nodes edges context) := by
  by_cases hacyclic : Acyclic nodes edges
  · obtain ⟨order, horder⟩ := exists_schedule_build_iff.mpr hacyclic
    have htop := isTopological_of_schedule horder
    have hrecords := fun policy => records_progressAlong (settings.withPolicy policy) context
      htop.nodup htop.ordered fun id hid => htop.mem_iff.mp hid
    have hagree := (solves_progressAlong (settings.withPolicy .continue) context htop).agreeAt
      hacyclic (solves_progressAlong (settings.withPolicy .skipDependents) context htop)
    -- The schedule does not know the policy, so both plans list their nodes in one order.
    rw [compile_of_schedule _ _ horder, compile_of_schedule _ _ horder]
    apply finish_sameButLabels
    · rw [(hrecords .continue).outputs_eq, (hrecords .skipDependents).outputs_eq]
      exact inOrder_congr fun id _ => (hagree id).output_eq
    · rw [(hrecords .continue).errors_eq, (hrecords .skipDependents).errors_eq, map_fst_inOrder,
        map_fst_inOrder]
      exact List.filter_congr fun id _ => (hagree id).failed_eq
  · rw [compile_of_not_acyclic _ _ hacyclic, compile_of_not_acyclic _ _ hacyclic]
    exact .refl _

/-- An abandoned plan holds no failures of nodes. -/
theorem error?_of_not_acyclic (settings : Settings) (context : Context)
    (h : ¬ Acyclic nodes edges) (id : NodeId) :
    (compile settings nodes edges context).error? id = none := by
  rw [compile_of_not_acyclic settings context h]
  rfl

/-- **The failure policy changes labels only.**  Plans under the two policies agree on
    everything but the failures noted for nodes that failed in both, and on how many of them
    are skipped.  Without a failed dependency the failure of a node is the same; with one, where
    dependents of a failure are skipped, the node names the first of them in edge order.  From
    a skipped node the names lead, along failed dependencies, to a node whose failure is its
    own and the same under both policies. -/
theorem policy_relabels_failures (settings : Settings) (context : Context) (nodes : List Node)
    (edges : List Edge) :
    let plan := fun policy => compile (settings.withPolicy policy) nodes edges context
    let tried := plan .continue
    let skipped := plan .skipDependents
    let dependencies := (Graph.build nodes edges).dependencies
    (∀ policy policy', (plan policy).SameButLabels (plan policy')) ∧
      (∀ id, (∀ u ∈ dependencies id, skipped.error? u = none) →
        tried.error? id = skipped.error? id) ∧
      (∀ id u, (dependencies id).find? (fun u => (skipped.error? u).isSome) = some u →
        skipped.error? id = some (.skipped id u)) ∧
      ∀ id v u, skipped.error? id = some (.skipped v u) →
        v = id ∧ u ∈ dependencies id ∧ (skipped.error? u).isSome ∧
          ∃ root e, Relation.ReflTransGen skipped.Names u root ∧
            skipped.error? root = some e ∧ e.isSkipped = false ∧ tried.error? root = some e := by
  intro plan tried skipped dependencies
  have hsame := compile_sameButLabels settings context nodes edges
  refine ⟨?_, ?_⟩
  · rintro (_ | _) (_ | _)
    · exact .refl _
    · exact hsame
    · exact hsame.symm
    · exact .refl _
  by_cases hacyclic : Acyclic nodes edges
  · have h := solves_compile (settings.withPolicy .continue) context hacyclic
    have h' := solves_compile (settings.withPolicy .skipDependents) context hacyclic
    refine ⟨fun id hclean => h.error?_eq_of_clean hacyclic h' hclean,
      fun id u hu => h'.names_first hu, fun id v u hskip => ?_⟩
    obtain ⟨rfl, hfeeds, hu⟩ := h.names_failed hacyclic h' hskip
    exact ⟨rfl, Graph.mem_build_dependencies.mpr hfeeds, hu, h.exists_root hacyclic h' hu⟩
  · have hnone := fun policy => error?_of_not_acyclic (settings.withPolicy policy) context hacyclic
    refine ⟨fun id _ => ?_, fun id u hu => ?_, fun id v u hskip => ?_⟩
    · -- An abandoned plan has no failures, whichever the policy.
      exact (hnone .continue id).trans (hnone .skipDependents id).symm
    · have hfailed := List.find?_some hu
      simp [skipped, plan, hnone .skipDependents] at hfailed
    · exact absurd ((hnone .skipDependents id).symm.trans hskip) (by simp)

/-- A join without conditions, a filter of it and a view of that. -/
def brokenChain : List Node × List Edge :=
  ([⟨⟨"view"⟩, .output ⟨some "v"⟩⟩, ⟨⟨"filter"⟩, .filter ⟨[]⟩⟩, ⟨⟨"join"⟩, .join ⟨none, []⟩⟩,
      ⟨⟨"event"⟩, .event ⟨none, []⟩⟩],
    [⟨none, ⟨"event"⟩, ⟨"join"⟩, none, none⟩, ⟨none, ⟨"event"⟩, ⟨"join"⟩, none, none⟩,
      ⟨none, ⟨"join"⟩, ⟨"filter"⟩, none, none⟩, ⟨none, ⟨"filter"⟩, ⟨"view"⟩, none, none⟩])

/-- The view is skipped for the filter, and the filter for the join. -/
theorem policy_relabels_failures_chain :
    let plan := fun policy =>
      compile (Settings.default.withPolicy policy) brokenChain.1 brokenChain.2 ⟨"games", 7⟩
    let tried := plan .continue
    let skipped := plan .skipDependents
    tried.SameButLabels skipped ∧ tried.error? ⟨"view"⟩ ≠ skipped.error? ⟨"view"⟩ ∧
      skipped.error? ⟨"view"⟩ = some (.skipped ⟨"view"⟩ ⟨"filter"⟩) ∧
      ∃ root e, Relation.ReflTransGen skipped.Names ⟨"filter"⟩ root ∧
        skipped.error? root = some e ∧ e.isSkipped = false ∧ tried.error? root = some e := by
  intro plan tried skipped
  have hskip : skipped.error? ⟨"view"⟩ = some (.skipped ⟨"view"⟩ ⟨"filter"⟩) := by decide +kernel
  obtain ⟨hsame, -, -, hroot⟩ := policy_relabels_failures Settings.default ⟨"games", 7⟩
    brokenChain.1 brokenChain.2
  exact ⟨hsame _ _, by decide +kernel, hskip, (hroot _ _ _ hskip).2.2.2⟩

end QueryGraph
