import QueryGraph.Proofs.Node.Complete
import QueryGraph.Proofs.Plan.Reference

namespace QueryGraph

/-!
# When a compilation succeeds

* `Valid`: a snapshot that is right node by node, and has no cycle.
* `Valid.exists_output`: in a solution of a valid snapshot every node has a fragment.
* `Valid.of_solves`: a snapshot with a solution that has no failure is valid.
* `success_iff_valid`: the plan of a snapshot is a success exactly if the snapshot is valid.
-/

/-- The live edges have no cycle, and every node, taken with its first entry, has as many of
    them leading into it as its kind accepts and a complete configuration. -/
structure Valid (nodes : List Node) (edges : List Edge) : Prop where
  acyclic : Acyclic nodes edges
  accepts : ∀ id n, Node.find? nodes id = some n →
    n.kind.arity.accepts (liveInto nodes edges id).length = true
  complete : ∀ id n, Node.find? nodes id = some n → n.content.Complete

variable {settings : Settings} {context : Context} {nodes : List Node} {edges : List Edge}

/-- A live edge into a node is live and ends there. -/
theorem isLive_of_mem_liveInto {id : NodeId} {e : Edge} (h : e ∈ liveInto nodes edges id) :
    e.IsLive nodes ∧ e.target = id := by
  simp only [liveInto, liveEdges, List.mem_filter, decide_eq_true_eq] at h
  exact ⟨h.1.2, h.2⟩

/-- What feeds a node along a live edge is a node. -/
theorem exists_find?_source {id : NodeId} {e : Edge} (h : e ∈ liveInto nodes edges id) :
    ∃ n, Node.find? nodes e.source = some n :=
  Node.exists_find?_of_mem (isLive_of_mem_liveInto h).1.1

/-- What a live edge leads to is a node. -/
theorem exists_find?_target {id : NodeId} {e : Edge} (h : e ∈ liveInto nodes edges id) :
    ∃ n, Node.find? nodes id = some n := by
  obtain ⟨hlive, rfl⟩ := isLive_of_mem_liveInto h
  exact Node.exists_find?_of_mem hlive.2

namespace Outcomes

variable {o : Outcomes} {n : Node} {into : List Edge}

/-- Where no source has failed, neither failure policy skips the node. -/
theorem due_of_sources_clean (settings : Settings) (context : Context) (n : Node)
    (h : ∀ e ∈ into, o.error? e.source = none) :
    o.due settings context n into =
      if n.kind.arity.accepts into.length then n.compile settings context (o.inputs into)
      else .error (.arity n.id n.kind n.kind.arity into.length) := by
  have hfind : (into.find? fun e => (o.error? e.source).isSome) = none := by
    rw [List.find?_eq_none]
    intro e he
    simp [h e he]
  unfold due
  rw [hfind]
  cases settings.failurePolicy <;> rfl

/-- Sources that all have a fragment are as many inputs as there are edges. -/
theorem length_inputs (h : ∀ e ∈ into, ∃ f, o.output? e.source = some f) :
    (o.inputs into).length = into.length := by
  have hall : (into.all fun e => (o.output? e.source).isSome) = true := by
    rw [List.all_eq_true]
    intro e he
    exact Option.isSome_iff_exists.mpr (h e he)
  rw [inputs, if_pos hall, List.filterMap_length_eq_length]
  intro e he
  obtain ⟨f, hf⟩ := h e he
  simp [hf]

/-- A fragment that is due to a node is what it compiles to, and its edges are not miscounted. -/
theorem compile_of_due {f : Fragment} (h : o.due settings context n into = .ok f) :
    n.kind.arity.accepts into.length = true ∧
      n.compile settings context (o.inputs into) = .ok f := by
  unfold due at h
  split at h
  · simp at h
  · by_cases harity : n.kind.arity.accepts into.length = true
    · rw [if_pos harity] at h
      exact ⟨harity, h⟩
    · simp [harity] at h

/-- Inputs are complete where they are not rejected: a node that takes some edges does not do
    without inputs. -/
theorem exists_mem_inputs {e : Edge} (he : e ∈ into)
    (hedges : n.kind.arity.accepts into.length = true)
    (hinputs : n.kind.arity.accepts (o.inputs into).length = true) :
    ∃ g, o.output? e.source = some g ∧ ⟨e.source, e.targetHandle, g⟩ ∈ o.inputs into := by
  by_cases hall : (into.all fun e => (o.output? e.source).isSome) = true
  · obtain ⟨g, hg⟩ := Option.isSome_iff_exists.mp (List.all_eq_true.mp hall e he)
    refine ⟨g, hg, ?_⟩
    rw [inputs, if_pos hall, List.mem_filterMap]
    exact ⟨e, he, by rw [hg]; rfl⟩
  · have hpos : into.length ≠ 0 := fun hlen =>
      List.ne_nil_of_mem he (List.length_eq_zero_iff.mp hlen)
    rw [inputs, if_neg hall, List.length_nil, Kind.not_accepts_zero hpos hedges] at hinputs
    exact absurd hinputs (by decide)

/-- Every input comes along one of the edges. -/
theorem exists_of_mem_inputs {i : Input} (h : i ∈ o.inputs into) :
    ∃ e ∈ into, i.node = e.source ∧ o.output? e.source = some i.fragment := by
  rw [inputs] at h
  split at h
  next =>
    obtain ⟨e, he, hsome⟩ := List.mem_filterMap.mp h
    obtain ⟨f, hf, rfl⟩ := Option.map_eq_some_iff.mp hsome
    exact ⟨e, he, rfl, hf⟩
  next => exact absurd h List.not_mem_nil

end Outcomes

/-! ### Failures of a plan -/

/-- A list in which nothing is found is empty. -/
theorem forall_lookup_eq_none_iff {α β : Type} [DecidableEq α] {l : List (α × β)} :
    (∀ a, l.lookup a = none) ↔ l = [] := by
  constructor
  · intro h
    cases l with
    | nil => rfl
    | cons entry rest => simpa [lookup_cons_if] using h entry.1
  · rintro rfl a
    rfl

/-- The plan of an acyclic snapshot is a success if no node has failed. -/
theorem success_iff_of_acyclic (settings : Settings) (context : Context)
    (h : Acyclic nodes edges) :
    (compile settings nodes edges context).success = true ↔
      ∀ id, (compile settings nodes edges context).outcomes.error? id = none := by
  obtain ⟨order, -, hcompile⟩ := compile_of_acyclic settings context h
  rw [hcompile]
  show (_ : List (NodeId × NodeFailure)).isEmpty = true ↔ _
  rw [List.isEmpty_iff]
  exact forall_lookup_eq_none_iff.symm

/-- A node with a fragment was compiled on the fragments of all nodes that feed it. -/
theorem Solves.exists_compile {o : Outcomes} (h : Solves settings context nodes edges o)
    {id : NodeId} {f : Fragment} (hf : o.output? id = some f) :
    ∃ n inputs, Node.find? nodes id = some n ∧ n.compile settings context inputs = .ok f ∧
      ∀ e ∈ liveInto nodes edges id,
        ∃ g, o.output? e.source = some g ∧ ⟨e.source, e.targetHandle, g⟩ ∈ inputs := by
  obtain ⟨n, hn, hdue⟩ := h.due_of_output hf
  obtain ⟨hedges, hcompile⟩ := Outcomes.compile_of_due hdue
  have hinputs := (Node.exists_compile_iff.mp ⟨_, hcompile⟩).1
  refine ⟨n, _, hn, hcompile, ?_⟩
  intro e he
  exact Outcomes.exists_mem_inputs he hedges hinputs

/-! ### Validity and success -/

/-- In a solution of a valid snapshot every node has a fragment: if those that feed it have one,
    nothing is left on which it could fail. -/
theorem Valid.exists_output {o : Outcomes} (hvalid : Valid nodes edges)
    (h : Solves settings context nodes edges o) {id : NodeId} {n : Node}
    (hn : Node.find? nodes id = some n) : ∃ f, o.Has id (.ok f) := by
  induction id using (wellFounded_feeds_iff.mpr hvalid.acyclic).induction generalizing n with
  | _ id ih =>
    have hsources : ∀ e ∈ liveInto nodes edges id, ∃ f, o.Has e.source (.ok f) := by
      intro e he
      obtain ⟨m, hm⟩ := exists_find?_source he
      exact ih e.source (feeds_iff.mpr ⟨e, he, rfl⟩) hm
    have hclean : ∀ e ∈ liveInto nodes edges id, o.error? e.source = none := by
      intro e he
      obtain ⟨f, -, herror⟩ := hsources e he
      exact herror
    have hinputs : (o.inputs (liveInto nodes edges id)).length
        = (liveInto nodes edges id).length := by
      refine Outcomes.length_inputs fun e he => ?_
      obtain ⟨f, hout, -⟩ := hsources e he
      exact ⟨f, hout⟩
    have haccepts := hvalid.accepts id n hn
    obtain ⟨f, hf⟩ : ∃ f, n.compile settings context (o.inputs (liveInto nodes edges id)) = .ok f :=
      Node.exists_compile_iff.mpr ⟨hinputs ▸ haccepts, hvalid.complete id n hn⟩
    -- What is due to the node is now a fragment, under either policy.
    have hhas := h.has id n hn
    rw [Outcomes.due_of_sources_clean settings context n hclean, if_pos haccepts, hf] at hhas
    exact ⟨f, hhas⟩

/-- A snapshot that is solved without a failure is valid, for whatever is wrong with a node
    shows in its own outcome. -/
theorem Valid.of_solves {o : Outcomes} (hacyclic : Acyclic nodes edges)
    (h : Solves settings context nodes edges o) (hclean : ∀ id, o.error? id = none) :
    Valid nodes edges := by
  -- What is due to a node that has not failed is a fragment, which takes inputs and a
  -- configuration.
  have hnode : ∀ id n, Node.find? nodes id = some n →
      n.kind.arity.accepts (liveInto nodes edges id).length = true ∧ n.content.Complete := by
    intro id n hn
    have hhas := h.has id n hn
    rw [Outcomes.due_of_sources_clean settings context n fun e _ => hclean e.source] at hhas
    by_cases haccepts : n.kind.arity.accepts (liveInto nodes edges id).length = true
    · rw [if_pos haccepts] at hhas
      cases hcompile : n.compile settings context (o.inputs (liveInto nodes edges id)) with
      | ok f => exact ⟨haccepts, (Node.exists_compile_iff.mp ⟨f, hcompile⟩).2⟩
      | error e =>
        rw [hcompile] at hhas
        exact absurd (hhas.2.symm.trans (hclean id)) (by simp)
    · rw [if_neg haccepts] at hhas
      exact absurd (hhas.2.symm.trans (hclean id)) (by simp)
  exact ⟨hacyclic, fun id n hn => (hnode id n hn).1, fun id n hn => (hnode id n hn).2⟩

/-- Under every policy, a plan is a success if and only if its snapshot is valid. -/
theorem success_iff (settings : Settings) (context : Context) (nodes : List Node)
    (edges : List Edge) :
    (compile settings nodes edges context).success = true ↔ Valid nodes edges := by
  by_cases hacyclic : Acyclic nodes edges
  · have hsolves := solves_compile settings context hacyclic
    rw [success_iff_of_acyclic settings context hacyclic]
    refine ⟨Valid.of_solves hacyclic hsolves, fun hvalid id => ?_⟩
    cases hn : Node.find? nodes id with
    | none => exact (hsolves.lacks id hn).2
    | some n =>
      obtain ⟨f, -, herror⟩ := hvalid.exists_output hsolves hn
      exact herror
  · rw [compile_of_not_acyclic settings context hacyclic]
    refine ⟨fun h => ?_, fun hvalid => absurd hvalid.acyclic hacyclic⟩
    simp [Plan.aborted] at h

/-- **Success is local validity.**  The plan of a snapshot is a success exactly if the live
    edges have no cycle and every node by itself is in order.  The failure policy decides what
    becomes of the dependents of a failure, but not whether there is a failure. -/
theorem success_iff_valid (settings : Settings) (context : Context) (nodes : List Node)
    (edges : List Edge) :
    ((compile settings nodes edges context).success = true ↔ Valid nodes edges) ∧
      ∀ policy : FailurePolicy,
        (compile { settings with failurePolicy := policy } nodes edges context).success
          = (compile settings nodes edges context).success := by
  refine ⟨success_iff settings context nodes edges, fun policy => ?_⟩
  rw [Bool.eq_iff_iff, success_iff, success_iff]

end QueryGraph
