import QueryGraph.Proofs.Plan.Account
import QueryGraph.Proofs.Plan.Policy

namespace QueryGraph

/-!
# Failures reach all that is below them

* `Outcomes.Tries`: what becomes of a node where dependents of a failure are tried.  The number
  of its edges counts first, then its sources, then its own configuration.
* `Outcomes.Carries`: inputs that are the fragments of all sources, edge by edge.
* `Solves.tries`, `Solves.carries`, `Solves.failed_of_walk`: in a solution every node is tried
  like that, every fragment is compiled on all inputs, and failures go along walks.
* `failures_propagate`: the same for the plan of an acyclic snapshot.
-/

namespace Outcomes

/-- What becomes of a node with some incoming edges where dependents of a failure are tried: its
    kind rejects the number of its edges; or one of its sources has failed, and it finds itself
    without inputs; or its own configuration lacks something; or it has a fragment. -/
structure Tries (o : Outcomes) (n : Node) (into : List Edge) : Prop where
  miswired : n.kind.arity.accepts into.length = false →
    o.Has n.id (.error (.arity n.id n.kind n.kind.arity into.length))
  starved : n.kind.arity.accepts into.length = true →
    (∃ e ∈ into, (o.error? e.source).isSome) →
    o.Has n.id (.error (.arity n.id n.kind n.kind.arity 0))
  incomplete : n.kind.arity.accepts into.length = true →
    (∀ e ∈ into, o.error? e.source = none) → ¬ n.content.Complete →
    ∃ field, n.content.missing? = some field ∧
      o.Has n.id (.error (.missingConfig n.id n.kind field))
  compiled : n.kind.arity.accepts into.length = true →
    (∀ e ∈ into, o.error? e.source = none) → n.content.Complete → ∃ f, o.Has n.id (.ok f)

/-- The inputs are the fragments of the sources of some edges, one for each edge and in edge
    order. -/
def Carries (o : Outcomes) (into : List Edge) (inputs : List Input) : Prop :=
  List.Forall₂
    (fun e i => i.node = e.source ∧ i.handle = e.targetHandle ∧
      o.output? e.source = some i.fragment)
    into inputs

variable {o : Outcomes} {into : List Edge}

/-- Sources that all have a fragment are inputs one by one. -/
theorem carries_inputs (h : ∀ e ∈ into, ∃ f, o.output? e.source = some f) :
    o.Carries into (o.inputs into) := by
  have hall : (into.all fun e => (o.output? e.source).isSome) = true := by
    rw [List.all_eq_true]
    intro e he
    exact Option.isSome_iff_exists.mpr (h e he)
  rw [inputs, if_pos hall]
  -- From here on each edge counts by itself.
  clear hall
  induction into with
  | nil => exact .nil
  | cons e rest ih =>
    obtain ⟨⟨f, hf⟩, hrest⟩ := List.forall_mem_cons.mp h
    rw [List.filterMap_cons, hf]
    exact .cons ⟨rfl, rfl, hf⟩ (ih hrest)

end Outcomes

/-- With the right number of inputs, a node can fail only for what its configuration lacks. -/
theorem Node.compile_of_accepts {settings : Settings} {context : Context} {n : Node}
    {inputs : List Input} (haccepts : n.kind.arity.accepts inputs.length = true) :
    (n.content.Complete → ∃ f, n.compile settings context inputs = .ok f) ∧
      (¬ n.content.Complete → ∃ field, n.content.missing? = some field ∧
        n.compile settings context inputs = .error (.missingConfig n.id n.kind field)) := by
  refine ⟨fun hcomplete => Node.exists_compile_iff.mpr ⟨haccepts, hcomplete⟩, fun hlacks => ?_⟩
  rw [← Content.missing?_eq_none_iff] at hlacks
  obtain ⟨field, hfield⟩ := Option.ne_none_iff_exists'.mp hlacks
  exact ⟨field, hfield, compile_of_missing haccepts hfield⟩

variable {settings : Settings} {context : Context} {nodes : List Node} {edges : List Edge}
  {o : Outcomes}

/-- A source that has not failed has a fragment. -/
theorem Solves.exists_output_of_clean (h : Solves settings context nodes edges o) {id : NodeId}
    {e : Edge} (he : e ∈ liveInto nodes edges id) (hclean : o.error? e.source = none) :
    ∃ f, o.output? e.source = some f := by
  have hid : e.source ∈ nodes.map Node.id := (isLive_of_mem_liveInto he).1.1
  have hfailed := h.isSome_error?_eq hid
  rw [hclean] at hfailed
  exact Option.isSome_iff_exists.mp (by simpa using hfailed)

/-! ### Nodes that are tried -/

/-- Giving settings the policy that they have changes nothing. -/
theorem Settings.withPolicy_of_eq {policy : FailurePolicy}
    (h : settings.failurePolicy = policy) : settings.withPolicy policy = settings := by
  rw [← h]
  rfl

/-- Where dependents of a failure are tried, every node of a solution is. -/
theorem Solves.tries (h : Solves (settings.withPolicy .continue) context nodes edges o)
    {id : NodeId} {n : Node} (hn : Node.find? nodes id = some n) :
    o.Tries n (liveInto nodes edges id) := by
  obtain rfl : n.id = id := by simpa using List.find?_some hn
  have hhas := h.has n.id n hn
  -- Where no source has failed, there are as many inputs as edges.
  have hnumber : (∀ e ∈ liveInto nodes edges n.id, o.error? e.source = none) →
      (o.inputs (liveInto nodes edges n.id)).length = (liveInto nodes edges n.id).length :=
    fun hclean => Outcomes.length_inputs fun e he => h.exists_output_of_clean he (hclean e he)
  refine ⟨fun hrejects => ?_, fun haccepts hfailed => ?_, fun haccepts hclean hlacks => ?_,
    fun haccepts hclean hcomplete => ?_⟩
  · rw [Outcomes.due_continue, if_neg (by rw [hrejects]; decide)] at hhas
    exact hhas
  · obtain ⟨e, he, hfailed⟩ := hfailed
    rw [Outcomes.due_of_failed_continue he (h.output?_eq_none hfailed), if_pos haccepts] at hhas
    exact hhas
  · rw [Outcomes.due_continue, if_pos haccepts] at hhas
    obtain ⟨field, hfield, hcompile⟩ :=
      (Node.compile_of_accepts (by rw [hnumber hclean]; exact haccepts)).2 hlacks
    exact ⟨field, hfield, hcompile ▸ hhas⟩
  · rw [Outcomes.due_continue, if_pos haccepts] at hhas
    obtain ⟨f, hcompile⟩ :=
      (Node.compile_of_accepts (by rw [hnumber hclean]; exact haccepts)).1 hcomplete
    exact ⟨f, hcompile ▸ hhas⟩

/-! ### Failures under either policy -/

/-- A fragment in a solution is compiled on the fragments of all sources. -/
theorem Solves.carries (h : Solves settings context nodes edges o) {id : NodeId} {f : Fragment}
    (hf : o.output? id = some f) :
    ∃ n inputs, Node.find? nodes id = some n ∧ o.Carries (liveInto nodes edges id) inputs ∧
      n.compile settings context inputs = .ok f := by
  obtain ⟨n, hn, hdue⟩ := h.due_of_output hf
  obtain ⟨hedges, hcompile⟩ := Outcomes.compile_of_due hdue
  have hinputs := (Node.exists_compile_iff.mp ⟨f, hcompile⟩).1
  refine ⟨n, _, hn, Outcomes.carries_inputs fun e he => ?_, hcompile⟩
  obtain ⟨g, hg, -⟩ := Outcomes.exists_mem_inputs he hedges hinputs
  exact ⟨g, hg⟩

/-- What a failed node feeds has failed, for a fragment would have the failed node among its
    inputs. -/
theorem Solves.failed_of_feeds (h : Solves settings context nodes edges o) {u v : NodeId}
    (huv : Feeds nodes edges u v) (hu : (o.error? u).isSome = true) :
    (o.error? v).isSome = true := by
  obtain ⟨e, he, rfl⟩ := feeds_iff.mp huv
  obtain ⟨n, hn⟩ := exists_find?_target he
  have hv : v ∈ nodes.map Node.id := by
    by_contra hnot
    rw [Node.find?_eq_none_iff.mpr hnot] at hn
    simp at hn
  -- A node that has not failed has a fragment, and then so have all its sources.
  rw [h.isSome_error?_eq hv, Bool.not_eq_true', Option.isSome_eq_false_iff,
    Option.isNone_iff_eq_none, Option.eq_none_iff_forall_ne_some]
  intro f hf
  obtain ⟨m, inputs, -, -, hall⟩ := h.exists_compile hf
  obtain ⟨g, hg, -⟩ := hall e he
  rw [h.output?_eq_none hu] at hg
  simp at hg

/-- A failure reaches every node that a walk leads to. -/
theorem Solves.failed_of_walk (h : Solves settings context nodes edges o) {u v : NodeId}
    (hwalk : Relation.ReflTransGen (Feeds nodes edges) u v) (hu : (o.error? u).isSome = true) :
    (o.error? v).isSome = true := by
  induction hwalk with
  | refl => exact hu
  | tail _ hfeeds ih => exact h.failed_of_feeds hfeeds ih

/-- **Failures reach all that is below them.**  Where dependents of a failure are tried, the first
    of these decides what becomes of a node: the number of its edges, a failed source, which
    leaves it with no inputs at all, and its own configuration; if nothing is wrong, it has a
    fragment.  Under either policy every node below a failed one has failed, and a fragment is
    compiled on the fragments of all sources, edge by edge. -/
theorem failures_propagate (settings : Settings) (context : Context) (nodes : List Node)
    (edges : List Edge) (h : Acyclic nodes edges) :
    let p := compile settings nodes edges context
    (settings.failurePolicy = .continue → ∀ id n, Node.find? nodes id = some n →
        p.outcomes.Tries n (liveInto nodes edges id)) ∧
      (∀ u v, (p.error? u).isSome → Relation.ReflTransGen (Feeds nodes edges) u v →
        (p.error? v).isSome) ∧
      ∀ id f, p.output? id = some f →
        ∃ n inputs, Node.find? nodes id = some n ∧
          p.outcomes.Carries (liveInto nodes edges id) inputs ∧
          n.compile settings context inputs = .ok f := by
  intro p
  have hsolves : Solves settings context nodes edges p.outcomes :=
    solves_compile settings context h
  refine ⟨fun hpolicy id n hn => ?_, fun u v hu hwalk => hsolves.failed_of_walk hwalk hu,
    fun id f hf => hsolves.carries hf⟩
  rw [← Settings.withPolicy_of_eq hpolicy] at hsolves
  exact hsolves.tries hn

/-- The join fails for itself, the filter for the join, and the view as well. -/
theorem failures_propagate_chain :
    let p := compile Settings.default brokenChain.1 brokenChain.2 ⟨"games", 7⟩
    Acyclic brokenChain.1 brokenChain.2 ∧ Settings.default.failurePolicy = .continue ∧
      p.outcomes.Has ⟨"join"⟩ (.error (.missingConfig ⟨"join"⟩ .join "join condition")) ∧
      p.outcomes.Has ⟨"filter"⟩ (.error (.arity ⟨"filter"⟩ .filter (.exactly 1) 0)) ∧
      (p.error? ⟨"view"⟩).isSome := by
  intro p
  have hacyclic : Acyclic brokenChain.1 brokenChain.2 := cycles_build_eq_nil_iff.mp (by decide)
  obtain ⟨htried, hwalk, -⟩ := failures_propagate Settings.default ⟨"games", 7⟩ brokenChain.1
    brokenChain.2 hacyclic
  -- The join fails by itself, the filter for want of its input, and the view behind both.
  have hjoin : p.outcomes.Has ⟨"join"⟩
      (.error (.missingConfig ⟨"join"⟩ .join "join condition")) := by
    obtain ⟨field, hfield, hhas⟩ := (htried rfl ⟨"join"⟩ _ rfl).incomplete (by decide)
      (by decide +kernel) (fun hne => hne rfl)
    obtain rfl := Option.some.inj hfield
    exact hhas
  have hfailed : (p.error? ⟨"join"⟩).isSome = true := Option.isSome_of_eq_some hjoin.2
  have hfilter : Feeds brokenChain.1 brokenChain.2 ⟨"join"⟩ ⟨"filter"⟩ :=
    ⟨⟨none, ⟨"join"⟩, ⟨"filter"⟩, none, none⟩, by decide, rfl, rfl⟩
  have hview : Feeds brokenChain.1 brokenChain.2 ⟨"filter"⟩ ⟨"view"⟩ :=
    ⟨⟨none, ⟨"filter"⟩, ⟨"view"⟩, none, none⟩, by decide, rfl, rfl⟩
  refine ⟨hacyclic, rfl, hjoin, ?_, hwalk ⟨"join"⟩ ⟨"view"⟩ hfailed (.head hfilter (.single hview))⟩
  exact (htried rfl ⟨"filter"⟩ _ rfl).starved (by decide)
    ⟨⟨none, ⟨"join"⟩, ⟨"filter"⟩, none, none⟩, by decide, hfailed⟩

end QueryGraph
