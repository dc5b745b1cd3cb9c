import QueryGraph.Proofs.Plan.Stage

namespace QueryGraph

/-!
# A plan does not depend on the order of compilation

* `Outcomes`: a fragment or a failure for each node.
* `Outcomes.due`: what becomes of a node, given what became of the nodes that feed it.
* `Solves`: outcomes in which every node has what is due to it.  This says nothing of an order.
* `Solves.unique`: an acyclic snapshot has at most one solution.
* `solvesOn_progressAlong`: to compile in a topological order is to solve the snapshot.
* `compile_solves_uniquely`: the plan of an acyclic snapshot is its only solution, and so is
  what any topological order leads to.
-/

/-- What became of each node: its fragment, its failure, or nothing yet. -/
@[ext]
structure Outcomes where
  output? : NodeId → Option Fragment
  error? : NodeId → Option NodeFailure

/-- The outcomes of a plan. -/
def Plan.outcomes (p : Plan) : Outcomes := ⟨p.output?, p.error?⟩

/-- The outcomes of a compilation so far. -/
def Progress.outcomes (p : Progress) : Outcomes := ⟨p.output?, p.error?⟩

namespace Outcomes

/-- The sources of some edges as inputs, in edge order and each with the target handle of its
    edge; none at all if one of them has no fragment. -/
def inputs (o : Outcomes) (into : List Edge) : List Input :=
  if into.all fun e => (o.output? e.source).isSome then
    into.filterMap fun e => (o.output? e.source).map fun f => ⟨e.source, e.targetHandle, f⟩
  else []

/-- What becomes of a node with some incoming edges.  Where dependents of a failure are skipped,
    the first failed source counts; otherwise the number of edges is checked, and then the node
    is compiled on its inputs. -/
def due (settings : Settings) (context : Context) (o : Outcomes) (n : Node) (into : List Edge) :
    Except NodeFailure Fragment :=
  match settings.failurePolicy, into.find? fun e => (o.error? e.source).isSome with
  | .skipDependents, some e => .error (.skipped n.id e.source)
  | _, _ =>
    if n.kind.arity.accepts into.length then n.compile settings context (o.inputs into)
    else .error (.arity n.id n.kind n.kind.arity into.length)

/-- The outcome of a node is a certain one. -/
def Has (o : Outcomes) (id : NodeId) : Except NodeFailure Fragment → Prop
  | .ok f => o.output? id = some f ∧ o.error? id = none
  | .error e => o.output? id = none ∧ o.error? id = some e

/-- There is no outcome of a node. -/
def Lacks (o : Outcomes) (id : NodeId) : Prop := o.output? id = none ∧ o.error? id = none

/-- Two outcomes are the same at a node. -/
def SameAt (o o' : Outcomes) (id : NodeId) : Prop :=
  o.output? id = o'.output? id ∧ o.error? id = o'.error? id

/-- The same fragment, if any, and a failure in both or in none. -/
structure AgreeAt (o o' : Outcomes) (id : NodeId) : Prop where
  output_eq : o.output? id = o'.output? id
  failed_eq : (o.error? id).isSome = (o'.error? id).isSome

variable {o o' : Outcomes}

theorem SameAt.agreeAt {id : NodeId} (h : o.SameAt o' id) : o.AgreeAt o' id :=
  ⟨h.1, congrArg Option.isSome h.2⟩

/-- Two outcomes that are one and the same result make the node the same in both. -/
theorem Has.sameAt {id : NodeId} {r : Except NodeFailure Fragment} (h : o.Has id r)
    (h' : o'.Has id r) : o.SameAt o' id := by
  cases r with
  | ok f => exact ⟨h.1.trans h'.1.symm, h.2.trans h'.2.symm⟩
  | error e => exact ⟨h.1.trans h'.1.symm, h.2.trans h'.2.symm⟩

/-- Where outcomes are the same, a result of one of them is a result of the other. -/
theorem Has.of_sameAt {id : NodeId} {r : Except NodeFailure Fragment} (h : o'.Has id r)
    (hsame : o.SameAt o' id) : o.Has id r := by
  cases r with
  | ok f => exact ⟨hsame.1.trans h.1, hsame.2.trans h.2⟩
  | error e => exact ⟨hsame.1.trans h.1, hsame.2.trans h.2⟩

/-- A node with a fragment has this fragment as its result. -/
theorem Has.eq_ok {id : NodeId} {r : Except NodeFailure Fragment} {f : Fragment}
    (h : o.Has id r) (hf : o.output? id = some f) : r = .ok f := by
  cases r with
  | ok g => rw [Option.some.inj (h.1.symm.trans hf)]
  | error e => exact absurd (h.1.symm.trans hf) (by simp)

/-- A node with a failure has this failure as its result. -/
theorem Has.eq_error {id : NodeId} {r : Except NodeFailure Fragment} {e : NodeFailure}
    (h : o.Has id r) (he : o.error? id = some e) : r = .error e := by
  cases r with
  | ok f => exact absurd (h.2.symm.trans he) (by simp)
  | error e' => rw [Option.some.inj (h.2.symm.trans he)]

/-- The inputs of a node are decided by the fragments of the nodes that feed it. -/
theorem inputs_congr {into : List Edge}
    (h : ∀ e ∈ into, o.output? e.source = o'.output? e.source) :
    o.inputs into = o'.inputs into := by
  have hall : (into.all fun e => (o.output? e.source).isSome)
      = into.all fun e => (o'.output? e.source).isSome := by
    rw [Bool.eq_iff_iff, List.all_eq_true, List.all_eq_true]
    exact forall₂_congr fun e he => by rw [h e he]
  rw [inputs, inputs, hall]
  split
  · exact List.filterMap_congr fun e he => by rw [h e he]
  · rfl

/-- What is due to a node is decided by the fragments of the nodes that feed it, and by which of
    them have failed. -/
theorem due_congr (settings : Settings) (context : Context) (n : Node)
    (into : List Edge) (h : ∀ e ∈ into, o.AgreeAt o' e.source) :
    o.due settings context n into = o'.due settings context n into := by
  have hfind : (into.find? fun e => (o.error? e.source).isSome)
      = into.find? fun e => (o'.error? e.source).isSome := by
    rw [← List.head?_filter, ← List.head?_filter]
    exact congrArg List.head? (List.filter_congr fun e he => (h e he).failed_eq)
  rw [due, due, hfind, inputs_congr fun e he => (h e he).output_eq]

end Outcomes

/-- Every node of the snapshot, taken with its first entry, has the outcome that is due to it,
    and nothing else has one. -/
structure Solves (settings : Settings) (context : Context) (nodes : List Node)
    (edges : List Edge) (o : Outcomes) : Prop where
  lacks : ∀ id, Node.find? nodes id = none → o.Lacks id
  has : ∀ id n, Node.find? nodes id = some n →
    o.Has id (o.due settings context n (liveInto nodes edges id))

variable {settings : Settings} {context : Context} {nodes : List Node} {edges : List Edge}

/-- Fragments in a solution are due to their nodes. -/
theorem Solves.due_of_output {o : Outcomes} (h : Solves settings context nodes edges o)
    {id : NodeId} {f : Fragment} (hf : o.output? id = some f) :
    ∃ n, Node.find? nodes id = some n ∧
      o.due settings context n (liveInto nodes edges id) = .ok f := by
  cases hn : Node.find? nodes id with
  | none => exact absurd ((h.lacks id hn).1.symm.trans hf) (by simp)
  | some n => exact ⟨n, rfl, (h.has id n hn).eq_ok hf⟩

/-- Failures in a solution are due to their nodes. -/
theorem Solves.due_of_error {o : Outcomes} (h : Solves settings context nodes edges o)
    {id : NodeId} {e : NodeFailure} (he : o.error? id = some e) :
    ∃ n, Node.find? nodes id = some n ∧
      o.due settings context n (liveInto nodes edges id) = .error e := by
  cases hn : Node.find? nodes id with
  | none => exact absurd ((h.lacks id hn).2.symm.trans he) (by simp)
  | some n => exact ⟨n, rfl, (h.has id n hn).eq_error he⟩

/-- An acyclic snapshot has at most one solution: two of them agree at a node if they agree at
    the nodes that feed it. -/
theorem Solves.unique {o o' : Outcomes} (hacyclic : Acyclic nodes edges)
    (h : Solves settings context nodes edges o) (h' : Solves settings context nodes edges o') :
    o = o' := by
  have hsame : ∀ id, o.SameAt o' id := by
    intro id
    -- A node is fed before it is reached, so the same is due to it in both.
    induction id using (wellFounded_feeds_iff.mpr hacyclic).induction with
    | _ id ih =>
      cases hn : Node.find? nodes id with
      | none =>
        have hl := h.lacks id hn
        have hl' := h'.lacks id hn
        exact ⟨hl.1.trans hl'.1.symm, hl.2.trans hl'.2.symm⟩
      | some n =>
        have hdue := Outcomes.due_congr settings context n (liveInto nodes edges id)
          fun e he => (ih e.source (feeds_iff.mpr ⟨e, he, rfl⟩)).agreeAt
        exact (h.has id n hn).sameAt (hdue ▸ h'.has id n hn)
  exact Outcomes.ext (funext fun id => (hsame id).1) (funext fun id => (hsame id).2)

/-! ### Compiling in order -/

/-- All results are listed if every one of them is there, and none otherwise. -/
theorem mapM_getD_nil {α β : Type} (f : α → Option β) (l : List α) :
    (l.mapM f).getD [] = if l.all fun a => (f a).isSome then l.filterMap f else [] := by
  have hmap : l.mapM f = if l.all fun a => (f a).isSome then some (l.filterMap f) else none := by
    induction l with
    | nil => rfl
    | cons a rest ih =>
      rw [List.mapM_cons, ih]
      cases hf : f a with
      | none => simp [hf]
      | some b => by_cases hrest : (rest.all fun a => (f a).isSome) <;> simp [hf, hrest]
  rw [hmap]
  split <;> rfl

namespace Progress

/-- The outcome of a node is what is due to it. -/
theorem outcome_eq_due (p : Progress) (n : Node) (into : List Edge) :
    p.outcome settings context n (into.map fun e => (e.source, e.targetHandle))
      = p.outcomes.due settings context n into := by
  have hinputs : p.inputs (into.map fun e => (e.source, e.targetHandle))
      = p.outcomes.inputs into := by
    rw [inputs, mapM_getD_nil, Outcomes.inputs, List.all_map, List.filterMap_map]
    simp only [Function.comp_def, input?, Option.isSome_map]
    rfl
  have hfind : ((into.map fun e => (e.source, e.targetHandle)).find? fun s => p.hasFailed s.1)
      = (into.find? fun e => (p.outcomes.error? e.source).isSome).map
          fun e => (e.source, e.targetHandle) := by
    rw [List.find?_map]
    rfl
  rw [outcome, hfind, hinputs, List.length_map, Outcomes.due]
  unfold Node.checkArity
  -- Only where dependents are skipped does a failed source come before the number of edges.
  cases settings.failurePolicy with
  | «continue» =>
    simp only [reduceCtorEq, if_false]
    by_cases harity : n.kind.arity.accepts into.length = true <;> simp [harity]
  | skipDependents =>
    simp only [if_true]
    cases into.find? fun e => (p.outcomes.error? e.source).isSome with
    | some e => rfl
    | none => by_cases harity : n.kind.arity.accepts into.length = true <;> simp [harity]

/-- To note an outcome gives it to a node that has none. -/
theorem has_note {p : Progress} {id : NodeId} (h : p.outcomes.Lacks id)
    (r : Except NodeFailure Fragment) : (p.note id r).outcomes.Has id r := by
  obtain ⟨hout, herr⟩ := h
  simp only [outcomes, output?, error?] at hout herr
  cases r with
  | ok f => exact ⟨by simp [note, outcomes, output?, List.lookup_append, hout], herr⟩
  | error e => exact ⟨hout, by simp [note, outcomes, error?, List.lookup_append, herr]⟩

/-- To note an outcome changes no other. -/
theorem sameAt_note (p : Progress) {id v : NodeId} (h : v ≠ id)
    (r : Except NodeFailure Fragment) : (p.note id r).outcomes.SameAt p.outcomes v := by
  cases r with
  | ok f =>
    refine ⟨?_, rfl⟩
    simp [note, outcomes, output?, List.lookup_append, lookup_cons_if, h]
  | error e =>
    refine ⟨rfl, ?_⟩
    simp [note, outcomes, error?, List.lookup_append, lookup_cons_if, h]

end Progress

theorem Node.find?_eq_none_iff {id : NodeId} :
    Node.find? nodes id = none ↔ id ∉ nodes.map Node.id := by
  simp [Node.find?]

/-- To compile one more node is to note what is due to it. -/
theorem Progress.advance_eq_note (p : Progress) {id : NodeId} {n : Node}
    (hn : Node.find? nodes id = some n) :
    p.advance settings context nodes (Graph.build nodes edges) id
      = p.note id (p.outcomes.due settings context n (liveInto nodes edges id)) := by
  rw [advance, hn, Graph.build_inputs]
  exact congrArg (p.note id) (p.outcome_eq_due n _)

/-- The id of a node has an entry. -/
theorem Node.exists_find?_of_mem {id : NodeId} (h : id ∈ nodes.map Node.id) :
    ∃ n, Node.find? nodes id = some n := by
  rw [← Option.ne_none_iff_exists', ne_eq, Node.find?_eq_none_iff, not_not]
  exact h

/-- The nodes of a list have what is due to them, and no other node has an outcome. -/
structure SolvesOn (settings : Settings) (context : Context) (nodes : List Node)
    (edges : List Edge) (order : List NodeId) (o : Outcomes) : Prop where
  lacks : ∀ id, id ∉ order → o.Lacks id
  has : ∀ id ∈ order, ∀ n, Node.find? nodes id = some n →
    o.Has id (o.due settings context n (liveInto nodes edges id))

/-- One more node is solved: what is due to the nodes before it does not change, for none of
    them is fed by it. -/
theorem SolvesOn.advance {p : Progress} {order : List NodeId} {id : NodeId}
    (h : SolvesOn settings context nodes edges order p.outcomes)
    (hordered : (Graph.build nodes edges).Ordered order)
    (hbefore : (Graph.build nodes edges).dependencies id ⊆ order) (hnew : id ∉ order)
    (hid : id ∈ nodes.map Node.id) :
    SolvesOn settings context nodes edges (order ++ [id])
      (p.advance settings context nodes (Graph.build nodes edges) id).outcomes := by
  obtain ⟨n, hn⟩ := Node.exists_find?_of_mem hid
  rw [p.advance_eq_note hn]
  set r := p.outcomes.due settings context n (liveInto nodes edges id)
  -- The nodes that feed a node of the longer list are all in the shorter one.
  have hsources : ∀ v ∈ order ++ [id], ∀ e ∈ liveInto nodes edges v,
      (p.note id r).outcomes.SameAt p.outcomes e.source := by
    intro v hv e he
    have hdep : e.source ∈ (Graph.build nodes edges).dependencies v :=
      Graph.mem_build_dependencies.mpr (feeds_iff.mpr ⟨e, he, rfl⟩)
    refine p.sameAt_note (fun heq => hnew ?_) r
    rcases List.mem_append.mp hv with hv | hv
    · obtain ⟨l₁, l₂, rfl⟩ := List.append_of_mem hv
      exact List.mem_append_left _ (heq ▸ hordered l₁ v l₂ rfl hdep)
    · obtain rfl := List.mem_singleton.mp hv
      exact heq ▸ hbefore hdep
  refine ⟨fun v hv => ?_, fun v hv m hm => ?_⟩
  · rw [List.mem_append, List.mem_singleton, not_or] at hv
    have hsame := p.sameAt_note hv.2 r
    have hlacks := h.lacks v hv.1
    exact ⟨hsame.1.trans hlacks.1, hsame.2.trans hlacks.2⟩
  · rw [Outcomes.due_congr settings context m _ fun e he => (hsources v hv e he).agreeAt]
    by_cases heq : v = id
    · subst heq
      obtain rfl : n = m := Option.some.inj (hn.symm.trans hm)
      exact Progress.has_note (h.lacks v hnew) r
    · have hv' : v ∈ order := by simpa [heq] using hv
      exact (h.has v hv' m hm).of_sameAt (p.sameAt_note heq r)

/-- Along an order in which every node stands behind those that feed it, what is noted solves the
    nodes that were reached. -/
theorem solvesOn_progressAlong (settings : Settings) (context : Context)
    {order : List NodeId} (hnodup : order.Nodup)
    (hordered : (Graph.build nodes edges).Ordered order) (hids : order ⊆ nodes.map Node.id) :
    SolvesOn settings context nodes edges order
      (progressAlong settings context nodes edges order).outcomes := by
  -- The induction takes the last node off the order; nothing noted before it changes.
  induction order using List.reverseRecOn with
  | nil => exact ⟨fun _ _ => ⟨rfl, rfl⟩, fun id hid => absurd hid List.not_mem_nil⟩
  | append_singleton order id ih =>
    obtain ⟨hbefore, hdeps⟩ := Graph.ordered_concat.mp hordered
    obtain ⟨hrest, -, hdisjoint⟩ := List.nodup_append.mp hnodup
    have hnew : id ∉ order := fun hm => hdisjoint id hm id (List.mem_singleton_self id) rfl
    have hih := ih hrest hbefore fun v hv => hids (List.mem_append_left _ hv)
    rw [progressAlong, List.foldl_append]
    exact hih.advance hbefore hdeps hnew (hids (by simp))

/-- Along a topological order, what is noted in the end solves the snapshot. -/
theorem solves_progressAlong (settings : Settings) (context : Context) {order : List NodeId}
    (h : IsTopological nodes edges order) :
    Solves settings context nodes edges
      (progressAlong settings context nodes edges order).outcomes := by
  obtain ⟨hlacks, hhas⟩ := solvesOn_progressAlong settings context
    h.nodup h.ordered fun id hid => h.mem_iff.mp hid
  refine ⟨fun id hid => hlacks id ?_, fun id n hn => hhas id (h.mem_iff.mpr ?_) n hn⟩
  · rwa [h.mem_iff, ← Node.find?_eq_none_iff]
  · by_contra hnone
    rw [← Node.find?_eq_none_iff, hn] at hnone
    simp at hnone

/-- The plan of an acyclic snapshot solves it. -/
theorem solves_compile (settings : Settings) (context : Context) (h : Acyclic nodes edges) :
    Solves settings context nodes edges (compile settings nodes edges context).outcomes := by
  obtain ⟨order, horder, hcompile⟩ := compile_of_acyclic settings context h
  rw [hcompile]
  exact solves_progressAlong settings context horder

/-- **The plan is the only solution.**  The fragments and failures of an acyclic snapshot are
    those, and only those, in which every node has what is due to it; the order of the plan is
    topological, and every topological order leads to the same fragments and failures. -/
theorem compile_solves_uniquely (settings : Settings) (context : Context) (nodes : List Node)
    (edges : List Edge) (h : Acyclic nodes edges) :
    let p := compile settings nodes edges context
    (∀ o, Solves settings context nodes edges o ↔ o = p.outcomes) ∧
      IsTopological nodes edges p.order ∧
      ∀ order, IsTopological nodes edges order →
        (progressAlong settings context nodes edges order).outcomes = p.outcomes := by
  have hsolves := solves_compile settings context h
  refine ⟨fun o => ⟨fun ho => ho.unique h hsolves, fun ho => ho ▸ hsolves⟩, ?_, ?_⟩
  · obtain ⟨order, horder, hcompile⟩ := compile_of_acyclic settings context h
    rw [hcompile]
    exact horder
  · intro order horder
    -- Any such order leads to a solution, and there is only one.
    exact (solves_progressAlong settings context horder).unique h hsolves

/-- A join of a union, which reads one event twice, with a filter that lacks its input. -/
def forkNodes : List Node :=
  [⟨⟨"join"⟩, .join ⟨none, [⟨"l.a", .eq, "r.a"⟩]⟩⟩, ⟨⟨"union"⟩, .unionAll⟩,
    ⟨⟨"filter"⟩, .filter ⟨[]⟩⟩, ⟨⟨"event"⟩, .event ⟨none, []⟩⟩]

/-- The edges of the fork; two of them are parallel, and one has no source. -/
def forkEdges : List Edge :=
  [⟨none, ⟨"union"⟩, ⟨"join"⟩, none, some "right"⟩, ⟨none, ⟨"gone"⟩, ⟨"filter"⟩, none, none⟩,
    ⟨none, ⟨"filter"⟩, ⟨"join"⟩, none, some "left"⟩, ⟨none, ⟨"event"⟩, ⟨"union"⟩, none, none⟩,
    ⟨none, ⟨"event"⟩, ⟨"union"⟩, none, none⟩]

/-- The join is skipped for the filter, also where the union comes before the filter. -/
theorem compile_solves_uniquely_fork :
    let settings : Settings := { Settings.default with failurePolicy := .skipDependents }
    let order : List NodeId := [⟨"event"⟩, ⟨"union"⟩, ⟨"filter"⟩, ⟨"join"⟩]
    let p := compile settings forkNodes forkEdges ⟨"games", 7⟩
    Acyclic forkNodes forkEdges ∧ IsTopological forkNodes forkEdges order ∧ p.order ≠ order ∧
      p.outcomes.error? ⟨"join"⟩ = some (.skipped ⟨"join"⟩ ⟨"filter"⟩) ∧
      (progressAlong settings ⟨"games", 7⟩ forkNodes forkEdges order).outcomes = p.outcomes := by
  intro settings order p
  have hacyclic : Acyclic forkNodes forkEdges := cycles_build_eq_nil_iff.mp (by decide)
  have horder : IsTopological forkNodes forkEdges order := by decide
  have hsame := (compile_solves_uniquely settings ⟨"games", 7⟩ forkNodes forkEdges hacyclic).2.2
  exact ⟨hacyclic, horder, by decide +kernel, by decide +kernel, hsame order horder⟩

end QueryGraph
