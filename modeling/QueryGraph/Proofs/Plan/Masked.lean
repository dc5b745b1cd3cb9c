import QueryGraph.Proofs.Node.Masked
import QueryGraph.Proofs.Plan.Record
import QueryGraph.Proofs.Plan.Success

namespace QueryGraph

open Text (isRaw)

/-!
# The texts of a plan around their literals

* `maskNodes`: a snapshot without the texts that queries quote.
* `Outcomes.AlikeAt`: the same failure of a node, or fragments that are alike.
* `Solves.alikeAt_maskNodes`: this holds of all nodes of a snapshot and its mask, since it holds
  of a node if it holds of those that feed it.
* `fragments_closed`: the fragments of a plan are closed, whatever values they quote.
* `values_stay_in_literals`: values have no influence on anything but the bodies of literals.
-/

/-- The snapshot without the texts that its queries quote. -/
def maskNodes (nodes : List Node) : List Node := nodes.map Node.masked

variable {settings : Settings} {context : Context} {nodes : List Node} {edges : List Edge}

/-! ### The mask has the same graph -/

/-- The mask keeps the ids of the nodes. -/
theorem map_id_maskNodes (nodes : List Node) :
    (maskNodes nodes).map Node.id = nodes.map Node.id := by
  rw [maskNodes, List.map_map]
  rfl

/-- The mask has the same graph, since this is made from ids and edges. -/
theorem build_maskNodes (nodes : List Node) (edges : List Edge) :
    Graph.build (maskNodes nodes) edges = Graph.build nodes edges := by
  rw [Graph.build, Graph.build, map_id_maskNodes]

/-- The mask has the same live edges. -/
theorem liveInto_maskNodes (nodes : List Node) (edges : List Edge) (id : NodeId) :
    liveInto (maskNodes nodes) edges id = liveInto nodes edges id := by
  have hlive : liveEdges (maskNodes nodes) edges = liveEdges nodes edges :=
    List.filter_congr fun e _ => by
      rw [decide_eq_decide, Edge.IsLive, Edge.IsLive, map_id_maskNodes]
  rw [liveInto, liveInto, hlive]

/-- The mask of a node is found where the node is. -/
theorem find?_maskNodes (nodes : List Node) (id : NodeId) :
    Node.find? (maskNodes nodes) id = (Node.find? nodes id).map Node.masked := by
  rw [Node.find?, maskNodes, List.find?_map]
  rfl

/-- The mask keeps the names that queries take over as they are. -/
theorem configuredNames_maskNodes (settings : Settings) (context : Context)
    (nodes : List Node) :
    configuredNames settings context (maskNodes nodes)
      = configuredNames settings context nodes := by
  -- Names stand in every kind of content apart from the texts that are masked.
  have hcontent : ∀ c : Content, c.masked.names = c.names := by
    intro c
    cases c with
    | event config =>
      have hname : ∀ f : EventField, f.masked.name = f.name := by
        rintro ⟨name, source⟩
        cases source <;> rfl
      simp only [Content.masked, Content.names, List.map_map, Function.comp_def, hname]
    | filter config =>
      simp only [Content.masked, Content.names, List.map_map]
      rfl
    | unionAll | join config | aggregate config | output config => rfl
  rw [configuredNames, configuredNames, maskNodes, List.flatMap_map]
  simp only [Node.masked, hcontent]

theorem acyclic_maskNodes (h : Acyclic nodes edges) : Acyclic (maskNodes nodes) edges := by
  rwa [← cycles_build_eq_nil_iff, build_maskNodes, cycles_build_eq_nil_iff]

/-- The plan of the mask has the same order. -/
theorem order_maskNodes (settings : Settings) (context : Context) (nodes : List Node)
    (edges : List Edge) :
    (compile settings (maskNodes nodes) edges context).order
      = (compile settings nodes edges context).order := by
  by_cases h : Acyclic nodes edges
  · obtain ⟨order, horder⟩ := exists_schedule_build_iff.mpr h
    have hmasked : (Graph.build (maskNodes nodes) edges).schedule = .ok order := by
      rw [build_maskNodes, horder]
    rw [compile_of_schedule settings context horder, compile_of_schedule settings context hmasked]
    rfl
  · have hmasked : ¬ Acyclic (maskNodes nodes) edges := by
      rwa [← cycles_build_eq_nil_iff, build_maskNodes, cycles_build_eq_nil_iff]
    rw [compile_of_not_acyclic settings context h, compile_of_not_acyclic settings context hmasked]
    rfl

/-! ### Outcomes that are alike -/

namespace Outcomes

/-- The same failure of a node in both, if any, and fragments that are alike. -/
structure AlikeAt (o o' : Outcomes) (id : NodeId) : Prop where
  error_eq : o.error? id = o'.error? id
  output_rel : Option.Rel Fragment.Alike (o.output? id) (o'.output? id)

variable {o o' : Outcomes} {into : List Edge}

/-- Outcomes that are alike, each of them the outcome of the node, make the node alike in both. -/
theorem AlikeAt.of_has {id : NodeId} {r r' : Except NodeFailure Fragment} (h : AlikeResult r r')
    (hr : o.Has id r) (hr' : o'.Has id r') : o.AlikeAt o' id := by
  cases r with
  | ok f =>
    cases r' with
    | ok f' =>
      refine ⟨hr.2.trans hr'.2.symm, ?_⟩
      rw [hr.1, hr'.1]
      exact .some h
    | error e' => exact h.elim
  | error e =>
    cases r' with
    | ok f' => exact h.elim
    | error e' =>
      obtain rfl : e = e' := h
      refine ⟨hr.2.trans hr'.2.symm, ?_⟩
      rw [hr.1, hr'.1]
      exact .none

/-- A node that is alike in both has a fragment in both or in neither. -/
theorem AlikeAt.isSome_eq {id : NodeId} (h : o.AlikeAt o' id) :
    (o.output? id).isSome = (o'.output? id).isSome := by
  have hrel := h.output_rel
  generalize o.output? id = f, o'.output? id = f' at hrel
  cases hrel <;> rfl

/-- Nodes that are fed alike have inputs that are alike. -/
theorem forall₂_inputs (h : ∀ e ∈ into, o.AlikeAt o' e.source) :
    List.Forall₂ Input.Alike (o.inputs into) (o'.inputs into) := by
  -- Inputs are listed only if all sources have fragments, which is the case in both or in neither.
  have hall : (into.all fun e => (o.output? e.source).isSome)
      = into.all fun e => (o'.output? e.source).isSome := by
    rw [Bool.eq_iff_iff, List.all_eq_true, List.all_eq_true]
    exact forall₂_congr fun e he => by rw [(h e he).isSome_eq]
  rw [inputs, inputs, hall]
  split
  · refine List.rel_filterMap (R := fun e e' => e = e' ∧ o.AlikeAt o' e.source) ?_
      (List.forall₂_same.mpr fun e he => ⟨rfl, h e he⟩)
    rintro e _ ⟨rfl, hsource⟩
    have hrel := hsource.output_rel
    beta_reduce
    generalize o.output? e.source = f, o'.output? e.source = f' at hrel
    cases hrel with
    | none => exact .none
    | some hf => exact .some ⟨rfl, rfl, hf⟩
  · exact .nil

/-- Where the sources are alike, the same is due to a node and to its mask. -/
theorem alike_due {n : Node} (h : ∀ e ∈ into, o.AlikeAt o' e.source)
    (hnames : ∀ name ∈ configuredNames settings context [n], isRaw name = true)
    (hids : ∀ e ∈ into, '\n' ∉ e.source.text.toList) :
    AlikeResult (o.due settings context n into) (o'.due settings context n.masked into) := by
  -- The first source that failed is the same in both.
  have hfind : (into.find? fun e => (o.error? e.source).isSome)
      = into.find? fun e => (o'.error? e.source).isSome := by
    rw [← List.head?_filter, ← List.head?_filter]
    exact congrArg List.head? (List.filter_congr fun e he => by rw [(h e he).error_eq])
  have hnodes : ∀ i ∈ o.inputs into, '\n' ∉ i.node.text.toList := by
    intro i hi
    obtain ⟨e, he, hnode, -⟩ := exists_of_mem_inputs hi
    exact hnode ▸ hids e he
  have hcompile := Node.alike_compile_masked hnames hnodes (forall₂_inputs h)
  rw [due, due, hfind, Node.masked_kind, Node.masked_id]
  split
  · rfl
  · split
    · exact hcompile
    · rfl

end Outcomes

/-- Of solutions of a snapshot and of its mask, each is alike to the other at a node if it is at
    those that feed it. -/
theorem Solves.alikeAt_maskNodes (hacyclic : Acyclic nodes edges)
    (hnames : ∀ name ∈ configuredNames settings context nodes, isRaw name = true)
    (hids : ∀ n ∈ nodes, '\n' ∉ n.id.text.toList) {o o' : Outcomes}
    (h : Solves settings context nodes edges o)
    (h' : Solves settings context (maskNodes nodes) edges o') (id : NodeId) :
    o.AlikeAt o' id := by
  -- The induction goes along the edges, which are those of the mask as well.
  induction id using (wellFounded_feeds_iff.mpr hacyclic).induction with
  | _ id ih =>
    have hmasked := find?_maskNodes nodes id
    cases hn : Node.find? nodes id with
    | none =>
      rw [hn] at hmasked
      have hl := h.lacks id hn
      have hl' := h'.lacks id hmasked
      refine ⟨hl.2.trans hl'.2.symm, ?_⟩
      rw [hl.1, hl'.1]
      exact .none
    | some n =>
      rw [hn] at hmasked
      have hsources : ∀ e ∈ liveInto nodes edges id, '\n' ∉ e.source.text.toList := by
        intro e he
        obtain ⟨m, hm, hid⟩ := List.mem_map.mp (isLive_of_mem_liveInto he).1.1
        exact hid ▸ hids m hm
      have hdue := Outcomes.alike_due (fun e he => ih e.source (feeds_iff.mpr ⟨e, he, rfl⟩))
        (forall_names_of_mem (List.mem_of_find?_eq_some hn) hnames) hsources
      have hhas := h'.has id n.masked hmasked
      rw [liveInto_maskNodes] at hhas
      exact .of_has hdue (h.has id n hn) hhas

/-! ### Plans -/

/-- The plan of a snapshot is alike to the plan of its mask. -/
theorem alikeAt_compile_maskNodes (edges : List Edge)
    (hnames : ∀ name ∈ configuredNames settings context nodes, isRaw name = true)
    (hids : ∀ n ∈ nodes, '\n' ∉ n.id.text.toList) (id : NodeId) :
    (compile settings nodes edges context).outcomes.AlikeAt
      (compile settings (maskNodes nodes) edges context).outcomes id := by
  by_cases h : Acyclic nodes edges
  · exact (solves_compile settings context h).alikeAt_maskNodes h hnames hids
      (solves_compile settings context (acyclic_maskNodes h)) id
  · have hmasked : ¬ Acyclic (maskNodes nodes) edges := by
      rwa [← cycles_build_eq_nil_iff, build_maskNodes, cycles_build_eq_nil_iff]
    rw [compile_of_not_acyclic settings context h, compile_of_not_acyclic settings context hmasked]
    -- Abandoned plans have no outcomes.
    exact ⟨rfl, .none⟩

/-- **Fragments are closed, whatever they embed.**  If the names that queries take over as they
    are contain no quote, parenthesis or hyphen, and the names of nodes no line feed, then every
    fragment ends outside of literals and comments, with every parenthesis closed that was
    opened and none closed before it was opened.  The names of events, the paths and the values
    that filters compare with may be anything. -/
theorem fragments_closed (settings : Settings) (context : Context) (nodes : List Node)
    (edges : List Edge)
    (hnames : ∀ name ∈ configuredNames settings context nodes, isRaw name = true)
    (hids : ∀ n ∈ nodes, '\n' ∉ n.id.text.toList) :
    ∀ entry ∈ (compile settings nodes edges context).outputs,
      Text.isClosed entry.2.text = true := by
  intro entry hentry
  rw [(compile_records settings context nodes edges).1] at hentry
  have hf := mem_inOrder hentry
  have hrel := (alikeAt_compile_maskNodes edges hnames hids entry.1).output_rel
  -- Alike to whatever the mask has there, the fragment is neutral.
  change Option.Rel _ (Plan.output? _ entry.1) _ at hrel
  rw [hf] at hrel
  generalize Outcomes.output? _ entry.1 = f' at hrel
  cases hrel with
  | some halike => exact halike.2.neutral_left.isClosed

/-- A union of an event and of a filter of it, with a view on it.  The texts are those of the
    name of the event, of a path and of two values of the filter. -/
def quotingNodes (name path first second : String) : List Node :=
  [⟨⟨"event"⟩, .event ⟨some name, [⟨"level", .parameter path⟩, ⟨"user", .column⟩]⟩⟩,
    ⟨⟨"filter"⟩, .filter ⟨[⟨"level", .ge, .number (.int (-5) (by decide))⟩,
      ⟨"user", .notInSet, .array [.string first, .array [.string second, .null]]⟩]⟩⟩,
    ⟨⟨"it's -- all ("⟩, .unionAll⟩, ⟨⟨"view"⟩, .output ⟨some " all "⟩⟩]

/-- The edges between these nodes. -/
def quotingEdges : List Edge :=
  [⟨none, ⟨"event"⟩, ⟨"filter"⟩, none, none⟩,
    ⟨none, ⟨"event"⟩, ⟨"it's -- all ("⟩, none, none⟩,
    ⟨none, ⟨"filter"⟩, ⟨"it's -- all ("⟩, none, none⟩,
    ⟨none, ⟨"it's -- all ("⟩, ⟨"view"⟩, none, none⟩]

/-- Quotes, parentheses, comments and line feeds in all values, and all four nodes compiled. -/
theorem fragments_closed_quoting :
    let nodes := quotingNodes "it's\r\n--(" "a'b" ")'; --" "\n\n(('"
    let p := compile Settings.default nodes quotingEdges ⟨"games", 7⟩
    (∀ name ∈ configuredNames Settings.default ⟨"games", 7⟩ nodes, isRaw name = true) ∧
      (∀ n ∈ nodes, '\n' ∉ n.id.text.toList) ∧ p.outputs.length = 4 ∧
      ∀ entry ∈ p.outputs, Text.isClosed entry.2.text = true := by
  intro nodes p
  have hnames : ∀ name ∈ configuredNames Settings.default ⟨"games", 7⟩ nodes,
      isRaw name = true := by decide +kernel
  have hids : ∀ n ∈ nodes, '\n' ∉ n.id.text.toList := by decide +kernel
  exact ⟨hnames, hids, by decide +kernel,
    fragments_closed Settings.default ⟨"games", 7⟩ nodes quotingEdges hnames hids⟩

/-- The text of a fragment with the bodies of all literals erased. -/
def Fragment.erased (f : Fragment) : String := Text.eraseLiterals f.text

/-- The nodes with a fragment, each with its text, but without the bodies of literals. -/
def Plan.erased (p : Plan) : List (NodeId × String) :=
  p.outputs.map fun entry => (entry.1, entry.2.erased)

/-- The plan of a snapshot and that of its mask can be told apart by the bodies of literals
    only. -/
theorem compile_maskNodes (edges : List Edge)
    (hnames : ∀ name ∈ configuredNames settings context nodes, isRaw name = true)
    (hids : ∀ n ∈ nodes, '\n' ∉ n.id.text.toList) :
    let p := compile settings nodes edges context
    let p' := compile settings (maskNodes nodes) edges context
    p.order = p'.order ∧ p.errors = p'.errors ∧ p.erased = p'.erased := by
  intro p p'
  have horder : p.order = p'.order := (order_maskNodes settings context nodes edges).symm
  have halike : ∀ id, p.outcomes.AlikeAt p'.outcomes id :=
    alikeAt_compile_maskNodes edges hnames hids
  obtain ⟨houtputs, herrors⟩ := compile_records settings context nodes edges
  obtain ⟨houtputs', herrors'⟩ := compile_records settings context (maskNodes nodes) edges
  refine ⟨horder, ?_, ?_⟩
  · calc p.errors = inOrder p.order p.error? := herrors
      _ = inOrder p'.order p'.error? := by
        rw [horder]
        exact inOrder_congr fun id _ => (halike id).error_eq
      _ = p'.errors := herrors'.symm
  · have herased : ∀ id, (p.output? id).map Fragment.erased
        = (p'.output? id).map Fragment.erased := by
      intro id
      have hrel := (halike id).output_rel
      change Option.Rel _ (p.output? id) (p'.output? id) at hrel
      generalize p.output? id = f, p'.output? id = f' at hrel
      cases hrel with
      | none => rfl
      | some hf => exact congrArg some hf.2.eraseLiterals_eq
    -- The texts are listed in the order of the plan, and those of each node are alike.
    have hlist : ∀ q : Plan, q.outputs = inOrder q.order q.output? →
        q.erased = inOrder q.order fun id => (q.output? id).map Fragment.erased := by
      intro q hq
      rw [Plan.erased, hq]
      exact map_inOrder q.order q.output? Fragment.erased
    rw [hlist p houtputs, hlist p' houtputs', horder]
    exact inOrder_congr fun id _ => herased id

/-- **Values stay inside of their literals.**  Take two snapshots that differ in nothing but the
    texts that queries quote: the names of events, where they are not blank, the paths into their
    parameters, and the texts in the values that filters compare with, however deep in arrays or
    objects.  Their plans have the same order, the same failures, and fragments for the same
    nodes, with texts that become the same when the bodies of literals are erased. -/
theorem values_stay_in_literals (settings : Settings) (context : Context)
    (nodes nodes' : List Node) (edges : List Edge)
    (hnames : ∀ name ∈ configuredNames settings context nodes, isRaw name = true)
    (hids : ∀ n ∈ nodes, '\n' ∉ n.id.text.toList)
    (hsame : maskNodes nodes = maskNodes nodes') :
    let p := compile settings nodes edges context
    let p' := compile settings nodes' edges context
    p.order = p'.order ∧ p.errors = p'.errors ∧ p.erased = p'.erased := by
  intro p p'
  have hnames' : ∀ name ∈ configuredNames settings context nodes', isRaw name = true := by
    rwa [← configuredNames_maskNodes, ← hsame, configuredNames_maskNodes]
  have hids' : ∀ n ∈ nodes', '\n' ∉ n.id.text.toList := by
    have hmap : nodes.map Node.id = nodes'.map Node.id := by
      rw [← map_id_maskNodes, hsame, map_id_maskNodes]
    intro n hn
    obtain ⟨m, hm, hid⟩ := List.mem_map.mp (hmap ▸ List.mem_map_of_mem (f := Node.id) hn)
    exact hid ▸ hids m hm
  -- Both snapshots have the same mask, and each plan is compared with that of the mask.
  obtain ⟨horder, herrors, herased⟩ := compile_maskNodes edges hnames hids
  obtain ⟨horder', herrors', herased'⟩ := compile_maskNodes edges hnames' hids'
  rw [hsame] at horder herrors herased
  exact ⟨horder.trans horder'.symm, herrors.trans herrors'.symm, herased.trans herased'.symm⟩

/-- Harmless values, and values that would end the query if they got out of their literals. -/
theorem values_stay_in_literals_quoting :
    let nodes := quotingNodes "start" "level" "a" "b"
    let nodes' := quotingNodes "it's\r\n--(" "a'b" ")'; --" "\n\n(('"
    let p := compile Settings.default nodes quotingEdges ⟨"games", 7⟩
    let p' := compile Settings.default nodes' quotingEdges ⟨"games", 7⟩
    (∀ name ∈ configuredNames Settings.default ⟨"games", 7⟩ nodes, isRaw name = true) ∧
      (∀ n ∈ nodes, '\n' ∉ n.id.text.toList) ∧ maskNodes nodes = maskNodes nodes' ∧
      p.outputs.length = 4 ∧ p.outputs ≠ p'.outputs ∧
      p.order = p'.order ∧ p.errors = p'.errors ∧ p.erased = p'.erased := by
  intro nodes nodes' p p'
  have hnames : ∀ name ∈ configuredNames Settings.default ⟨"games", 7⟩ nodes,
      isRaw name = true := by decide +kernel
  have hids : ∀ n ∈ nodes, '\n' ∉ n.id.text.toList := by decide +kernel
  have hname : Event.maskedName (some "start") = Event.maskedName (some "it's\r\n--(") := by
    decide +kernel
  -- The masks are compared part by part, so that no query is compiled for it.
  have hsame : maskNodes nodes = maskNodes nodes' := by
    simp only [nodes, nodes', quotingNodes, maskNodes, List.map_cons, List.map_nil, Node.masked,
      Content.masked, hname, EventField.masked, FilterCondition.masked, Json.masked,
      Json.maskedItems]
  exact ⟨hnames, hids, hsame, by decide +kernel, by decide +kernel,
    values_stay_in_literals Settings.default ⟨"games", 7⟩ nodes nodes' quotingEdges hnames hids
      hsame⟩

end QueryGraph
