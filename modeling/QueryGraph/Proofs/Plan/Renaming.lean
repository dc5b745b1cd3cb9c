import QueryGraph.Proofs.Graph.Renaming
import QueryGraph.Proofs.Node.Renaming
import QueryGraph.Proofs.Plan.Record
import QueryGraph.Proofs.Plan.Success

namespace QueryGraph

/-!
# Plans under other names

* `renameNodes`, `renameEdges`, `Plan.rename`: a snapshot and a plan with other names for the
  nodes.
* `Plan.mapTexts`, `Plan.withoutTexts`: a plan with all query texts in it replaced, or emptied.
* `Relates`: a relation between the texts of a snapshot and of the renamed one that holds at a
  node if it holds at those that feed it; `Solves.renamedAt` is the induction over the snapshot.
* `mapTexts_compile_rename`: the plan of a renamed snapshot is the renamed plan, but for what
  tells related texts apart.
-/

/-! ### Snapshots under other names -/

/-- The nodes under their new names. -/
def renameNodes (f : NodeId → NodeId) (nodes : List Node) : List Node := nodes.map (Node.rename f)

/-- The edges between the renamed nodes. -/
def renameEdges (f : NodeId → NodeId) (edges : List Edge) : List Edge := edges.map (Edge.rename f)

/-- The ids that a snapshot mentions: those of its nodes and those at the ends of its edges. -/
def mentionedIds (nodes : List Node) (edges : List Edge) : List NodeId :=
  nodes.map Node.id ++ (edges.map Edge.source ++ edges.map Edge.target)

section Snapshot

variable {nodes : List Node} {edges : List Edge} {f : NodeId → NodeId}

/-- The ids of renamed nodes are the renamed ids. -/
theorem map_id_renameNodes (f : NodeId → NodeId) (nodes : List Node) :
    (renameNodes f nodes).map Node.id = (nodes.map Node.id).map f := by
  rw [renameNodes, List.map_map, List.map_map]
  rfl

/-- Only the names of ids that are mentioned count. -/
theorem renameNodes_congr {h : NodeId → NodeId}
    (heq : ∀ id ∈ mentionedIds nodes edges, h id = f id) :
    renameNodes h nodes = renameNodes f nodes :=
  List.map_congr_left fun n hn => by
    rw [Node.rename, Node.rename, heq n.id (List.mem_append_left _ (List.mem_map_of_mem hn))]

/-- Only what ids that are mentioned are renamed to matters for the edges. -/
theorem renameEdges_congr {h : NodeId → NodeId}
    (heq : ∀ id ∈ mentionedIds nodes edges, h id = f id) :
    renameEdges h edges = renameEdges f edges :=
  List.map_congr_left fun e he => by
    have hsource : e.source ∈ mentionedIds nodes edges :=
      List.mem_append_right _ (List.mem_append_left _ (List.mem_map_of_mem he))
    have htarget : e.target ∈ mentionedIds nodes edges :=
      List.mem_append_right _ (List.mem_append_right _ (List.mem_map_of_mem he))
    rw [Edge.rename, Edge.rename, heq e.source hsource, heq e.target htarget]

variable (hf : Function.Injective f)

include hf

/-- The graph of a renamed snapshot is the renamed graph. -/
theorem build_rename (nodes : List Node) (edges : List Edge) :
    Graph.build (renameNodes f nodes) (renameEdges f edges)
      = (Graph.build nodes edges).rename f := by
  rw [Graph.build, map_id_renameNodes]
  exact Graph.foldl_rename hf _ _

/-- A renamed node is found under its new id. -/
theorem find?_renameNodes (nodes : List Node) (id : NodeId) :
    Node.find? (renameNodes f nodes) (f id) = (Node.find? nodes id).map (Node.rename f) := by
  rw [Node.find?, renameNodes, List.find?_map]
  simp only [Function.comp_def, Node.rename, hf.eq_iff]
  rfl

/-- The same edges are live after the nodes got their new names. -/
theorem liveEdges_rename (nodes : List Node) (edges : List Edge) :
    liveEdges (renameNodes f nodes) (renameEdges f edges)
      = (liveEdges nodes edges).map (Edge.rename f) := by
  rw [liveEdges, renameEdges, List.filter_map]
  refine congrArg _ (List.filter_congr fun e _ => ?_)
  rw [Function.comp_apply, decide_eq_decide, Edge.IsLive, map_id_renameNodes, Edge.IsLive]
  exact and_congr (List.mem_map_of_injective hf) (List.mem_map_of_injective hf)

/-- A renamed node has the renamed live edges, in the same order. -/
theorem liveInto_rename (nodes : List Node) (edges : List Edge) (id : NodeId) :
    liveInto (renameNodes f nodes) (renameEdges f edges) (f id)
      = (liveInto nodes edges id).map (Edge.rename f) := by
  rw [liveInto, liveEdges_rename hf, List.filter_map, liveInto]
  simp only [Function.comp_def, Edge.rename, hf.eq_iff]

/-- Renaming neither makes nor breaks a cycle. -/
theorem acyclic_rename :
    Acyclic (renameNodes f nodes) (renameEdges f edges) ↔ Acyclic nodes edges := by
  rw [← cycles_build_eq_nil_iff, build_rename hf, Graph.cycles_rename hf, List.map_eq_nil_iff,
    cycles_build_eq_nil_iff]

end Snapshot

/-! ### Plans under other names -/

/-- The failure of the renamed graph. -/
def GraphFailure.rename (f : NodeId → NodeId) : GraphFailure → GraphFailure
  | .cycles found => .cycles (found.map (List.map f))
  | .unschedulable scheduled total => .unschedulable scheduled total

/-- The fragments and failures of the renamed nodes. -/
def Progress.rename (f : NodeId → NodeId) (p : Progress) : Progress where
  outputs := p.outputs.map fun entry => (f entry.1, entry.2)
  errors := p.errors.map fun entry => (f entry.1, entry.2.rename f)

/-- The plan with other names for the nodes, wherever it names them. -/
def Plan.rename (f : NodeId → NodeId) (p : Plan) : Plan :=
  { p with
    order := p.order.map f
    outputs := p.outputs.map fun entry => (f entry.1, entry.2)
    programs := p.programs.map fun entry => (f entry.1, entry.2)
    errors := p.errors.map fun entry => (f entry.1, entry.2.rename f)
    cycles := p.cycles.map (List.map f)
    fatal := p.fatal.map (GraphFailure.rename f) }

/-- The fragment with another text. -/
def Fragment.mapText (h : String → String) (g : Fragment) : Fragment := { g with text := h g.text }

/-- The fragments with other texts, and the failures. -/
def Progress.mapTexts (h : String → String) (p : Progress) : Progress :=
  { p with outputs := p.outputs.map fun entry => (entry.1, entry.2.mapText h) }

/-- The plan with every query text in it replaced. -/
def Plan.mapTexts (h : String → String) (p : Plan) : Plan :=
  { p with
    outputs := p.outputs.map fun entry => (entry.1, entry.2.mapText h)
    finalText := p.finalText.map h
    programs := p.programs.map fun entry => (entry.1, h entry.2) }

/-- The plan with every query text in it emptied. -/
def Plan.withoutTexts (p : Plan) : Plan := p.mapTexts fun _ => ""

theorem Plan.mapTexts_id (p : Plan) : p.mapTexts id = p := by
  simp [mapTexts, Fragment.mapText]

variable {settings : Settings} {context : Context} {nodes : List Node} {edges : List Edge}
  {f : NodeId → NodeId}

/-- Looking up a key commutes with changing the values. -/
theorem lookup_map_snd {α β γ : Type} [DecidableEq α] (l : List (α × β)) (h : β → γ) (a : α) :
    (l.map fun e => (e.1, h e.2)).lookup a = (l.lookup a).map h :=
  lookup_map_injective Function.injective_id l h a

/-- It makes no difference whether texts are replaced before a plan is made or after it. -/
theorem finish_mapTexts (h : String → String) (nodes : List Node) (g : Graph)
    (order : List NodeId) (p : Progress) :
    finish nodes g order (p.mapTexts h) = (finish nodes g order p).mapTexts h := by
  have houtput : ∀ id, (p.mapTexts h).output? id = (p.output? id).map (Fragment.mapText h) :=
    lookup_map_snd p.outputs (Fragment.mapText h)
  have hfinal : (order.reverse.findSome? (p.mapTexts h).output?).map Fragment.text
      = ((order.reverse.findSome? p.output?).map Fragment.text).map h := by
    rw [funext houtput]
    -- The last fragment is the last one whatever the texts are.
    induction order.reverse with
    | nil => rfl
    | cons id rest ih => cases hid : p.output? id <;> simp [hid, ih, Fragment.mapText]
  have hprograms : ∀ terminal : List NodeId,
      (terminal.filterMap fun id => ((p.mapTexts h).output? id).map fun g => (id, g.text))
        = (terminal.filterMap fun id => (p.output? id).map fun g => (id, g.text)).map
            fun entry => (entry.1, h entry.2) := by
    intro terminal
    rw [List.map_filterMap]
    simp only [houtput, Option.map_map]
    rfl
  unfold finish
  rw [hfinal, hprograms]
  simp only [Plan.mapTexts, Progress.mapTexts, List.length_map]

section Injective

variable (hf : Function.Injective f)

include hf

/-- The numbers about the graph do not depend on names. -/
theorem structuralStatistics_rename (nodes : List Node) (g : Graph) :
    structuralStatistics (renameNodes f nodes) (g.rename f) = structuralStatistics nodes g := by
  have hkinds : (((g.ids.map f).filterMap (Node.find? (renameNodes f nodes))).map Node.kind)
      = (g.ids.filterMap (Node.find? nodes)).map Node.kind := by
    rw [List.filterMap_map, List.map_filterMap, List.map_filterMap]
    simp only [Function.comp_def, find?_renameNodes hf, Option.map_map]
    rfl
  rw [structuralStatistics, Graph.ids_rename, hkinds, Graph.size_rename]
  rfl

/-- A renamed node makes a program if the node does. -/
theorem isTerminal_rename (nodes : List Node) (g : Graph) (id : NodeId) :
    isTerminal (renameNodes f nodes) (g.rename f) (f id) = isTerminal nodes g id := by
  rw [isTerminal, find?_renameNodes hf, Graph.dependents_rename hf, List.isEmpty_map, isTerminal]
  cases Node.find? nodes id <;> rfl

/-- The plan for renamed nodes with renamed outcomes is the renamed plan. -/
theorem finish_rename (nodes : List Node) (g : Graph) (order : List NodeId) (p : Progress) :
    finish (renameNodes f nodes) (g.rename f) (order.map f) (p.rename f)
      = (finish nodes g order p).rename f := by
  have houtput : ∀ id, (p.rename f).output? (f id) = p.output? id := fun id =>
    (lookup_map_injective hf p.outputs (fun g => g) id).trans Option.map_id'
  have hfinal : (order.map f).reverse.findSome? (p.rename f).output?
      = order.reverse.findSome? p.output? := by
    rw [← List.map_reverse, List.findSome?_map]
    exact congrArg (List.findSome? · order.reverse) (funext houtput)
  have hprograms : (((order.map f).filter (isTerminal (renameNodes f nodes) (g.rename f))).filterMap
        fun id => ((p.rename f).output? id).map fun g => (id, g.text))
      = ((order.filter (isTerminal nodes g)).filterMap
          fun id => (p.output? id).map fun g => (id, g.text)).map
            fun entry => (f entry.1, entry.2) := by
    -- Whether a node makes a program is asked about its new id, behind the new order.
    have hterminal : isTerminal (renameNodes f nodes) (g.rename f) ∘ f = isTerminal nodes g :=
      funext (isTerminal_rename hf nodes g)
    rw [List.filter_map, hterminal, List.filterMap_map, List.map_filterMap]
    simp only [Function.comp_def, houtput, Option.map_map]
  have herrors : (p.rename f).errors.isEmpty = p.errors.isEmpty := List.isEmpty_map
  have hskipped : ((p.rename f).errors.countP fun e => e.2.isSkipped)
      = p.errors.countP fun e => e.2.isSkipped := by
    rw [Progress.rename, List.countP_map]
    simp only [Function.comp_def, NodeFailure.isSkipped_rename]
  unfold finish
  rw [hfinal, hprograms, herrors, hskipped, structuralStatistics_rename hf]
  simp [Plan.rename, Progress.rename]

end Injective

/-! ### Outcomes under other names -/

namespace Outcomes

/-- What became of the renamed node is the failure of the renamed nodes, or a fragment with a
    related text. -/
structure RenamedAt (f : NodeId → NodeId) (r : String → String → Prop) (o o' : Outcomes)
    (id : NodeId) : Prop where
  error_eq : o'.error? (f id) = (o.error? id).map (NodeFailure.rename f)
  output_rel : Option.Rel (Fragment.Related r) (o.output? id) (o'.output? (f id))

variable {r r' : String → String → Prop} {o o' : Outcomes} {into : List Edge}

/-- Texts that are related in one way may be taken as related in a weaker one. -/
theorem RenamedAt.mono {id : NodeId} (h : o.RenamedAt f r o' id) (hr : ∀ {s s'}, r s s' → r' s s') :
    o.RenamedAt f r' o' id := by
  refine ⟨h.error_eq, ?_⟩
  have hrel := h.output_rel
  generalize o.output? id = g, o'.output? (f id) = g' at hrel ⊢
  cases hrel with
  | none => exact .none
  | some hg => exact .some ⟨hg.kind_eq, hg.metadata_eq, hr hg.text⟩

/-- Results that are related, each the outcome of the node under its name, make the node related in
    both. -/
theorem RenamedAt.of_has {id : NodeId} {a a' : Except NodeFailure Fragment}
    (h : RenamedResult f r a a') (ha : o.Has id a) (ha' : o'.Has (f id) a') :
    o.RenamedAt f r o' id := by
  cases a with
  | ok g =>
    cases a' with
    | ok g' =>
      refine ⟨by rw [ha.2, ha'.2]; rfl, ?_⟩
      rw [ha.1, ha'.1]
      exact .some h
    | error e' => exact h.elim
  | error e =>
    cases a' with
    | ok g' => exact h.elim
    | error e' =>
      obtain rfl : e' = e.rename f := h
      refine ⟨by rw [ha.2, ha'.2]; rfl, ?_⟩
      rw [ha.1, ha'.1]
      exact .none

/-- A renamed node has a fragment if the node has one. -/
theorem RenamedAt.isSome_eq {id : NodeId} (h : o.RenamedAt f r o' id) :
    (o'.output? (f id)).isSome = (o.output? id).isSome := by
  have hrel := h.output_rel
  generalize o.output? id = g, o'.output? (f id) = g' at hrel
  cases hrel <;> rfl

/-- The renamed edges carry the renamed inputs. -/
theorem forall₂_renamed_inputs (h : ∀ e ∈ into, o.RenamedAt f r o' e.source) :
    List.Forall₂ (Input.Renamed f r) (o.inputs into) (o'.inputs (into.map (Edge.rename f))) := by
  -- All sources have fragments before the renaming if they have them after it.
  have hall : ((into.map (Edge.rename f)).all fun e => (o'.output? e.source).isSome)
      = into.all fun e => (o.output? e.source).isSome := by
    rw [List.all_map, Bool.eq_iff_iff, List.all_eq_true, List.all_eq_true]
    refine forall₂_congr fun e he => ?_
    show (o'.output? (f e.source)).isSome = true ↔ _
    rw [(h e he).isSome_eq]
  rw [inputs, inputs, hall]
  split
  · refine List.rel_filterMap
      (R := fun e e' => e' = e.rename f ∧ o.RenamedAt f r o' e.source) ?_ ?_
    · rintro e _ ⟨rfl, hsource⟩
      have hrel := hsource.output_rel
      show Option.Rel _ ((o.output? e.source).map _) ((o'.output? (f e.source)).map _)
      generalize o.output? e.source = g, o'.output? (f e.source) = g' at hrel
      cases hrel with
      | none => exact .none
      | some hg => exact .some ⟨rfl, rfl, hg⟩
    · rw [List.forall₂_map_right_iff, List.forall₂_same]
      exact fun e he => ⟨rfl, h e he⟩
  · exact .nil

/-- The first failed source of the renamed edges is the renamed one. -/
theorem find?_failed_rename (h : ∀ e ∈ into, o.RenamedAt f r o' e.source) :
    ((into.map (Edge.rename f)).find? fun e => (o'.error? e.source).isSome)
      = (into.find? fun e => (o.error? e.source).isSome).map (Edge.rename f) := by
  rw [List.find?_map, ← List.head?_filter, ← List.head?_filter]
  refine congrArg (Option.map (Edge.rename f) ·.head?) (List.filter_congr fun e he => ?_)
  show (o'.error? (f e.source)).isSome = _
  rw [(h e he).error_eq, Option.isSome_map]

variable {front whole : String → String → Prop}

/-- Where the sources have the renamed outcomes, the renamed outcome is due to the renamed node. -/
theorem renamed_due {n : Node} (hwhole : Text.Composes front whole)
    (hframe : n.content.Framed front whole settings context)
    (hheader : n.kind = .unionAll → ∀ e ∈ into, ∀ i i' : Input, i.node = e.source →
      i.Renamed f whole i' → ∀ position, front ("--" ++ UnionAll.header position i ++ "\n")
        ("--" ++ UnionAll.header position i' ++ "\n"))
    (h : ∀ e ∈ into, o.RenamedAt f whole o' e.source) :
    RenamedResult f whole (o.due settings context n into)
      (o'.due settings context (n.rename f) (into.map (Edge.rename f))) := by
  have hcompile := Node.renamed_compile hwhole hframe (fun hkind i hi i' hrenamed => by
    obtain ⟨e, he, hnode, -⟩ := exists_of_mem_inputs hi
    exact hheader hkind e he i i' hnode hrenamed) (forall₂_renamed_inputs h)
  -- Without a failed source only the number of edges and the node itself matter.
  have hcounted : RenamedResult f whole
      (if n.kind.arity.accepts into.length then n.compile settings context (o.inputs into)
        else .error (.arity n.id n.kind n.kind.arity into.length))
      (if n.kind.arity.accepts into.length then
        (n.rename f).compile settings context (o'.inputs (into.map (Edge.rename f)))
        else .error (.arity (f n.id) n.kind n.kind.arity into.length)) := by
    split
    · exact hcompile
    · rfl
  have hkind : (n.rename f).kind = n.kind := rfl
  rw [due, due, find?_failed_rename h, hkind, List.length_map]
  cases settings.failurePolicy with
  | «continue» => exact hcounted
  | skipDependents =>
    -- A skipped node names its first failed source, which has got its new name.
    cases into.find? fun e => (o.error? e.source).isSome with
    | none => exact hcounted
    | some e => rfl

end Outcomes

/-- Relations between the texts of a snapshot and those of the renamed one, two at each node, as
    queries preserve them: they hold at a node if they hold at those that feed it. -/
structure Relates (settings : Settings) (context : Context) (nodes : List Node)
    (edges : List Edge) (f : NodeId → NodeId) (front whole : NodeId → String → String → Prop) :
    Prop where
  composes : ∀ id, Text.Composes (front id) (whole id)
  along : ∀ {u v}, Feeds nodes edges u v → ∀ {s s'}, whole u s s' → whole v s s'
  framed : ∀ {id n}, Node.find? nodes id = some n →
    n.content.Framed (front id) (whole id) settings context
  header : ∀ {id n}, Node.find? nodes id = some n → n.kind = .unionAll →
    ∀ {i i' : Input}, Feeds nodes edges i.node id → i.Renamed f (whole id) i' →
      ∀ position, front id ("--" ++ UnionAll.header position i ++ "\n")
        ("--" ++ UnionAll.header position i' ++ "\n")

section Injective

variable (hf : Function.Injective f) {front whole : NodeId → String → String → Prop}
  (hrelates : Relates settings context nodes edges f front whole)

include hf hrelates

/-- Of solutions of a snapshot and of the renamed one, the second is the renamed first at every
    node, since it is at those that feed it. -/
theorem Solves.renamedAt (hacyclic : Acyclic nodes edges) {o o' : Outcomes}
    (h : Solves settings context nodes edges o)
    (h' : Solves settings context (renameNodes f nodes) (renameEdges f edges) o') (id : NodeId) :
    o.RenamedAt f (whole id) o' id := by
  -- The induction goes along the edges, and what relates the texts passes along them.
  induction id using (wellFounded_feeds_iff.mpr hacyclic).induction with
  | _ id ih =>
    have hrenamed := find?_renameNodes hf nodes id
    cases hn : Node.find? nodes id with
    | none =>
      rw [hn] at hrenamed
      have hl := h.lacks id hn
      have hl' := h'.lacks (f id) hrenamed
      refine ⟨by rw [hl.2, hl'.2]; rfl, ?_⟩
      rw [hl.1, hl'.1]
      exact .none
    | some n =>
      rw [hn] at hrenamed
      have hsources : ∀ e ∈ liveInto nodes edges id, o.RenamedAt f (whole id) o' e.source := by
        intro e he
        have hfeeds := feeds_iff.mpr ⟨e, he, rfl⟩
        exact (ih e.source hfeeds).mono (hrelates.along hfeeds)
      have hdue := Outcomes.renamed_due (hrelates.composes id) (hrelates.framed hn)
        (fun hkind e he i i' hnode => hrelates.header hn hkind
          (hnode ▸ feeds_iff.mpr ⟨e, he, rfl⟩)) hsources
      have hhas := h'.has (f id) (n.rename f) hrenamed
      rw [liveInto_rename hf] at hhas
      exact .of_has hdue (h.has id n hn) hhas

/-- Compiled in the renamed order, the renamed nodes have the renamed outcomes. -/
theorem mapTexts_progressAlong_rename {h : String → String}
    (hsame : ∀ id ∈ nodes.map Node.id, ∀ {s s'}, whole id s s' → h s = h s') {order : List NodeId}
    (horder : (Graph.build nodes edges).schedule = .ok order) :
    (progressAlong settings context (renameNodes f nodes) (renameEdges f edges)
        (order.map f)).mapTexts h
      = ((progressAlong settings context nodes edges order).rename f).mapTexts h := by
  have horder' : (Graph.build (renameNodes f nodes) (renameEdges f edges)).schedule
      = .ok (order.map f) := by
    rw [build_rename hf, Graph.schedule_rename hf, horder]
    rfl
  have htop := isTopological_of_schedule horder
  have htop' := isTopological_of_schedule horder'
  have hrenamed := (solves_progressAlong settings context htop).renamedAt hf hrelates
    (exists_schedule_build_iff.mp ⟨order, horder⟩) (solves_progressAlong settings context htop')
  -- Both lists are in the order of the plan, so they are compared node by node.
  have hrecords := records_progressAlong settings context htop.nodup htop.ordered
    fun id hid => htop.mem_iff.mp hid
  have hrecords' := records_progressAlong settings context htop'.nodup htop'.ordered
    fun id hid => htop'.mem_iff.mp hid
  generalize progressAlong settings context nodes edges order = p at *
  generalize progressAlong settings context (renameNodes f nodes) (renameEdges f edges)
    (order.map f) = p' at *
  have houtput : ∀ id ∈ order, (p'.output? (f id)).map (Fragment.mapText h)
      = (p.output? id).map (Fragment.mapText h) := by
    intro id hid
    have hrel := (hrenamed id).output_rel
    change Option.Rel _ (p.output? id) (p'.output? (f id)) at hrel
    generalize p.output? id = g, p'.output? (f id) = g' at hrel
    cases hrel with
    | none => rfl
    | some hg =>
      rw [Option.map_some, Option.map_some, Fragment.mapText, Fragment.mapText, hg.kind_eq,
        hg.metadata_eq, hsame id (htop.mem_iff.mp hid) hg.text]
  have houtputs : (p'.outputs.map fun entry => (entry.1, entry.2.mapText h))
      = (p.outputs.map fun entry => (f entry.1, entry.2.mapText h)) := by
    rw [hrecords'.outputs_eq, hrecords.outputs_eq, map_inOrder, inOrder_map,
      inOrder_congr houtput, ← map_inOrder, List.map_map]
    rfl
  have herrors : p'.errors = p.errors.map fun entry => (f entry.1, entry.2.rename f) := by
    have herror : ∀ id, p'.error? (f id) = (p.error? id).map (NodeFailure.rename f) :=
      fun id => (hrenamed id).error_eq
    rw [hrecords'.errors_eq, hrecords.errors_eq, inOrder_map]
    simp only [herror]
    rw [← map_inOrder, List.map_map]
    rfl
  rw [Progress.mapTexts, Progress.mapTexts, houtputs, herrors, Progress.rename, List.map_map]
  rfl

/-- The plan of a renamed snapshot is the renamed plan, if only that is looked at which is the
    same of related texts. -/
theorem mapTexts_compile_rename {h : String → String}
    (hsame : ∀ id ∈ nodes.map Node.id, ∀ {s s'}, whole id s s' → h s = h s') :
    (compile settings (renameNodes f nodes) (renameEdges f edges) context).mapTexts h
      = ((compile settings nodes edges context).rename f).mapTexts h := by
  by_cases hacyclic : Acyclic nodes edges
  · obtain ⟨order, horder⟩ := exists_schedule_build_iff.mpr hacyclic
    have horder' : (Graph.build (renameNodes f nodes) (renameEdges f edges)).schedule
        = .ok (order.map f) := by
      rw [build_rename hf, Graph.schedule_rename hf, horder]
      rfl
    rw [compile_of_schedule settings context horder, compile_of_schedule settings context horder',
      ← finish_mapTexts, mapTexts_progressAlong_rename hf hrelates hsame horder, finish_mapTexts,
      build_rename hf, finish_rename hf]
  · -- An abandoned plan shows its cycles, and those are renamed too.
    have hrenamed : ¬ Acyclic (renameNodes f nodes) (renameEdges f edges) :=
      fun h => hacyclic ((acyclic_rename hf).mp h)
    rw [compile_of_not_acyclic settings context hacyclic,
      compile_of_not_acyclic settings context hrenamed, build_rename hf, Graph.cycles_rename hf,
      structuralStatistics_rename hf]
    rfl

/-- Fragments of renamed nodes have related texts. -/
theorem related_output?_rename (id : NodeId) :
    Option.Rel (Fragment.Related (whole id))
      ((compile settings nodes edges context).output? id)
      ((compile settings (renameNodes f nodes) (renameEdges f edges) context).output? (f id)) := by
  by_cases hacyclic : Acyclic nodes edges
  · have hrenamed := (acyclic_rename hf).mpr hacyclic
    exact ((solves_compile settings context hacyclic).renamedAt hf hrelates hacyclic
      (solves_compile settings context hrenamed) id).output_rel
  · have hrenamed : ¬ Acyclic (renameNodes f nodes) (renameEdges f edges) :=
      fun h => hacyclic ((acyclic_rename hf).mp h)
    rw [compile_of_not_acyclic settings context hacyclic,
      compile_of_not_acyclic settings context hrenamed]
    exact .none

end Injective

end QueryGraph
