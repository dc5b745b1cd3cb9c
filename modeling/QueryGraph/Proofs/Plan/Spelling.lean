import QueryGraph.Proofs.Plan.Renaming

namespace QueryGraph

/-!
# The spelling of names has no influence

* `Plan.ids`, `ids_compile`: a plan names no ids but those of nodes.
* `exists_names`: names that are different for the ids in a snapshot extend to all ids.
* `UnionFree`: neither a node nor anything upstream of it is a union, whose texts name its inputs.
* `texts_renamed`: the texts of such nodes are the same under all names.
* `renaming_commutes`: the plan of a renamed snapshot is the renamed plan, but for the texts that
  unions have a part in.
-/

variable {settings : Settings} {context : Context} {nodes : List Node} {edges : List Edge}
  {f : NodeId → NodeId}

/-! ### The ids that a plan names -/

/-- The ids in a failure. -/
def NodeFailure.ids : NodeFailure → List NodeId
  | .arity id _ _ _ => [id]
  | .missingConfig id _ _ => [id]
  | .skipped id failed => [id, failed]

/-- The ids in the failure of a graph. -/
def GraphFailure.ids : GraphFailure → List NodeId
  | .cycles found => found.flatten
  | .unschedulable _ _ => []

/-- All ids in a plan. -/
def Plan.ids (p : Plan) : List NodeId :=
  p.order ++ p.outputs.map Prod.fst ++ p.programs.map Prod.fst ++
    (p.errors.flatMap fun entry => entry.1 :: entry.2.ids) ++ p.cycles.flatten ++
    p.fatal.toList.flatMap GraphFailure.ids

/-- Only what the ids in a failure are renamed to matters for it. -/
theorem NodeFailure.rename_congr {h : NodeId → NodeId} {e : NodeFailure}
    (heq : ∀ id ∈ e.ids, h id = f id) : e.rename h = e.rename f := by
  cases e with
  | arity id kind expected found => rw [rename, rename, heq id (List.mem_singleton_self id)]
  | missingConfig id kind field => rw [rename, rename, heq id (List.mem_singleton_self id)]
  | skipped id failed => rw [rename, rename, heq id (by simp [ids]), heq failed (by simp [ids])]

/-- Only what the ids in some lists are renamed to matters for them. -/
theorem map_map_congr {h : NodeId → NodeId} {lists : List (List NodeId)}
    (heq : ∀ id ∈ lists.flatten, h id = f id) : lists.map (List.map h) = lists.map (List.map f) :=
  List.map_congr_left fun _ hl => List.map_congr_left fun id hid =>
    heq id (List.mem_flatten_of_mem hl hid)

/-- Only the names of ids in it count for a plan. -/
theorem Plan.rename_congr {h : NodeId → NodeId} {p : Plan} (heq : ∀ id ∈ p.ids, h id = f id) :
    p.rename h = p.rename f := by
  simp only [ids, List.forall_mem_append] at heq
  obtain ⟨⟨⟨⟨⟨horder, houtputs⟩, hprograms⟩, herrors⟩, hcycles⟩, hfatal⟩ := heq
  -- The ids of a plan are the keys of its lists and those inside of failures and cycles.
  have hkeys : ∀ {α : Type} {entries : List (NodeId × α)},
      (∀ id ∈ entries.map Prod.fst, h id = f id) →
        (entries.map fun entry => (h entry.1, entry.2))
          = entries.map fun entry => (f entry.1, entry.2) :=
    fun heq => List.map_congr_left fun entry hentry => by
      rw [heq entry.1 (List.mem_map_of_mem hentry)]
  have herror : (p.errors.map fun entry => (h entry.1, entry.2.rename h))
      = p.errors.map fun entry => (f entry.1, entry.2.rename f) :=
    List.map_congr_left fun entry hentry => by
      have hmem : ∀ id ∈ entry.1 :: entry.2.ids, h id = f id := fun id hid =>
        herrors id (List.mem_flatMap_of_mem hentry hid)
      rw [hmem entry.1 List.mem_cons_self,
        NodeFailure.rename_congr fun id hid => hmem id (List.mem_cons_of_mem _ hid)]
  have hfailure : p.fatal.map (GraphFailure.rename h) = p.fatal.map (GraphFailure.rename f) := by
    cases hp : p.fatal with
    | none => rfl
    | some failure =>
      rw [hp] at hfatal
      cases failure with
      | cycles found =>
        refine congrArg (fun found => some (GraphFailure.cycles found)) (map_map_congr ?_)
        exact fun id hid => hfatal id (by simpa [GraphFailure.ids] using hid)
      | unschedulable scheduled total => rfl
  rw [rename, rename, List.map_congr_left horder, hkeys houtputs, hkeys hprograms, herror,
    map_map_congr hcycles, hfailure]

/-- What is due to a node names the node or one that feeds it. -/
theorem Outcomes.ids_of_due {o : Outcomes} {n : Node} {into : List Edge} {e : NodeFailure}
    (h : o.due settings context n into = .error e) : ∀ id ∈ e.ids,
      id = n.id ∨ ∃ edge ∈ into, edge.source = id := by
  -- A skipped node names a source, and any other failure only the node.
  unfold due at h
  split at h
  next edge _ hfind =>
    obtain rfl := Except.error.inj h
    intro id hid
    simp only [NodeFailure.ids, List.mem_cons, List.not_mem_nil, or_false] at hid
    exact hid.imp_right fun hid => ⟨edge, List.mem_of_find?_eq_some hfind, hid.symm⟩
  next =>
    split at h
    · obtain rfl | ⟨field, -, rfl⟩ := Node.eq_of_compile_error h
      · exact fun id hid => Or.inl (List.mem_singleton.mp hid)
      · exact fun id hid => Or.inl (List.mem_singleton.mp hid)
    · obtain rfl := Except.error.inj h
      exact fun id hid => Or.inl (List.mem_singleton.mp hid)

/-- A plan names no ids but those of nodes. -/
theorem ids_compile (settings : Settings) (context : Context) (nodes : List Node)
    (edges : List Edge) :
    ∀ id ∈ (compile settings nodes edges context).ids, id ∈ nodes.map Node.id := by
  obtain ⟨houtputs, herrors⟩ := compile_records settings context nodes edges
  have hprograms := (compile_texts settings context nodes edges).1
  set p := compile settings nodes edges context with hp
  by_cases h : Acyclic nodes edges
  · obtain ⟨order, horder, hcompile⟩ := compile_of_acyclic settings context h
    rw [← hp] at hcompile
    have hinto : ∀ id ∈ p.order, id ∈ nodes.map Node.id := by
      rw [hcompile]
      exact fun id hid => horder.mem_iff.mp hid
    -- Lists that follow the order have keys of the order only.
    have hkeys : ∀ {α : Type} {order : List NodeId} {g : NodeId → Option α}, order ⊆ p.order →
        ∀ id ∈ (inOrder order g).map Prod.fst, id ∈ nodes.map Node.id := by
      intro α order g horder id hid
      rw [map_fst_inOrder] at hid
      exact hinto id (horder (List.mem_of_mem_filter hid))
    simp only [Plan.ids, List.forall_mem_append]
    refine ⟨⟨⟨⟨⟨hinto, houtputs ▸ hkeys (List.Subset.refl _)⟩,
      hprograms ▸ hkeys (List.filter_subset_self _)⟩, ?_⟩, ?_⟩, ?_⟩
    · intro id hid
      obtain ⟨entry, hentry, hid⟩ := List.mem_flatMap.mp hid
      have hkey : entry.1 ∈ nodes.map Node.id :=
        (herrors ▸ hkeys (List.Subset.refl _)) entry.1 (List.mem_map_of_mem hentry)
      rw [herrors] at hentry
      obtain ⟨n, hn, hdue⟩ :=
        (solves_compile settings context h).due_of_error (mem_inOrder hentry)
      obtain rfl | hid := List.mem_cons.mp hid
      · exact hkey
      · have hnode : n.id = entry.1 := by simpa using List.find?_some hn
        obtain rfl | ⟨e, he, rfl⟩ := Outcomes.ids_of_due hdue id hid
        · exact hnode ▸ hkey
        · exact (isLive_of_mem_liveInto he).1.1
    · rw [hcompile]
      exact fun id hid => absurd hid List.not_mem_nil
    · rw [hcompile]
      exact fun id hid => absurd hid List.not_mem_nil
  · -- A node on a cycle is fed by another one, so it is a node of the graph.
    have hcycle : ∀ id ∈ (Graph.build nodes edges).cycles.flatten, id ∈ nodes.map Node.id := by
      intro id hid
      obtain ⟨c, hc, hid⟩ := List.mem_flatten.mp hid
      obtain ⟨u, -, hlast⟩ := Relation.TransGen.tail'_iff.mp
        (Graph.transGen_of_mem_cycles (Graph.build_wellFormed nodes edges) hc hid hid)
      have hmem := Graph.mem_ids_of_mem_dependencies hlast
      rwa [Graph.build_ids, List.mem_eraseDups] at hmem
    rw [show p = _ from compile_of_not_acyclic settings context h]
    simpa [Plan.ids, Plan.aborted, GraphFailure.ids] using hcycle

/-- Other ids than those mentioned may get any names, so that there are names for all ids, all
    different, which are the same for a snapshot and its plan. -/
theorem exists_names (nodes : List Node) (edges : List Edge)
    (hf : ∀ u ∈ mentionedIds nodes edges, ∀ v ∈ mentionedIds nodes edges, f u = f v → u = v) :
    ∃ h : NodeId → NodeId, h.Injective ∧ (∀ id ∈ nodes.map Node.id, h id = f id) ∧
      renameNodes h nodes = renameNodes f nodes ∧ renameEdges h edges = renameEdges f edges ∧
      ∀ settings context,
        (compile settings nodes edges context).rename h
          = (compile settings nodes edges context).rename f := by
  obtain ⟨h, hinj, heq⟩ := exists_injective_extension
    (List.finite_toSet (mentionedIds nodes edges)) (f := f) fun u hu v hv => hf u hu v hv
  have hids : ∀ id ∈ nodes.map Node.id, h id = f id := fun id hid =>
    heq id (List.mem_append_left _ hid)
  refine ⟨h, hinj, hids, renameNodes_congr heq, renameEdges_congr heq, fun settings context => ?_⟩
  exact Plan.rename_congr fun id hid => hids id (ids_compile settings context nodes edges id hid)

/-! ### What does not depend on names -/

/-- Neither the node nor anything upstream of it is a union. -/
def UnionFree (nodes : List Node) (edges : List Edge) (id : NodeId) : Prop :=
  ∀ u, Relation.ReflTransGen (Feeds nodes edges) u id →
    ∀ n, Node.find? nodes u = some n → n.kind ≠ .unionAll

theorem UnionFree.of_feeds {u v : NodeId} (h : UnionFree nodes edges v)
    (hfeeds : Feeds nodes edges u v) : UnionFree nodes edges u :=
  fun w hwalk => h w (hwalk.tail hfeeds)

/-- To be the same is preserved by what queries do with texts. -/
theorem Text.composes_eq (P : Prop) :
    Text.Composes (fun s s' => P → s = s') (fun s s' => P → s = s') where
  append hs ht hP := by rw [hs hP, ht hP]
  chain hs ht hP := by rw [hs hP, ht hP]
  setOff hs hP := by rw [hs hP]
  unite hs hP := by rw [hs hP]

/-- Any reflexive relations frame the texts of a node, whatever they say. -/
theorem Content.framed_of_refl {front whole : String → String → Prop} (hfront : ∀ s, front s s)
    (hwhole : ∀ s, whole s s) (settings : Settings) (context : Context) (c : Content) :
    c.Framed front whole settings context := by
  cases c with
  | event config => exact hwhole _
  | unionAll => trivial
  | join config => exact ⟨hfront _, hfront _, hwhole _⟩
  | filter config => exact ⟨hfront _, hwhole _⟩
  | aggregate config => exact ⟨hfront _, hwhole _⟩
  | output config => exact fun name _ => hfront _

/-- The texts of nodes without a union upstream are the same under all names. -/
theorem relates_eq (settings : Settings) (context : Context) (nodes : List Node)
    (edges : List Edge) (f : NodeId → NodeId) :
    Relates settings context nodes edges f (fun id s s' => UnionFree nodes edges id → s = s')
      (fun id s s' => UnionFree nodes edges id → s = s') where
  composes id := Text.composes_eq (UnionFree nodes edges id)
  along hfeeds _ _ h hfree := h (hfree.of_feeds hfeeds)
  framed _ := Content.framed_of_refl (fun _ _ => rfl) (fun _ _ => rfl) settings context _
  header hn hkind _ _ _ _ _ hfree := absurd hkind (hfree _ .refl _ hn)

/-- In the renamed order, the programs are the texts of the renamed terminal sinks. -/
theorem programs_renamed (hf : Function.Injective f) (context : Context) (edges : List Edge)
    {order : List NodeId}
    (horder : (compile settings (renameNodes f nodes) (renameEdges f edges) context).order
      = order.map f) :
    let p' := compile settings (renameNodes f nodes) (renameEdges f edges) context
    p'.programs = inOrder ((order.filter (isTerminal nodes (Graph.build nodes edges))).map f)
      fun id => (p'.output? id).map Fragment.text := by
  intro p'
  have hterminal : isTerminal (renameNodes f nodes)
      (Graph.build (renameNodes f nodes) (renameEdges f edges)) ∘ f
      = isTerminal nodes (Graph.build nodes edges) := by
    rw [build_rename hf]
    exact funext (isTerminal_rename hf nodes _)
  -- The programs are read off the new order, which is the renamed old one.
  rw [← hterminal, ← List.filter_map, ← horder]
  exact (compile_texts settings context _ _).1

/-- Under its new name a node has the text it had, if there is no union upstream of it. -/
theorem texts_renamed (hf : Function.Injective f) {id : NodeId} (hfree : UnionFree nodes edges id) :
    let p := compile settings nodes edges context
    let p' := compile settings (renameNodes f nodes) (renameEdges f edges) context
    p'.output? (f id) = p.output? id ∧ p'.programs.lookup (f id) = p.programs.lookup id ∧
      (p.outputs.getLast?.map Prod.fst = some id → p'.finalText = p.finalText) := by
  intro p p'
  have hrelates := relates_eq settings context nodes edges f
  have hsame : p'.withoutTexts = (p.rename f).withoutTexts :=
    mapTexts_compile_rename hf hrelates fun _ _ _ _ _ => rfl
  have houtput : p'.output? (f id) = p.output? id := by
    have hid := related_output?_rename hf hrelates id
    change Option.Rel _ (p.output? id) (p'.output? (f id)) at hid
    generalize p.output? id = g, p'.output? (f id) = g' at hid
    cases hid with
    | none => rfl
    | @some g g' hg =>
      obtain ⟨hkind, hmetadata, htext⟩ := hg
      cases g
      cases g'
      simp only at hkind hmetadata htext
      rw [hkind, hmetadata, htext hfree]
  obtain ⟨hprograms, hfinal⟩ := compile_texts settings context nodes edges
  have hfinal' := (compile_texts settings context (renameNodes f nodes) (renameEdges f edges)).2
  refine ⟨houtput, ?_, fun hlast => ?_⟩
  · have horder : p'.order = p.order.map f := congrArg Plan.order hsame
    have hmem : f id ∈ (p.order.filter (isTerminal nodes (Graph.build nodes edges))).map f
        ↔ id ∈ p.order.filter (isTerminal nodes (Graph.build nodes edges)) :=
      List.mem_map_of_injective hf
    rw [programs_renamed hf context edges horder, show p.programs = _ from hprograms,
      lookup_inOrder, lookup_inOrder, houtput]
    simp only [hmem]
    rfl
  · -- The last fragment of the one plan and that of the other are those of the same node.
    have hkeys : p'.outputs.map Prod.fst = (p.outputs.map Prod.fst).map f := by
      have houtputs := congrArg (fun q : Plan => q.outputs.map Prod.fst) hsame
      simpa only [Plan.withoutTexts, Plan.mapTexts, Plan.rename, List.map_map,
        Function.comp_def] using houtputs
    have hlast' : p'.outputs.getLast?.map Prod.fst = some (f id) := by
      rw [← List.getLast?_map, hkeys, List.getLast?_map, List.getLast?_map, hlast]
      rfl
    obtain ⟨entry, hentry, rfl⟩ := Option.map_eq_some_iff.mp hlast
    obtain ⟨entry', hentry', hkey⟩ := Option.map_eq_some_iff.mp hlast'
    have hvalue : ∀ {q : Plan} {e : NodeId × Fragment}, q.outputs = inOrder q.order q.output? →
        q.outputs.getLast? = some e → q.output? e.1 = some e.2 := by
      intro q e hq he
      have hmem := List.mem_of_getLast? he
      rw [hq] at hmem
      exact mem_inOrder hmem
    have h := hvalue (compile_records settings context nodes edges).1 hentry
    have h' := hvalue (compile_records settings context _ _).1 hentry'
    rw [hkey] at h'
    have hsnd : entry'.2 = entry.2 := Option.some.inj (h'.symm.trans (houtput.trans h))
    rw [show p'.finalText = _ from hfinal', show p.finalText = _ from hfinal, hentry, hentry']
    exact congrArg (fun g : Fragment => some g.text) hsnd

/-- **Names are names.**  Give the nodes of a snapshot other names, such that ids that are
    mentioned in it, by nodes or by edges, stay different from each other.  The plan is then the
    same plan with the new names: the same order, cycles, fragments, failures and programs, each
    of them listed in the same order, and the same statistics, stage and facts about fragments;
    only the texts may differ.  The texts of nodes that are no unions and have none upstream do
    not; and without unions the whole plan is the renamed one. -/
theorem renaming_commutes (settings : Settings) (context : Context) (nodes : List Node)
    (edges : List Edge) (f : NodeId → NodeId)
    (hf : ∀ u ∈ mentionedIds nodes edges, ∀ v ∈ mentionedIds nodes edges, f u = f v → u = v) :
    let p := compile settings nodes edges context
    let p' := compile settings (renameNodes f nodes) (renameEdges f edges) context
    p'.withoutTexts = (p.rename f).withoutTexts ∧
      (∀ id ∈ nodes.map Node.id, UnionFree nodes edges id →
        p'.output? (f id) = p.output? id ∧ p'.programs.lookup (f id) = p.programs.lookup id ∧
          (p.outputs.getLast?.map Prod.fst = some id → p'.finalText = p.finalText)) ∧
      ((∀ id ∈ nodes.map Node.id, UnionFree nodes edges id) → p' = p.rename f) := by
  obtain ⟨h, hinj, hids, hnodes, hedges, hplan⟩ := exists_names nodes edges hf
  intro p p'
  have hrename : p.rename h = p.rename f := hplan settings context
  have hp' : p' = compile settings (renameNodes h nodes) (renameEdges h edges) context := by
    rw [hnodes, hedges]
  have hrelates := relates_eq settings context nodes edges h
  have htexts : ∀ id ∈ nodes.map Node.id, UnionFree nodes edges id →
      p'.output? (f id) = p.output? id ∧ p'.programs.lookup (f id) = p.programs.lookup id ∧
        (p.outputs.getLast?.map Prod.fst = some id → p'.finalText = p.finalText) := by
    intro id hid hfree
    rw [← hids id hid, hp']
    exact texts_renamed hinj hfree
  refine ⟨?_, htexts, fun hfree => ?_⟩
  · rw [← hrename, hp']
    exact mapTexts_compile_rename hinj hrelates fun _ _ _ _ _ => rfl
  · -- All texts are the same now, so that none has to be left out.
    rw [← hrename, ← p'.mapTexts_id, ← (p.rename h).mapTexts_id, hp']
    exact mapTexts_compile_rename hinj hrelates fun id hid _ _ hsame => hsame (hfree id hid)

/-- Names that lose their first letter stay different in the fork, and the join is skipped for
    the same filter. -/
theorem renaming_commutes_fork :
    let f : NodeId → NodeId := fun id => ⟨String.ofList (id.text.toList.drop 1)⟩
    let settings : Settings := { Settings.default with failurePolicy := .skipDependents }
    let p := compile settings forkNodes forkEdges ⟨"games", 7⟩
    let p' := compile settings (renameNodes f forkNodes) (renameEdges f forkEdges) ⟨"games", 7⟩
    (∀ u ∈ mentionedIds forkNodes forkEdges, ∀ v ∈ mentionedIds forkNodes forkEdges,
        f u = f v → u = v) ∧
      f ⟨"event"⟩ = f ⟨"-vent"⟩ ∧ p'.withoutTexts = (p.rename f).withoutTexts ∧
      p'.error? ⟨"oin"⟩ = some (.skipped ⟨"oin"⟩ ⟨"ilter"⟩) ∧
      UnionFree forkNodes forkEdges ⟨"event"⟩ ∧ (p.output? ⟨"event"⟩).isSome = true ∧
      p'.output? ⟨"vent"⟩ = p.output? ⟨"event"⟩ := by
  intro f settings p p'
  have hf : ∀ u ∈ mentionedIds forkNodes forkEdges, ∀ v ∈ mentionedIds forkNodes forkEdges,
      f u = f v → u = v := by decide +kernel
  -- Nothing feeds the event, so no union leads to it.
  have hfree : UnionFree forkNodes forkEdges ⟨"event"⟩ := by
    intro u hwalk n hn
    obtain rfl | ⟨v, -, e, he, -, htarget⟩ := hwalk.cases_tail
    · have hkind : (Node.find? forkNodes ⟨"event"⟩).map Node.kind = some .event := by
        decide +kernel
      rw [hn, Option.map_some, Option.some.injEq] at hkind
      rw [hkind]
      decide
    · have hsource : ∀ e ∈ liveEdges forkNodes forkEdges, e.target ≠ ⟨"event"⟩ := by
        decide +kernel
      exact absurd htarget (hsource e he)
  obtain ⟨hsame, htexts, -⟩ :=
    renaming_commutes settings ⟨"games", 7⟩ forkNodes forkEdges f hf
  exact ⟨hf, by decide +kernel, hsame, by decide +kernel, hfree, by decide +kernel,
    (htexts ⟨"event"⟩ (by decide +kernel) hfree).1⟩

end QueryGraph
