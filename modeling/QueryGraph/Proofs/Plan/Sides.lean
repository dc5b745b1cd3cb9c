import QueryGraph.Proofs.Plan.Propagation

namespace QueryGraph

/-!
# The sides of a join

* `Edge.Faces`: two edges that end at the two handles of a join.
* `Plan.Joins`: the fragment of a join has the fragments of two sources on its sides.
* `Exchanges`: two edge lists that differ in the order of the two edges into a node.
* `Exchanges.eq_relabel`: they have the same solution, except that a join that is skipped for both
  of its sources names the first one.
* `handles_decide_sides`: the sides of a join follow the handles, and the order of the two edges
  decides nothing else.
-/

/-! ### Inputs and handles -/

/-- The two edges end at the two handles of a join, in either order. -/
def Edge.Faces (e e' : Edge) : Prop :=
  (e.targetHandle = some leftHandle ∧ e'.targetHandle = some rightHandle) ∨
    (e.targetHandle = some rightHandle ∧ e'.targetHandle = some leftHandle)

/-- Inputs through the two handles are on the same sides in either order. -/
theorem Join.sides_comm {e e' : Edge} (h : e.Faces e') {i i' : Input}
    (hi : i.handle = e.targetHandle) (hi' : i'.handle = e'.targetHandle) :
    sides i i' = sides i' i := by
  rw [sides_eq, sides_eq, hi, hi']
  rcases h with ⟨hleft, hright⟩ | ⟨hright, hleft⟩
  · simp [hleft, hright]
  · simp [hleft, hright]

/-- The inputs of a join with two edges. -/
theorem Outcomes.inputs_pair (o : Outcomes) (e e' : Edge) :
    o.inputs [e, e'] =
      match o.output? e.source, o.output? e'.source with
      | some f, some f' => [⟨e.source, e.targetHandle, f⟩, ⟨e'.source, e'.targetHandle, f'⟩]
      | _, _ => [] := by
  rw [inputs]
  cases hf : o.output? e.source <;> cases hf' : o.output? e'.source <;> simp [hf, hf']

variable {settings : Settings} {context : Context} {nodes : List Node}
  {edges edges' : List Edge} {o : Outcomes} {n : Node} {id : NodeId} {config : JoinConfig}
  {e e' : Edge}

/-- Only through its sides does the order of two inputs reach a join. -/
theorem Node.compile_pair_comm (hcontent : n.content = .join config) {i i' : Input}
    (hsides : Join.sides i i' = Join.sides i' i) :
    n.compile settings context [i, i'] = n.compile settings context [i', i] := by
  have harity : ∀ i i' : Input, n.kind.arity.accepts [i, i'].length = true := by
    intro i i'
    rw [Node.kind, hcontent]
    rfl
  have hyields : ∀ i i' : Input, n.content.Yields settings context [i, i']
      (Join.fragment settings config (Join.sides i i').1 (Join.sides i i').2) := by
    intro i i'
    rw [hcontent]
    exact .join
  -- The number of inputs is right in either order, so only the configuration can be incomplete.
  cases hmissing : n.content.missing? with
  | some field => rw [compile_of_missing (harity i i') hmissing,
      compile_of_missing (harity i' i) hmissing]
  | none => rw [compile_of_yields hmissing (hyields i i'),
      compile_of_yields hmissing (hyields i' i), hsides]

/-- A join compiles to the same with its inputs in either order. -/
theorem Node.compile_inputs_comm (hcontent : n.content = .join config) (h : e.Faces e') :
    n.compile settings context (o.inputs [e, e'])
      = n.compile settings context (o.inputs [e', e]) := by
  rw [o.inputs_pair, o.inputs_pair]
  cases o.output? e.source with
  | none => cases o.output? e'.source <;> rfl
  | some f =>
    cases o.output? e'.source with
    | none => rfl
    | some f' => exact compile_pair_comm hcontent (Join.sides_comm h rfl rfl)

/-! ### What stands on the sides -/

/-- The fragment of a join reads from the fragments of two sources, that of the first on its left
    side and that of the second on its right side; and if the join has a condition, nothing but
    its sources keeps it from having a fragment. -/
structure Plan.Joins (p : Plan) (settings : Settings) (config : JoinConfig) (id : NodeId)
    (left right : Edge) : Prop where
  reads : ∀ f, p.output? id = some f → ∃ l r,
    p.output? left.source = some l ∧ p.output? right.source = some r ∧
      f.text = "SELECT *\nFROM " ++ derivedTable l.text settings.leftAlias ++ "\n" ++
        (config.joinType.getD .inner).keyword ++ " " ++
        derivedTable r.text settings.rightAlias ++ "\nON " ++
        " AND ".intercalate (config.conditions.map Join.condition)
  compiles : config.conditions ≠ [] → (p.output? left.source).isSome →
    (p.output? right.source).isSome → (p.output? id).isSome

/-- In a solution, the fragment of a join with two edges comes from the fragments of their
    sources. -/
theorem Solves.exists_sides {first second : Edge} {f : Fragment}
    (h : Solves settings context nodes edges o) (hn : Node.find? nodes id = some n)
    (hcontent : n.content = .join config) (hinto : liveInto nodes edges id = [first, second])
    (hf : o.output? id = some f) :
    ∃ i i' : Input, i.handle = first.targetHandle ∧ i'.handle = second.targetHandle ∧
      o.output? first.source = some i.fragment ∧ o.output? second.source = some i'.fragment ∧
      f = Join.fragment settings config (Join.sides i i').1 (Join.sides i i').2 := by
  obtain ⟨m, inputs, hm, hcarries, hcompile⟩ := h.carries hf
  obtain rfl : n = m := Option.some.inj (hn.symm.trans hm)
  rw [hinto, Outcomes.Carries] at hcarries
  -- The two edges carry one input each, in their order.
  obtain ⟨i, i', ⟨-, hhandle, hout⟩, ⟨-, hhandle', hout'⟩, rfl⟩ := exists_eq_pair hcarries
  have hyields := Node.yields_of_compile hcompile
  rw [hcontent] at hyields
  cases hyields
  exact ⟨i, i', hhandle, hhandle', hout, hout', rfl⟩

/-- A join with conditions and two edges has a fragment if the sources of these have one. -/
theorem Solves.isSome_output?_of_pair {first second : Edge}
    (h : Solves settings context nodes edges o) (hn : Node.find? nodes id = some n)
    (hcontent : n.content = .join config) (hinto : liveInto nodes edges id = [first, second])
    (hconditions : config.conditions ≠ []) (hfirst : (o.output? first.source).isSome = true)
    (hsecond : (o.output? second.source).isSome = true) : (o.output? id).isSome = true := by
  have hsources : ∀ e ∈ liveInto nodes edges id, (o.output? e.source).isSome = true := by
    rw [hinto]
    simpa using ⟨hfirst, hsecond⟩
  have hclean : ∀ e ∈ liveInto nodes edges id, o.error? e.source = none := by
    intro e he
    have hfailed := h.isSome_error?_eq (isLive_of_mem_liveInto he).1.1
    rw [hsources e he] at hfailed
    simpa using hfailed
  have hlength : (o.inputs (liveInto nodes edges id)).length = 2 := by
    rw [Outcomes.length_inputs fun e he => Option.isSome_iff_exists.mp (hsources e he), hinto]
    rfl
  have hkind : n.kind = .join := by rw [Node.kind, hcontent]; rfl
  have hcomplete : n.content.Complete := by rw [hcontent]; exact hconditions
  -- Two inputs and some conditions are all that a join needs.
  obtain ⟨f, hf⟩ :
      ∃ f, n.compile settings context (o.inputs (liveInto nodes edges id)) = .ok f :=
    (Node.compile_of_accepts (by rw [hkind, hlength]; decide)).1 hcomplete
  have hhas := h.has id n hn
  have haccepts : n.kind.arity.accepts (liveInto nodes edges id).length = true := by
    rw [hkind, hinto]
    rfl
  rw [Outcomes.due_of_sources_clean settings context n hclean, if_pos haccepts, hf] at hhas
  exact Option.isSome_of_eq_some hhas.1

/-- The sides of a join with two edges are their sources, in the order that the handles ask for. -/
theorem Plan.joins_of_pair {p : Plan} {first second : Edge}
    (h : Solves settings context nodes edges p.outcomes) (hn : Node.find? nodes id = some n)
    (hcontent : n.content = .join config) (hinto : liveInto nodes edges id = [first, second]) :
    if first.targetHandle = some rightHandle ∧ second.targetHandle = some leftHandle then
      p.Joins settings config id second first
    else p.Joins settings config id first second := by
  have hcompiles := h.isSome_output?_of_pair hn hcontent hinto
  -- The handles are crossed, or the edges come in the order of the sides.
  split
  next hhandles =>
    refine ⟨fun f hf => ?_, fun hconditions hright hleft => hcompiles hconditions hleft hright⟩
    obtain ⟨i, i', hi, hi', hout, hout', rfl⟩ := h.exists_sides hn hcontent hinto hf
    rw [Join.sides_eq, hi, hi', if_pos hhandles]
    exact ⟨i'.fragment, i.fragment, hout', hout, rfl⟩
  next hhandles =>
    refine ⟨fun f hf => ?_, hcompiles⟩
    obtain ⟨i, i', hi, hi', hout, hout', rfl⟩ := h.exists_sides hn hcontent hinto hf
    rw [Join.sides_eq, hi, hi', if_neg hhandles]
    exact ⟨i.fragment, i'.fragment, hout, hout', rfl⟩

/-! ### Edges that change places -/

/-- Two edge lists with the same live edges in the same order, except that the two into one node
    have changed places. -/
structure Exchanges (nodes : List Node) (edges edges' : List Edge) (id : NodeId)
    (e e' : Edge) : Prop where
  into : liveInto nodes edges id = [e, e']
  into' : liveInto nodes edges' id = [e', e]
  other : ∀ v, v ≠ id → liveInto nodes edges' v = liveInto nodes edges v

/-- The only two live edges into a node change places. -/
theorem exchanges_append {before between after : List Edge}
    (hinto : liveInto nodes (before ++ e :: (between ++ e' :: after)) id = [e, e']) :
    Exchanges nodes (before ++ e :: (between ++ e' :: after))
      (before ++ e' :: (between ++ e :: after)) id e e' := by
  have hsplit : ∀ (a b : Edge) (v : NodeId),
      liveInto nodes (before ++ a :: (between ++ b :: after)) v
        = liveInto nodes before v ++ (liveInto nodes [a] v ++ (liveInto nodes between v ++
            (liveInto nodes [b] v ++ liveInto nodes after v))) := by
    intro a b v
    rw [← List.singleton_append (l := between ++ b :: after), ← List.singleton_append (l := after)]
    simp only [liveInto_append]
  have hlive : ∀ a ∈ [e, e'], a.IsLive nodes ∧ a.target = id :=
    fun a ha => isLive_of_mem_liveInto (hinto ▸ ha)
  have hat : ∀ a ∈ [e, e'], ∀ v, liveInto nodes [a] v = if v = id then [a] else [] := by
    intro a ha v
    obtain ⟨halive, rfl⟩ := hlive a ha
    rw [liveInto_singleton]
    simp [halive, eq_comm]
  -- Nothing but the two edges leads into the node, so nothing stands between them.
  have hothers : liveInto nodes before id = [] ∧ liveInto nodes between id = [] ∧
      liveInto nodes after id = [] := by
    have hlength := congrArg List.length hinto
    rw [hsplit, hat e (by simp), hat e' (by simp)] at hlength
    simp only [if_true, List.length_append, List.length_cons, List.length_nil] at hlength
    refine ⟨?_, ?_, ?_⟩ <;> exact List.length_eq_zero_iff.mp (by omega)
  obtain ⟨hbefore, hbetween, hafter⟩ := hothers
  refine ⟨hinto, ?_, fun v hv => ?_⟩
  · rw [hsplit, hat e (by simp), hat e' (by simp), hbefore, hbetween, hafter]
    simp
  · rw [hsplit, hsplit, hat e (by simp), hat e' (by simp), if_neg hv, if_neg hv]

/-- Exchanging two edges of a node keeps the edges of every node. -/
theorem Exchanges.mem_iff (h : Exchanges nodes edges edges' id e e') {a : Edge} {v : NodeId} :
    a ∈ liveInto nodes edges' v ↔ a ∈ liveInto nodes edges v := by
  by_cases hv : v = id
  · rw [hv, h.into, h.into']
    simp [or_comm]
  · rw [h.other v hv]

/-- Exchanging two edges makes no cycle. -/
theorem Exchanges.acyclic (h : Exchanges nodes edges edges' id e e')
    (hacyclic : Acyclic nodes edges) : Acyclic nodes edges' := by
  have hfeeds : Feeds nodes edges' = Feeds nodes edges := by
    funext u v
    rw [eq_iff_iff, feeds_iff, feeds_iff]
    exact exists_congr fun a => and_congr_left' h.mem_iff
  rwa [Acyclic, hfeeds]

/-! ### What is due to the join -/

/-- Dependents of a failure are skipped, and the sources of both edges have failed. -/
def Outcomes.SkipsBoth (o : Outcomes) (settings : Settings) (e e' : Edge) : Prop :=
  settings.failurePolicy = .skipDependents ∧ (o.error? e.source).isSome ∧
    (o.error? e'.source).isSome

theorem Outcomes.SkipsBoth.symm (h : o.SkipsBoth settings e e') : o.SkipsBoth settings e' e :=
  ⟨h.1, h.2.2, h.2.1⟩

/-- A join that is skipped for both of its sources names the first one. -/
theorem Outcomes.SkipsBoth.due_eq (h : o.SkipsBoth settings e e') (context : Context) (n : Node) :
    o.due settings context n [e, e'] = .error (.skipped n.id e.source) := by
  rw [← Settings.withPolicy_of_eq h.1]
  exact due_of_failed_skip (by simp [h.2.1])

/-- Any other join has the same due to it with its edges in either order. -/
theorem Outcomes.due_comm (hcontent : n.content = .join config) (h : e.Faces e')
    (hnot : ¬ o.SkipsBoth settings e e') :
    o.due settings context n [e, e'] = o.due settings context n [e', e] := by
  have hcompile : n.compile settings context (o.inputs [e, e'])
      = n.compile settings context (o.inputs [e', e]) := Node.compile_inputs_comm hcontent h
  cases hpolicy : settings.failurePolicy with
  | «continue» =>
    rw [← Settings.withPolicy_of_eq hpolicy, due_continue, due_continue, hcompile]
    rfl
  | skipDependents =>
    -- At most one of the sources has failed, so it is the first one in either order.
    have hfind : ([e, e'].find? fun a => (o.error? a.source).isSome)
        = [e', e].find? fun a => (o.error? a.source).isSome := by
      have hone : ¬ ((o.error? e.source).isSome ∧ (o.error? e'.source).isSome) :=
        fun hboth => hnot ⟨hpolicy, hboth⟩
      cases hfirst : (o.error? e.source).isSome <;>
        cases hsecond : (o.error? e'.source).isSome <;> simp_all
    rw [due, due, hfind, hcompile]
    rfl

/-! ### Solutions of both lists -/

/-- The outcomes with another failure noted for one node. -/
def Outcomes.relabel (o : Outcomes) (id : NodeId) (failure : Option NodeFailure) : Outcomes where
  output? := o.output?
  error? := fun v => if v = id then failure else o.error? v

/-- Giving a node the failure it has changes nothing. -/
theorem Outcomes.relabel_self (o : Outcomes) (id : NodeId) : o.relabel id (o.error? id) = o := by
  ext1
  · rfl
  · funext v
    show (if v = id then o.error? id else o.error? v) = o.error? v
    split
    next hv => rw [hv]
    next => rfl

/-- A failure for another one, or none for none, keeps fragments and failed nodes. -/
theorem Outcomes.agreeAt_relabel {failure : Option NodeFailure}
    (h : (o.error? id).isSome = failure.isSome) (v : NodeId) :
    o.AgreeAt (o.relabel id failure) v := by
  refine ⟨rfl, ?_⟩
  show _ = (if v = id then failure else o.error? v).isSome
  by_cases hv : v = id
  · rw [if_pos hv, hv, h]
  · rw [if_neg hv]

/-- Outcomes with a failure of the join relabelled solve the other list, if the join has what is
    due to it there. -/
theorem Exchanges.solves_relabel {failure : Option NodeFailure}
    (hx : Exchanges nodes edges edges' id e e') (h : Solves settings context nodes edges o)
    (hn : Node.find? nodes id = some n) (hfailed : (o.error? id).isSome = failure.isSome)
    (hhas : (o.relabel id failure).Has id (o.due settings context n [e', e])) :
    Solves settings context nodes edges' (o.relabel id failure) := by
  refine ⟨fun v hv => ?_, fun v m hm => ?_⟩
  · have hne : v ≠ id := by
      rintro rfl
      rw [hn] at hv
      simp at hv
    exact ⟨(h.lacks v hv).1, (if_neg hne).trans (h.lacks v hv).2⟩
  · -- Nothing feeds on the label of the join, only on that it has failed.
    have hdue := Outcomes.due_congr settings context m (liveInto nodes edges' v)
      fun a _ => Outcomes.agreeAt_relabel hfailed a.source
    rw [← hdue]
    by_cases hv : v = id
    · subst hv
      obtain rfl : n = m := Option.some.inj (hn.symm.trans hm)
      rw [hx.into']
      exact hhas
    · rw [hx.other v hv]
      exact (h.has v m hm).of_sameAt ⟨rfl, if_neg hv⟩

/-- The solution of the other list: a join that is skipped for both of its sources names the other
    one, and everything else is the same. -/
theorem Exchanges.eq_relabel {o' : Outcomes} (hx : Exchanges nodes edges edges' id e e')
    (hacyclic : Acyclic nodes edges) (h : Solves settings context nodes edges o)
    (h' : Solves settings context nodes edges' o') (hn : Node.find? nodes id = some n)
    (hcontent : n.content = .join config) (hfaces : e.Faces e') :
    (o.SkipsBoth settings e e' → o.error? id = some (.skipped id e.source) ∧
        o' = o.relabel id (some (.skipped id e'.source))) ∧
      (¬ o.SkipsBoth settings e e' → o' = o) := by
  have hid : n.id = id := by simpa using List.find?_some hn
  have hhas := h.has id n hn
  rw [hx.into] at hhas
  -- With both sources failed the label names the first of them, and otherwise order does not show.
  refine ⟨fun hboth => ?_, fun hnot => ?_⟩
  · rw [hboth.due_eq, hid] at hhas
    refine ⟨hhas.2, h'.unique (hx.acyclic hacyclic) (hx.solves_relabel h hn ?_ ?_)⟩
    · rw [hhas.2]
      rfl
    · rw [hboth.symm.due_eq, hid]
      exact ⟨hhas.1, if_pos rfl⟩
  · rw [Outcomes.due_comm hcontent hfaces hnot] at hhas
    have hsolves : Solves settings context nodes edges' (o.relabel id (o.error? id)) :=
      hx.solves_relabel h hn rfl (by rwa [Outcomes.relabel_self])
    rw [Outcomes.relabel_self] at hsolves
    exact h'.unique (hx.acyclic hacyclic) hsolves

/-- **The sides of a join follow the handles.**  The fragment of a join with two edges to its two
handles has the fragment of the source of the left one on its left side, and that of the right one
on its right side, whichever edge comes first; with any other handles, the sources are on the
sides in edge order.  Where two edges to the two handles change places, the plan keeps all
fragments and all failures of other nodes, and the join keeps its failure, unless dependents of a
failure are skipped and both of its sources have failed; then it names the first of them. -/
theorem handles_decide_sides (settings : Settings) (context : Context) (nodes : List Node)
    (edges : List Edge) (hacyclic : Acyclic nodes edges) (id : NodeId) {n : Node}
    {config : JoinConfig} (hn : Node.find? nodes id = some n)
    (hcontent : n.content = .join config) :
    let p := compile settings nodes edges context
    (∀ left right : Edge, left.targetHandle = some leftHandle →
        right.targetHandle = some rightHandle →
        (liveInto nodes edges id = [left, right] ∨ liveInto nodes edges id = [right, left]) →
        p.Joins settings config id left right) ∧
      (∀ first second : Edge, liveInto nodes edges id = [first, second] →
        ¬ first.Faces second → p.Joins settings config id first second) ∧
      ∀ (before between after : List Edge) (first second : Edge),
        edges = before ++ first :: (between ++ second :: after) →
        liveInto nodes edges id = [first, second] → first.Faces second →
        let p' := compile settings nodes (before ++ second :: (between ++ first :: after)) context
        p'.stage ≠ .fatal ∧ (∀ v, p'.output? v = p.output? v) ∧
          (∀ v, v ≠ id → p'.error? v = p.error? v) ∧
          (p.outcomes.SkipsBoth settings first second →
            p.error? id = some (.skipped id first.source) ∧
              p'.error? id = some (.skipped id second.source)) ∧
          (¬ p.outcomes.SkipsBoth settings first second → p'.error? id = p.error? id) := by
  intro p
  have h : Solves settings context nodes edges p.outcomes :=
    solves_compile settings context hacyclic
  refine ⟨fun left right hleft hright hinto => ?_, fun first second hinto hnot => ?_,
    fun before between after first second hedges hinto hfaces => ?_⟩
  · rcases hinto with hinto | hinto
    · simpa [hleft, hright] using Plan.joins_of_pair h hn hcontent hinto
    · simpa [hleft, hright] using Plan.joins_of_pair h hn hcontent hinto
  · -- Any other handles leave the sources where they are.
    have hjoins := Plan.joins_of_pair h hn hcontent hinto
    rwa [if_neg fun hhandles => hnot (Or.inr hhandles)] at hjoins
  · subst hedges
    intro p'
    have hx := exchanges_append hinto
    have hacyclic' := hx.acyclic hacyclic
    have h' : Solves settings context nodes _ p'.outcomes :=
      solves_compile settings context hacyclic'
    obtain ⟨hrelabel, hsame⟩ := hx.eq_relabel hacyclic h h' hn hcontent hfaces
    refine ⟨not_fatal_of_acyclic settings context hacyclic', ?_⟩
    by_cases hboth : p.outcomes.SkipsBoth settings first second
    · obtain ⟨hlabel, heq⟩ := hrelabel hboth
      refine ⟨fun v => congrArg (fun o => o.output? v) heq, fun v hv => ?_,
        fun _ => ⟨hlabel, ?_⟩, fun hnot => absurd hboth hnot⟩
      · exact (congrArg (fun o => o.error? v) heq).trans (if_neg hv)
      · exact (congrArg (fun o => o.error? id) heq).trans (if_pos rfl)
    · have heq := hsame hboth
      exact ⟨fun v => congrArg (fun o => o.output? v) heq,
        fun v _ => congrArg (fun o => o.error? v) heq, fun hyes => absurd hyes hboth,
        fun _ => congrArg (fun o => o.error? id) heq⟩

/-- The two edges of a join: to its left handle from `a`, and to its right handle from `b`. -/
def facingEdges : Edge × Edge :=
  (⟨none, ⟨"a"⟩, ⟨"join"⟩, none, some leftHandle⟩,
    ⟨none, ⟨"b"⟩, ⟨"join"⟩, none, some rightHandle⟩)

/-- A join of two nodes. -/
def joinOf (a b : Content) : List Node :=
  [⟨⟨"join"⟩, .join ⟨none, [⟨"l.id", .eq, "r.id"⟩]⟩⟩, ⟨⟨"a"⟩, a⟩, ⟨⟨"b"⟩, b⟩]

/-- The edge to the right handle comes first, and an edge to nowhere stands between the two. -/
theorem handles_decide_sides_crossed :
    let nodes := joinOf (.event ⟨some "login", []⟩) (.event ⟨some "logout", []⟩)
    let inert : Edge := ⟨none, ⟨"a"⟩, ⟨"gone"⟩, none, none⟩
    let edges := [facingEdges.2, inert, facingEdges.1]
    let p := compile Settings.default nodes edges ⟨"games", 7⟩
    let p' := compile Settings.default nodes [facingEdges.1, inert, facingEdges.2] ⟨"games", 7⟩
    Acyclic nodes edges ∧ liveInto nodes edges ⟨"join"⟩ = [facingEdges.2, facingEdges.1] ∧
      (p.output? ⟨"join"⟩).isSome ∧
      p.Joins Settings.default ⟨none, [⟨"l.id", .eq, "r.id"⟩]⟩ ⟨"join"⟩ facingEdges.1
        facingEdges.2 ∧
      (∀ v, p'.output? v = p.output? v) ∧ p'.error? ⟨"join"⟩ = p.error? ⟨"join"⟩ := by
  intro nodes inert edges p p'
  have hacyclic : Acyclic nodes edges := cycles_build_eq_nil_iff.mp (by decide)
  have hinto : liveInto nodes edges ⟨"join"⟩ = [facingEdges.2, facingEdges.1] := by decide
  obtain ⟨hjoins, -, hexchange⟩ := handles_decide_sides Settings.default ⟨"games", 7⟩ nodes edges
    hacyclic ⟨"join"⟩ rfl rfl
  obtain ⟨-, houtput, -, -, herror⟩ := hexchange [] [inert] [] facingEdges.2 facingEdges.1 rfl
    hinto (Or.inr ⟨rfl, rfl⟩)
  exact ⟨hacyclic, hinto, by decide +kernel, hjoins _ _ rfl rfl (Or.inr hinto), houtput,
    herror fun hboth => absurd hboth.1 (by decide)⟩

/-- Where dependents of a failure are skipped, the order of the two edges decides which of two
    failed sources the join names. -/
theorem exchange_relabels_join :
    let settings := Settings.default.withPolicy .skipDependents
    let nodes := joinOf (.filter ⟨[]⟩) (.filter ⟨[]⟩)
    let (left, right) := facingEdges
    Acyclic nodes [left, right] ∧ liveInto nodes [left, right] ⟨"join"⟩ = [left, right] ∧
      (compile settings nodes [left, right] ⟨"games", 7⟩).error? ⟨"join"⟩
        = some (.skipped ⟨"join"⟩ ⟨"a"⟩) ∧
      (compile settings nodes [right, left] ⟨"games", 7⟩).error? ⟨"join"⟩
        = some (.skipped ⟨"join"⟩ ⟨"b"⟩) := by
  refine ⟨cycles_build_eq_nil_iff.mp (by decide), by decide, ?_, ?_⟩ <;> decide +kernel

end QueryGraph
