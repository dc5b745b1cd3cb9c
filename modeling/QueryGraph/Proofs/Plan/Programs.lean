import QueryGraph.Proofs.Plan.Record
import QueryGraph.Proofs.Plan.Success

namespace QueryGraph

/-!
# Which fragments become programs

* `IsTerminalOutput`: an output that feeds nothing, with `isTerminal_iff`.
* `exists_split_of_getLast?`: the last thing that a function has for the nodes of a list.
* `programs_compile`, `finalText_compile`, `listing_eq_empty_iff`: the three texts of a plan.
* `programs_select_outputs`: the programs of a plan are those of its terminal outputs, and its
  final text is that of a fragment which no other one comes after.
-/

/-- The node is an output, and no live edge leaves it. -/
def IsTerminalOutput (nodes : List Node) (edges : List Edge) (id : NodeId) : Prop :=
  (∃ n ∈ Node.find? nodes id, n.kind = .output) ∧ ∀ e ∈ liveEdges nodes edges, e.source ≠ id

instance (nodes : List Node) (edges : List Edge) (id : NodeId) :
    Decidable (IsTerminalOutput nodes edges id) :=
  inferInstanceAs (Decidable (_ ∧ _))

variable {nodes : List Node} {edges : List Edge}

/-- A node makes a program if it is an output that feeds nothing. -/
theorem isTerminal_iff {id : NodeId} :
    isTerminal nodes (Graph.build nodes edges) id = true ↔ IsTerminalOutput nodes edges id := by
  unfold isTerminal IsTerminalOutput
  rw [Bool.and_eq_true, Graph.build_dependents, List.isEmpty_iff, List.map_eq_nil_iff,
    List.filter_eq_nil_iff]
  apply and_congr
  · cases Node.find? nodes id with
    | none => simp
    | some n => simp [Kind.isSink_iff]
  · simp

/-! ### The last fragment -/

/-- What a function has last for the nodes of a list, it has for a node after which it has
    nothing. -/
theorem exists_split_of_getLast? {α : Type} {order : List NodeId} {f : NodeId → Option α}
    {entry : NodeId × α} (h : (inOrder order f).getLast? = some entry) :
    ∃ before after, order = before ++ entry.1 :: after ∧ f entry.1 = some entry.2 ∧
      ∀ v ∈ after, f v = none := by
  induction order using List.reverseRecOn with
  | nil => simp [inOrder] at h
  | append_singleton order id ih =>
    rw [inOrder_concat] at h
    cases hf : f id with
    | none =>
      -- The last node has nothing, so that it belongs to those after.
      rw [hf, Option.map_none, Option.toList_none, List.append_nil] at h
      obtain ⟨before, after, horder, hentry, hafter⟩ := ih h
      refine ⟨before, after ++ [id], by rw [horder]; simp, hentry, ?_⟩
      exact List.forall_mem_append.mpr ⟨hafter, List.forall_mem_singleton.mpr hf⟩
    | some a =>
      rw [hf, Option.map_some, Option.toList_some, List.getLast?_concat] at h
      obtain rfl := Option.some.inj h
      exact ⟨order, [], rfl, hf, List.forall_mem_nil _⟩

/-- In a topological order, what a node feeds comes after it. -/
theorem IsTopological.mem_after {before after : List NodeId} {u v : NodeId}
    (h : IsTopological nodes edges (before ++ u :: after)) (huv : Feeds nodes edges u v) :
    v ∈ after := by
  have hlt := h.idxOf_lt huv
  have hbefore : u ∉ before := by
    intro hmem
    exact (List.nodup_append.mp h.nodup).2.2 u hmem u List.mem_cons_self rfl
  rw [List.idxOf_append_of_notMem hbefore, List.idxOf_cons_self] at hlt
  obtain ⟨e, he, -, rfl⟩ := huv
  -- The node stands behind the one that feeds it, which leaves no other place for it.
  rcases List.mem_append.mp (h.mem_iff.mpr (mem_liveEdges.mp he).2.2) with hmem | hmem
  · have hpos := List.idxOf_lt_length_of_mem hmem
    rw [List.idxOf_append_of_mem hmem] at hlt
    omega
  · rcases List.mem_cons.mp hmem with rfl | hmem
    · rw [List.idxOf_append_of_notMem hbefore, List.idxOf_cons_self] at hlt
      omega
    · exact hmem

/-! ### The texts of a plan -/

/-- The programs are the fragments of the outputs that feed nothing, in the order of the plan. -/
theorem programs_compile (settings : Settings) (context : Context) (nodes : List Node)
    (edges : List Edge) :
    let p := compile settings nodes edges context
    p.programs.map Prod.fst
        = p.order.filter (fun id => IsTerminalOutput nodes edges id ∧ (p.output? id).isSome) ∧
      ∀ entry ∈ p.programs, (p.output? entry.1).map Fragment.text = some entry.2 := by
  intro p
  obtain ⟨hprograms, -⟩ := compile_texts settings context nodes edges
  rw [show p.programs = _ from hprograms]
  refine ⟨?_, fun entry hentry => mem_inOrder hentry⟩
  rw [map_fst_inOrder, List.filter_filter]
  apply List.filter_congr
  intro id _
  rw [Option.isSome_map, Bool.eq_iff_iff, Bool.and_eq_true, decide_eq_true_eq, isTerminal_iff,
    and_comm]

/-- There is a final text if any node has a fragment. -/
theorem isSome_finalText_iff (settings : Settings) (context : Context) (nodes : List Node)
    (edges : List Edge) :
    let p := compile settings nodes edges context
    p.finalText.isSome ↔ ∃ id, (p.output? id).isSome := by
  intro p
  obtain ⟨-, htext⟩ := compile_texts settings context nodes edges
  have hempty : (∀ id, p.output? id = none) ↔ p.outputs = [] := forall_lookup_eq_none_iff
  rw [show p.finalText = _ from htext, Option.isSome_map, List.getLast?_isSome]
  show ¬ p.outputs = [] ↔ _
  rw [← hempty, not_forall]
  exact exists_congr fun id => Option.ne_none_iff_isSome

/-- The final text is that of a fragment after which the order has no other, so that none of the
    nodes that it feeds has one. -/
theorem finalText_compile (settings : Settings) (context : Context) {text : String}
    (h : (compile settings nodes edges context).finalText = some text) :
    let p := compile settings nodes edges context
    ∃ before last after f, p.order = before ++ last :: after ∧ p.output? last = some f ∧
      f.text = text ∧ (∀ v, Feeds nodes edges last v → p.output? v = none) ∧
      ∀ v ∈ after, p.output? v = none := by
  intro p
  have hacyclic : Acyclic nodes edges := by
    by_contra hcyclic
    rw [compile_of_not_acyclic settings context hcyclic] at h
    simp [Plan.aborted] at h
  -- In a topological order all that a node feeds stands behind it.
  have htopological : IsTopological nodes edges p.order := by
    obtain ⟨order, horder, hcompile⟩ := compile_of_acyclic settings context hacyclic
    show IsTopological nodes edges (compile settings nodes edges context).order
    rw [hcompile]
    exact horder
  obtain ⟨-, htext⟩ := compile_texts settings context nodes edges
  obtain ⟨houtputs, -⟩ := compile_records settings context nodes edges
  rw [htext, Option.map_eq_some_iff] at h
  obtain ⟨⟨last, f⟩, hlast, rfl⟩ := h
  rw [houtputs] at hlast
  obtain ⟨before, after, horder, hf, hafter⟩ := exists_split_of_getLast? hlast
  rw [show p.order = before ++ last :: after from horder] at htopological
  exact ⟨before, last, after, f, horder, hf, rfl,
    fun v hv => hafter v (htopological.mem_after hv), hafter⟩

/-! ### Listings -/

/-- No program is listed as nothing, for a line above it names its node. -/
theorem Plan.listed_ne_empty (program : NodeId × String) : listed program ≠ "" := by
  unfold listed
  rw [ne_eq, String.append_eq_empty_iff]
  exact fun h => absurd h.2 (by decide)

/-- A listing is empty if there is nothing to list: no program, and no final text either. -/
theorem Plan.listing_eq_empty_iff (p : Plan) :
    p.listing = "" ↔ p.programs = [] ∧ p.finalText = none := by
  unfold listing
  cases hprograms : p.programs with
  | nil =>
    cases p.finalText with
    | none => simp
    | some text => simp [String.append_eq_empty_iff]
  | cons program rest =>
    simp [String.join_cons, String.append_eq_empty_iff, listed_ne_empty]

/-- **Programs are the texts of terminal outputs.**  The programs of a plan belong to the outputs
    that no live edge leaves and that have a fragment, in the order of the plan, and are the texts
    of these fragments.  A final text is there exactly if a node has a fragment; it is then that
    of a node which feeds none that has one, and after which the order has none that has one.
    The listing of the programs is empty exactly if no node has a fragment. -/
theorem programs_select_outputs (settings : Settings) (context : Context) (nodes : List Node)
    (edges : List Edge) :
    let p := compile settings nodes edges context
    p.programs.map Prod.fst
        = p.order.filter (fun id => IsTerminalOutput nodes edges id ∧ (p.output? id).isSome) ∧
      (∀ entry ∈ p.programs, (p.output? entry.1).map Fragment.text = some entry.2) ∧
      (p.finalText.isSome ↔ ∃ id, (p.output? id).isSome) ∧
      (∀ text, p.finalText = some text →
        ∃ before last after f, p.order = before ++ last :: after ∧ p.output? last = some f ∧
          f.text = text ∧ (∀ v, Feeds nodes edges last v → p.output? v = none) ∧
          ∀ v ∈ after, p.output? v = none) ∧
      (p.listing = "" ↔ ∀ id, p.output? id = none) := by
  intro p
  obtain ⟨hkeys, htexts⟩ := programs_compile settings context nodes edges
  have hfinal : p.finalText.isSome ↔ ∃ id, (p.output? id).isSome :=
    isSome_finalText_iff settings context nodes edges
  refine ⟨hkeys, htexts, hfinal, fun text htext => finalText_compile settings context htext, ?_⟩
  -- Without any fragment there is neither a program nor a final text.
  have hnone : p.finalText = none ↔ ∀ id, p.output? id = none := by
    simp only [← Option.not_isSome_iff_eq_none, hfinal, not_exists]
  rw [Plan.listing_eq_empty_iff, hnone, and_iff_right_iff_imp]
  intro hall
  rw [← List.map_eq_nil_iff (f := Prod.fst), show p.programs.map Prod.fst = _ from hkeys,
    List.filter_eq_nil_iff]
  intro id _
  rw [decide_eq_true_eq, show (compile settings nodes edges context).output? id = none from hall id]
  exact fun h => Bool.false_ne_true h.2

end QueryGraph
