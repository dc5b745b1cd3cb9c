import QueryGraph.Proofs.Plan.Reference

namespace QueryGraph

/-!
# A plan lists its outcomes in order

* `inOrder`: what a function has for the nodes of a list, in the order of the list.
* `Progress.Records`: the fragments and failures so far stand in the order of compilation.
* `compile_records`: the fragments and failures of a plan are the outcomes of the nodes in its
  order, so plans with one order and the same outcomes hold the same lists.
* `compile_texts`: the programs and the final text of a plan are texts of its fragments.
-/

section InOrder

variable {α : Type}

/-- What a function has for the nodes of a list, each with its node. -/
def inOrder (order : List NodeId) (f : NodeId → Option α) : List (NodeId × α) :=
  order.filterMap fun id => (f id).map (Prod.mk id)

/-- The entry of one more id stands behind the others, if it has one. -/
theorem inOrder_concat (order : List NodeId) (id : NodeId) (f : NodeId → Option α) :
    inOrder (order ++ [id]) f = inOrder order f ++ ((f id).map (Prod.mk id)).toList := by
  rw [inOrder, List.filterMap_append, inOrder]
  cases hf : f id <;> simp [hf]

theorem inOrder_congr {order : List NodeId} {f f' : NodeId → Option α}
    (h : ∀ id ∈ order, f id = f' id) : inOrder order f = inOrder order f' :=
  List.filterMap_congr fun id hid => by rw [h id hid]

/-- The nodes for which a function has something, in order. -/
theorem map_fst_inOrder (order : List NodeId) (f : NodeId → Option α) :
    (inOrder order f).map Prod.fst = order.filter fun id => (f id).isSome := by
  induction order with
  | nil => rfl
  | cons id rest ih =>
    cases hf : f id with
    | none => simpa [inOrder, hf] using ih
    | some a => simpa [inOrder, hf] using ih

/-- An entry is what is known of its id. -/
theorem mem_inOrder {order : List NodeId} {f : NodeId → Option α} {entry : NodeId × α}
    (h : entry ∈ inOrder order f) : f entry.1 = some entry.2 := by
  obtain ⟨id, -, hentry⟩ := List.mem_filterMap.mp h
  obtain ⟨a, ha, rfl⟩ := Option.map_eq_some_iff.mp hentry
  exact ha

/-- Entries may be changed before or after they are listed. -/
theorem map_inOrder {β : Type} (order : List NodeId) (f : NodeId → Option α) (g : α → β) :
    (inOrder order f).map (fun entry => (entry.1, g entry.2))
      = inOrder order fun id => (f id).map g := by
  rw [inOrder, inOrder, List.map_filterMap]
  simp only [Option.map_map]
  rfl

/-- Listing renamed ids renames the entries. -/
theorem inOrder_map (order : List NodeId) (f : NodeId → NodeId) (g : NodeId → Option α) :
    inOrder (order.map f) g
      = (inOrder order fun id => g (f id)).map fun entry => (f entry.1, entry.2) := by
  rw [inOrder, List.filterMap_map, inOrder, List.map_filterMap]
  simp only [Function.comp_def, Option.map_map]

/-- A listed id is looked up as what is known of it, and any other one not at all. -/
theorem lookup_inOrder {α : Type} (order : List NodeId) (g : NodeId → Option α) (id : NodeId) :
    (inOrder order g).lookup id = if id ∈ order then g id else none := by
  induction order with
  | nil => rfl
  | cons v rest ih =>
    -- The first entry of an id decides; if the id has none, no later one of it has.
    by_cases hv : id = v
    · subst hv
      rw [if_pos List.mem_cons_self]
      cases hg : g id with
      | none =>
        have hrest : (inOrder rest g).lookup id = none := by rw [ih, hg, ite_self]
        simpa [inOrder, hg] using hrest
      | some a => simp [inOrder, hg]
    · have hmem : id ∈ v :: rest ↔ id ∈ rest := by simp [hv]
      rw [show inOrder (v :: rest) g = (((g v).map (Prod.mk v)).toList ++ inOrder rest g) by
        cases hg : g v <;> simp [inOrder, hg]]
      simp only [hmem, ← ih]
      cases g v with
      | none => rfl
      | some a => exact (lookup_cons_if v id a _).trans (if_neg hv)

end InOrder

namespace Progress

/-- The fragments and failures stand in the order in which the nodes were compiled. -/
structure Records (order : List NodeId) (p : Progress) : Prop where
  outputs_eq : p.outputs = inOrder order p.output?
  errors_eq : p.errors = inOrder order p.error?

variable {p : Progress} {order : List NodeId}

/-- The outcome of a new node is listed last. -/
theorem Records.note {id : NodeId} (h : p.Records order) (hlacks : p.outcomes.Lacks id)
    (hnew : id ∉ order) (r : Except NodeFailure Fragment) :
    (p.note id r).Records (order ++ [id]) := by
  -- What is noted about a new node changes nothing about those before it.
  have hsame : ∀ v ∈ order, (p.note id r).outcomes.SameAt p.outcomes v := by
    intro v hv
    refine p.sameAt_note ?_ r
    rintro rfl
    exact hnew hv
  have houtputs : inOrder order (p.note id r).output? = p.outputs :=
    (inOrder_congr fun v hv => (hsame v hv).1).trans h.outputs_eq.symm
  have herrors : inOrder order (p.note id r).error? = p.errors :=
    (inOrder_congr fun v hv => (hsame v hv).2).trans h.errors_eq.symm
  have hhas := has_note hlacks r
  constructor
  · rw [inOrder_concat, houtputs]
    cases r with
    | ok f =>
      rw [show (p.note id (.ok f)).output? id = some f from hhas.1]
      rfl
    | error e =>
      rw [show (p.note id (.error e)).output? id = none from hhas.1]
      exact (List.append_nil _).symm
  · rw [inOrder_concat, herrors]
    cases r with
    | ok f =>
      rw [show (p.note id (.ok f)).error? id = none from hhas.2]
      exact (List.append_nil _).symm
    | error e =>
      rw [show (p.note id (.error e)).error? id = some e from hhas.2]
      rfl

end Progress

variable {nodes : List Node} {edges : List Edge}

/-- Along a topological order, both lists are in that order and hold all outcomes so far. -/
theorem records_progressAlong (settings : Settings) (context : Context) {order : List NodeId}
    (hnodup : order.Nodup) (hordered : (Graph.build nodes edges).Ordered order)
    (hids : order ⊆ nodes.map Node.id) :
    (progressAlong settings context nodes edges order).Records order := by
  -- The induction takes the last node off the order, which is noted last.
  induction order using List.reverseRecOn with
  | nil => exact ⟨rfl, rfl⟩
  | append_singleton order id ih =>
    obtain ⟨hbefore, -⟩ := Graph.ordered_concat.mp hordered
    obtain ⟨hrest, -, hdisjoint⟩ := List.nodup_append.mp hnodup
    have hnew : id ∉ order := fun hm => hdisjoint id hm id (List.mem_singleton_self id) rfl
    have hids' : order ⊆ nodes.map Node.id := fun v hv => hids (List.mem_append_left _ hv)
    -- A node that was not reached yet has no outcome.
    have hlacks := (solvesOn_progressAlong settings context hrest hbefore hids').lacks id hnew
    obtain ⟨n, hn⟩ := Node.exists_find?_of_mem (hids (by simp : id ∈ order ++ [id]))
    rw [progressAlong, List.foldl_append, List.foldl_cons, List.foldl_nil,
      Progress.advance_eq_note _ hn]
    exact (ih hrest hbefore hids').note hlacks hnew _

/-- The lists of a plan, whatever became of it. -/
theorem compile_records (settings : Settings) (context : Context) (nodes : List Node)
    (edges : List Edge) :
    let p := compile settings nodes edges context
    p.outputs = inOrder p.order p.output? ∧ p.errors = inOrder p.order p.error? := by
  by_cases h : Acyclic nodes edges
  · obtain ⟨order, horder, hcompile⟩ := compile_of_acyclic settings context h
    have hrecords := records_progressAlong settings context horder.nodup horder.ordered
      fun id hid => horder.mem_iff.mp hid
    rw [hcompile]
    exact ⟨hrecords.outputs_eq, hrecords.errors_eq⟩
  · rw [compile_of_not_acyclic settings context h]
    exact ⟨rfl, rfl⟩

/-- The programs are the texts of terminal sinks, and the final text is that of the last
    fragment. -/
theorem compile_texts (settings : Settings) (context : Context) (nodes : List Node)
    (edges : List Edge) :
    let p := compile settings nodes edges context
    p.programs = inOrder (p.order.filter (isTerminal nodes (Graph.build nodes edges)))
        (fun id => (p.output? id).map Fragment.text) ∧
      p.finalText = p.outputs.getLast?.map fun entry => entry.2.text := by
  by_cases h : Acyclic nodes edges
  · obtain ⟨order, horder, hcompile⟩ := compile_of_acyclic settings context h
    have hrecords := records_progressAlong settings context horder.nodup horder.ordered
      fun id hid => horder.mem_iff.mp hid
    rw [hcompile]
    refine ⟨List.filterMap_congr fun id _ => (Option.map_map _ _ _).symm, ?_⟩
    show (order.reverse.findSome? _).map Fragment.text = (List.getLast? _).map _
    rw [show (finish _ _ _ _).outputs = _ from hrecords.outputs_eq, inOrder,
      ← List.head?_reverse, ← List.filterMap_reverse, List.head?_filterMap]
    -- Looked at from its end, the order gives the last node with a fragment first.
    induction order.reverse with
    | nil => rfl
    | cons id rest ih =>
      cases hid : (progressAlong settings context nodes edges order).output? id <;> simp [hid, ih]
  · rw [compile_of_not_acyclic settings context h]
    exact ⟨rfl, rfl⟩

end QueryGraph
