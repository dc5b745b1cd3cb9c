import QueryGraph.Proofs.Graph.Topological

namespace QueryGraph

/-!
# The scheduler counts exactly

* `Queue.run_eq_iterate`: a run is so many steps, for without a ready node a step does nothing.
* `Queue.left_add_count`: while the dependents of a node are told one after the other, every node
  waits for its dependencies that are not processed yet, less the copies that it was told of.
* `Queue.Exact`: what the scheduler knows about every node whenever it goes on to the next one,
  and before each of its dependents is told.
* `Queue.Sound.exact`: the invariant of the scheduler says so.
* `scheduler_counts_exactly`: the scheduler never counts below zero, takes every node at most once
  and none that a cycle holds up, and stops after at most one step for each node.
-/

namespace Queue

variable {g : Graph} {q : Queue} {id v : NodeId} {rest : List NodeId}

/-! ### Steps -/

theorem step_of_ready_nil (h : q.ready = []) : q.step g = q := by
  rw [step, h]

/-- A run is so many steps. -/
theorem run_eq_iterate (g : Graph) (fuel : Nat) (q : Queue) : run g fuel q = (step g)^[fuel] q := by
  induction fuel generalizing q with
  | zero => rfl
  | succ fuel ih =>
    rw [run]
    split
    next h =>
      -- The run ends early, and further steps would change nothing.
      have hfixed : q.step g = q := step_of_ready_nil (List.isEmpty_iff.mp h)
      exact (Function.iterate_fixed hfixed _).symm
    next => rw [ih, Function.iterate_succ_apply]

/-- The invariant of the scheduler holds after any number of steps. -/
theorem iterate_sound (hg : g.WellFormed) (k : Nat) : ((step g)^[k] (start g)).Sound g := by
  induction k with
  | zero => exact start_sound hg
  | succ k ih =>
    rw [Function.iterate_succ_apply']
    exact step_sound hg ih

/-- The queue once its first node is taken, before a dependent is told. -/
def taken (q : Queue) (id : NodeId) (rest : List NodeId) : Queue :=
  { q with ready := rest, order := q.order ++ [id] }

/-- A step takes the first ready node, then tells its dependents one after the other. -/
theorem step_eq (hready : q.ready = id :: rest) :
    q.step g = (g.dependents id).foldl tell (q.taken id rest) := by
  rw [step, hready]
  rfl

/-! ### The numbers of dependencies to come -/

/-- To tell a node changes a number and no key. -/
theorem keys_tell (q : Queue) (id : NodeId) :
    (q.tell id).waiting.map Prod.fst = q.waiting.map Prod.fst := by
  unfold tell
  split
  · simp only [List.map_map]
    apply List.map_congr_left
    intro w _
    by_cases hw : w.1 = id <;> simp [hw]
  · rfl

/-- To tell several nodes changes no key. -/
theorem keys_foldl_tell (ids : List NodeId) (q : Queue) :
    (ids.foldl tell q).waiting.map Prod.fst = q.waiting.map Prod.fst := by
  induction ids generalizing q with
  | nil => rfl
  | cons id rest ih => rw [List.foldl_cons, ih, keys_tell]

/-- Every node of the graph has a number at all times. -/
theorem keys_iterate (g : Graph) (k : Nat) :
    ((step g)^[k] (start g)).waiting.map Prod.fst = g.ids := by
  induction k with
  | zero =>
    show (g.entries.map fun e => (e.1, e.2.dependencies.length)).map Prod.fst = g.ids
    rw [List.map_map]
    rfl
  | succ k ih =>
    rw [Function.iterate_succ_apply', ← ih]
    cases hready : ((step g)^[k] (start g)).ready with
    | nil => rw [step_of_ready_nil hready]
    | cons id rest =>
      rw [step_eq hready, keys_foldl_tell]
      rfl

/-- A node with a number waits for that many dependencies. -/
theorem waitingFor?_eq (hv : v ∈ q.waiting.map Prod.fst) : q.waitingFor? v = some (q.left v) := by
  obtain ⟨w, hw, rfl⟩ := List.mem_map.mp hv
  have hsome : (q.waiting.lookup w.1).isSome :=
    List.lookup_isSome_iff.mpr ⟨w, hw, beq_self_eq_true w.1⟩
  obtain ⟨n, hn⟩ := Option.isSome_iff_exists.mp hsome
  rw [left, waitingFor?, hn, Option.getD_some]

/-- A node that was told of some of its dependencies waits for so many less than are not in the
    order. -/
theorem Sound.left_add_count (hg : g.WellFormed) (h : q.Sound g) (hready : q.ready = id :: rest)
    {told : List NodeId} (htold : told <+: g.dependents id) (v : NodeId) :
    (told.foldl tell (q.taken id rest)).left v + told.count v
      = (g.dependencies v).countP (· ∉ q.order) := by
  have hid : id ∉ q.order := h.notMem_order (by rw [hready]; exact List.mem_cons_self)
  -- Never more copies are told of than there are, so the difference is not cut off at zero.
  have hcount : told.count v ≤ (g.dependents id).count v := htold.sublist.count_le v
  have hle : (g.dependents id).count v ≤ q.left v := h.count_dependents_le hg hid v
  have hleft : (told.foldl tell (q.taken id rest)).left v = q.left v - told.count v :=
    left_foldl_tell told (q.taken id rest) v
  rw [hleft, ← h.left_eq]
  omega

/-- What the scheduler knows about the nodes when it goes on to the next ready one, and while it
    tells the dependents of that one. -/
structure Exact (g : Graph) (q : Queue) : Prop where
  /-- Every node waits for its dependencies that are not in the order, each as often as it is
      one. -/
  waiting : ∀ v ∈ g.ids, q.waitingFor? v = some ((g.dependencies v).countP (· ∉ q.order))
  /-- With some of the dependents told, a node waits for as many less as it was told of. -/
  telling : ∀ id rest told, q.ready = id :: rest → told <+: g.dependents id → ∀ v ∈ g.ids,
    ∃ n, (told.foldl tell (q.taken id rest)).waitingFor? v = some n ∧
      n + told.count v = (g.dependencies v).countP (· ∉ q.order)
  /-- Who is told next still waits. -/
  positive : ∀ id rest told next, q.ready = id :: rest → told ++ [next] <+: g.dependents id →
    ∃ n, (told.foldl tell (q.taken id rest)).waitingFor? next = some (n + 1)

/-- The invariant of the scheduler gives the exact numbers at every point of a step, as long as
    every node has a number. -/
theorem Sound.exact (hg : g.WellFormed) (h : q.Sound g)
    (hkeys : q.waiting.map Prod.fst = g.ids) : q.Exact g := by
  -- All nodes keep their numbers while some of them are told.
  have hnumber : ∀ {id rest v} (told : List NodeId), v ∈ g.ids →
      (told.foldl tell (q.taken id rest)).waitingFor? v
        = some ((told.foldl tell (q.taken id rest)).left v) := by
    intro id rest v told hv
    apply waitingFor?_eq
    rw [keys_foldl_tell]
    exact hkeys.symm ▸ hv
  refine ⟨fun v hv => ?_, fun id rest told hready htold v hv => ?_,
    fun id rest told next hready htold => ?_⟩
  · rw [waitingFor?_eq (hkeys.symm ▸ hv), h.left_eq]
  · exact ⟨_, hnumber told hv, h.left_add_count hg hready htold v⟩
  · have hdep : next ∈ g.dependents id := htold.subset (by simp)
    have hv : next ∈ g.ids :=
      Graph.mem_ids_of_mem_dependencies (hg.mem_dependents_iff.mp hdep)
    -- The copy that is told next is one more than those told before.
    have hbefore := h.left_add_count hg hready ((List.prefix_append told [next]).trans htold) next
    have hafter := h.left_add_count hg hready htold next
    rw [List.count_append, List.count_singleton_self] at hafter
    obtain ⟨n, hn⟩ : ∃ n, (told.foldl tell (q.taken id rest)).left next = n + 1 :=
      Nat.exists_eq_add_one.mpr (by omega)
    exact ⟨n, by rw [hnumber told hv, hn]⟩

/-! ### Taking nodes -/

/-- Nodes are only put behind those that were ready before. -/
theorem Sound.placed_extends (hg : g.WellFormed) (h : q.Sound g) :
    q.order ++ q.ready <+: (q.step g).order ++ (q.step g).ready := by
  cases hready : q.ready with
  | nil => rw [step_of_ready_nil hready, hready]
  | cons id rest =>
    rw [h.placed_step hg hready, hready]
    exact List.prefix_append _ _

/-- As long as nodes are ready, every step takes one. -/
theorem length_order_iterate (g : Graph) {k : Nat}
    (h : ∀ j < k, ((step g)^[j] (start g)).ready ≠ []) :
    ((step g)^[k] (start g)).order.length = k := by
  induction k with
  | zero => rfl
  | succ k ih =>
    obtain ⟨id, rest, hready⟩ := List.exists_cons_of_ne_nil (h k (Nat.lt_succ_self k))
    rw [Function.iterate_succ_apply', order_step hready, List.length_append,
      List.length_singleton, ih fun j hj => h j (Nat.lt_succ_of_lt hj)]

/-- The scheduler comes to a state without ready nodes, with all that can be scheduled in the
    order, and has taken at most as many nodes as there are. -/
theorem exists_last (hg : g.WellFormed) :
    ∃ k ≤ g.size, (∀ j < k, ((step g)^[j] (start g)).ready ≠ []) ∧
      ((step g)^[k] (start g)).ready = [] ∧ ((step g)^[k] (start g)).order = g.schedulable := by
  have hend : ((step g)^[g.size] (start g)).ready = [] := by
    rw [← run_eq_iterate]
    exact (run_sound hg g.size (start_sound hg) (by simp)).2
  obtain ⟨k, hk, hbefore, hlast, heq⟩ :=
    exists_first_stop (fun q : Queue => q.ready = []) (fun _ h => step_of_ready_nil h) hend
  exact ⟨k, hk, hbefore, hlast, by rw [heq, Graph.schedulable, run_eq_iterate]⟩

end Queue

/-- **The scheduler counts exactly.**  Whenever it goes on to the next ready node, every node waits
    for its dependencies that are not processed yet, with multiplicity; within a step these are
    less the copies told so far, so nobody is told who does not wait any more.  The nodes that
    ever became ready are all different, none of them is on a cycle or below one, and after at
    most as many steps as there are nodes no node is ready. -/
theorem scheduler_counts_exactly (nodes : List Node) (edges : List Edge) :
    let g := Graph.build nodes edges
    let after (k : Nat) : Queue := (Queue.step g)^[k] (Queue.start g)
    let entered (k : Nat) : List NodeId := (after k).order ++ (after k).ready
    (∀ k, (after k).Exact g) ∧
      (∀ k, (entered k).Nodup ∧ entered k <+: entered (k + 1) ∧
        ∀ v ∈ entered k, ¬ HeldUp nodes edges v) ∧
      ∃ k ≤ g.size, (∀ j < k, (after j).ready ≠ []) ∧ (after k).ready = [] ∧
        (after k).order.length = k ∧ (after k).order = g.schedulable := by
  intro g after entered
  have hg : g.WellFormed := Graph.build_wellFormed nodes edges
  have hsound : ∀ k, (after k).Sound g := Queue.iterate_sound hg
  refine ⟨fun k => (hsound k).exact hg (Queue.keys_iterate g k),
    fun k => ⟨(hsound k).nodup, ?_, fun v hv => ?_⟩, ?_⟩
  · have hprefix := (hsound k).placed_extends hg
    rwa [← Function.iterate_succ_apply' (Queue.step g)] at hprefix
  · -- All dependencies of such a node are in the order, where nothing depends on itself.
    have hacc : Acc g.IsDependency v := Acc.intro v fun u hu =>
      (hsound k).ordered.acc u ((hsound k).dependencies_subset hv hu)
    rw [isDependency_build] at hacc
    exact not_heldUp_of_acc hacc
  · obtain ⟨k, hk, hbefore, hready, horder⟩ := Queue.exists_last hg
    exact ⟨k, hk, hbefore, hready, Queue.length_order_iterate g hbefore, horder⟩

end QueryGraph
