import Mathlib.Data.List.Induction
import Mathlib.Data.List.Perm.Subperm
import Mathlib.Data.Nat.Find
import Mathlib.Logic.Function.Iterate
import QueryGraph.Graph.Schedule
import QueryGraph.Proofs.Graph.Index

namespace QueryGraph

/-!
# The schedule orders every graph that can be ordered

* `exists_first_stop`: when steps have come to a state in which they change nothing.
* `Graph.Ordered`: a list in which every node comes after all of its dependencies.
* `Queue.ready_foldl_tell`: what becomes ready when dependencies come, in the order in which it
  does.
* `Queue.Sound`: the invariant of the scheduler.  A node waits for exactly those dependencies
  that are not in the order yet, and it is in the order or ready as soon as it waits for none.
* `Queue.step_sound`, `Queue.run_sound`: one step and all steps keep the invariant.
* `Graph.schedule_eq_ok`, `Graph.exists_schedule_iff`: a schedule lists all nodes in order, and
  there is one exactly if the dependencies are well-founded.
-/

/-! ### Steps until nothing changes -/

/-- Steps that come to a state in which they change nothing come to it after a first number of
    them. -/
theorem exists_first_stop {α : Type} {f : α → α} (stops : α → Prop)
    (hstops : ∀ a, stops a → f a = a) {a : α} {n : Nat} (h : stops (f^[n] a)) :
    ∃ k ≤ n, (∀ j < k, ¬ stops (f^[j] a)) ∧ stops (f^[k] a) ∧ f^[k] a = f^[n] a := by
  classical
  have hexists : ∃ k, stops (f^[k] a) := ⟨n, h⟩
  have hfirst := Nat.find_spec hexists
  have hle : Nat.find hexists ≤ n := Nat.find_min' hexists h
  refine ⟨Nat.find hexists, hle, fun j hj => Nat.find_min hexists hj, hfirst, ?_⟩
  have hfixed := Function.iterate_fixed (hstops _ hfirst) (n - Nat.find hexists)
  rw [← Function.iterate_add_apply, Nat.sub_add_cancel hle] at hfixed
  exact hfixed.symm

/-! ### Ordered lists of nodes -/

namespace Graph

/-- The first node is a dependency of the second. -/
def IsDependency (g : Graph) (u v : NodeId) : Prop := u ∈ g.dependencies v

/-- All dependencies of a node of the list stand before it. -/
def Ordered (g : Graph) (order : List NodeId) : Prop :=
  ∀ l₁ v l₂, order = l₁ ++ v :: l₂ → g.dependencies v ⊆ l₁

theorem ordered_nil (g : Graph) : g.Ordered [] := by
  intro l₁ v l₂ h
  simp at h

/-- An ordered list grows at its end, by a node whose dependencies are in it already. -/
theorem ordered_concat {g : Graph} {order : List NodeId} {id : NodeId} :
    g.Ordered (order ++ [id]) ↔ g.Ordered order ∧ g.dependencies id ⊆ order := by
  constructor
  · intro h
    refine ⟨fun l₁ v l₂ hl => ?_, h order id [] rfl⟩
    exact h l₁ v (l₂ ++ [id]) (by rw [hl]; simp)
  · rintro ⟨horder, hid⟩ l₁ v l₂ h
    -- Either the node in question is the new one, or the new one stands somewhere behind it.
    rcases List.eq_nil_or_concat l₂ with rfl | ⟨l₃, z, rfl⟩
    · obtain ⟨rfl, hv⟩ := List.append_inj' h rfl
      obtain rfl : id = v := by simpa using hv
      exact hid
    · have h' : order ++ [id] = (l₁ ++ v :: l₃) ++ [z] := by rw [h]; simp
      exact horder l₁ v l₃ (List.append_inj' h' rfl).1

/-- A node of an ordered list depends, directly or not, on finitely many nodes only. -/
theorem Ordered.acc {g : Graph} {order : List NodeId} (h : g.Ordered order) :
    ∀ v ∈ order, Acc g.IsDependency v := by
  induction order using List.reverseRecOn with
  | nil => simp
  | append_singleton order id ih =>
    obtain ⟨horder, hid⟩ := ordered_concat.mp h
    intro v hv
    rcases List.mem_append.mp hv with hv | hv
    · exact ih horder v hv
    · -- All that the last node depends on stands before it.
      obtain rfl := List.mem_singleton.mp hv
      exact Acc.intro v fun u hu => ih horder u (hid hu)

end Graph

/-! ### Telling dependents -/

namespace Queue

/-- How many dependencies of a node are still to come; none for a node that is not there. -/
def left (q : Queue) (id : NodeId) : Nat := (q.waitingFor? id).getD 0

theorem order_tell (q : Queue) (id : NodeId) : (q.tell id).order = q.order := by
  unfold tell
  split <;> rfl

/-- A node told waits for one dependency less, and all others for as many as before. One that waits
    for none already stays at that, as subtraction does. -/
theorem left_tell (q : Queue) (id v : NodeId) :
    (q.tell id).left v = q.left v - if v = id then 1 else 0 := by
  unfold tell left
  -- Only the entry of the node told is written, and only if it counts down from above zero.
  by_cases hv : v = id
  · subst hv
    split
    next n hn =>
      rw [waitingFor?] at hn
      simp [waitingFor?, lookup_map_if _ v v fun _ => n, hn]
    next h =>
      cases hw : q.waitingFor? v with
      | none => simp
      | some n =>
        cases n with
        | zero => simp
        | succ n => exact absurd hw (h n)
  · split
    next n hn => simp [waitingFor?, lookup_map_if _ id v fun _ => n, hv]
    next => simp [hv]

/-- A node becomes ready when it is told of the last dependency that it waits for. -/
theorem ready_tell (q : Queue) (id : NodeId) :
    (q.tell id).ready = if q.left id = 1 then q.ready ++ [id] else q.ready := by
  unfold tell left
  split
  next n hn => simp [hn]
  next h =>
    cases hw : q.waitingFor? id with
    | none => simp
    | some n =>
      cases n with
      | zero => simp
      | succ n => exact absurd hw (h n)

/-- Telling any number of nodes places nothing either. -/
theorem order_foldl_tell (ids : List NodeId) (q : Queue) :
    (ids.foldl tell q).order = q.order := by
  induction ids generalizing q with
  | nil => rfl
  | cons id rest ih => rw [List.foldl_cons, ih, order_tell]

/-- Told once for each copy, a node waits for that many dependencies less. -/
theorem left_foldl_tell (ids : List NodeId) (q : Queue) (v : NodeId) :
    (ids.foldl tell q).left v = q.left v - ids.count v := by
  induction ids generalizing q with
  | nil => simp
  | cons id rest ih =>
    rw [List.foldl_cons, ih, left_tell, List.count_cons]
    by_cases hv : v = id
    · subst hv
      simp
      omega
    · simp [hv, Ne.symm hv]

/-- Told of no more dependencies than they wait for, those nodes become ready that are told of
    all of them, each at the last copy. -/
theorem ready_foldl_tell (ids : List NodeId) (q : Queue) (h : ∀ v, ids.count v ≤ q.left v) :
    (ids.foldl tell q).ready
      = q.ready ++ ids.dedup.filter fun v => q.left v = ids.count v := by
  -- The queue changes with each node told, so the induction is over all queues.
  induction ids generalizing q with
  | nil => simp
  | cons id rest ih =>
    -- One copy less is told of, and one dependency less is waited for.
    have hhead : 0 < q.left id := Nat.lt_of_lt_of_le (by simp) (h id)
    have hsame : ∀ v, (q.tell id).left v = rest.count v ↔ q.left v = (id :: rest).count v := by
      intro v
      rw [left_tell, List.count_cons]
      by_cases hv : v = id
      · subst hv
        simp
        omega
      · simp [hv, Ne.symm hv]
    have hcount : ∀ v, rest.count v ≤ (q.tell id).left v := by
      intro v
      have hv := h v
      rw [List.count_cons] at hv
      rw [left_tell]
      by_cases hid : v = id
      · subst hid
        simp at hv ⊢
        omega
      · simpa [hid, Ne.symm hid] using hv
    rw [List.foldl_cons, ih _ hcount, ready_tell]
    simp only [hsame]
    by_cases hid : id ∈ rest
    · -- This is not the last copy, so more than one dependency is waited for.
      have hmore := h id
      have hpos := List.count_pos_iff.mpr hid
      rw [List.count_cons_self] at hmore
      rw [if_neg (by omega), List.dedup_cons_of_mem hid]
    · rw [List.dedup_cons_of_notMem hid, List.filter_cons, List.count_cons_self,
        List.count_eq_zero.mpr hid]
      by_cases hone : q.left id = 1 <;> simp [hone]

/-! ### The invariant -/

/-- The invariant of the scheduler. -/
structure Sound (g : Graph) (q : Queue) : Prop where
  nodup : (q.order ++ q.ready).Nodup
  left_eq : ∀ v, q.left v = (g.dependencies v).countP (· ∉ q.order)
  placed_iff : ∀ v, v ∈ q.order ++ q.ready ↔ v ∈ g.ids ∧ q.left v = 0
  ordered : g.Ordered q.order

variable {g : Graph} {q : Queue}

/-- At the start every node waits for all its dependencies, with repetitions. -/
theorem left_start (g : Graph) (v : NodeId) : (start g).left v = (g.dependencies v).length := by
  -- The table of counters comes from the entries of the graph, and so does each lookup in it.
  have hlookup : ∀ l : List (NodeId × Neighbours),
      (l.map fun e => (e.1, e.2.dependencies.length)).lookup v
        = (l.lookup v).map fun n => n.dependencies.length := by
    intro l
    induction l with
    | nil => rfl
    | cons e rest ih =>
      rw [List.map_cons, lookup_cons_if, ih, ← Prod.eta e, lookup_cons_if]
      by_cases hv : v = e.1 <;> simp [hv]
  simp only [left, waitingFor?, start, hlookup, Graph.dependencies, Graph.neighbours,
    Graph.neighbours?]
  cases g.entries.lookup v <;> rfl

/-- At the start those nodes are ready that depend on nothing. -/
theorem mem_ready_start (hg : g.WellFormed) (v : NodeId) :
    v ∈ (start g).ready ↔ v ∈ g.ids ∧ g.dependencies v = [] := by
  simp only [start, Graph.ids, List.mem_map, List.mem_filter, Graph.dependencies,
    List.isEmpty_iff]
  constructor
  · rintro ⟨⟨_, n⟩, ⟨hn, hinputs⟩, rfl⟩
    exact ⟨⟨_, hn, rfl⟩, by rw [hg.neighbours_of_mem hn]; exact hinputs⟩
  · rintro ⟨⟨⟨_, n⟩, hn, rfl⟩, hinputs⟩
    exact ⟨_, ⟨hn, by rw [hg.neighbours_of_mem hn] at hinputs; exact hinputs⟩, rfl⟩

/-- The invariant holds before the first step, when nothing is in the order. -/
theorem start_sound (hg : g.WellFormed) : (start g).Sound g where
  nodup := by
    have hsub : (start g).ready.Sublist g.ids := List.filter_sublist.map _
    simpa [start] using hsub.nodup hg.nodup
  left_eq := by
    intro v
    rw [left_start]
    simp [start, List.countP_eq_length.mpr]
  placed_iff := by
    intro v
    rw [left_start, show (start g).order = [] from rfl, List.nil_append, mem_ready_start hg,
      List.length_eq_zero_iff]
  ordered := g.ordered_nil

/-- What is still to come falls by the number of copies of the node that comes. -/
theorem countP_not_mem_concat {order : List NodeId} {id : NodeId} (h : id ∉ order)
    (l : List NodeId) :
    l.countP (· ∉ order ++ [id]) = l.countP (· ∉ order) - l.count id := by
  -- As a sum it goes by induction; a difference would be cut off at zero in each case.
  suffices hsum : l.countP (· ∉ order) = l.countP (· ∉ order ++ [id]) + l.count id by omega
  induction l with
  | nil => rfl
  | cons u rest ih =>
    rw [List.countP_cons, List.countP_cons, List.count_cons, ih]
    by_cases hu : u = id
    · subst hu
      simp [h]
      omega
    · simp [hu]
      omega

/-! ### One step -/

/-- A node that is ready has not been placed, for no node is in both lists. -/
theorem Sound.notMem_order (h : q.Sound g) {id : NodeId} (hid : id ∈ q.ready) :
    id ∉ q.order :=
  fun hmem => (List.nodup_append.mp h.nodup).2.2 id hmem id hid rfl

/-- A node that is ready waits for no dependency: all of them are in the order. -/
theorem Sound.dependencies_subset (h : q.Sound g) {v : NodeId} (hv : v ∈ q.order ++ q.ready) :
    g.dependencies v ⊆ q.order := by
  intro u hu
  have hzero := ((h.placed_iff v).mp hv).2
  rw [h.left_eq, List.countP_eq_zero] at hzero
  simpa using hzero u hu

/-- A node that has not come yet is waited for by its dependents, as often as they are told. -/
theorem Sound.count_dependents_le (hg : g.WellFormed) (h : q.Sound g) {id : NodeId}
    (hid : id ∉ q.order) (v : NodeId) : (g.dependents id).count v ≤ q.left v := by
  rw [hg.count_eq, h.left_eq]
  refine List.countP_mono_left fun u _ hu => ?_
  obtain rfl : u = id := by simpa using hu
  simpa using hid

/-- The dependents of a node that become ready when it is taken, in the order in which they
    do. -/
def freed (g : Graph) (q : Queue) (id : NodeId) : List NodeId :=
  (g.dependents id).dedup.filter fun v => q.left v = (g.dependents id).count v

/-- A dependent is freed if all that it still waits for is the node that is taken. -/
theorem mem_freed {id v : NodeId} :
    v ∈ freed g q id ↔ v ∈ g.dependents id ∧ q.left v = (g.dependents id).count v := by
  rw [freed, List.mem_filter, List.mem_dedup, decide_eq_true_eq]

/-- A node that is freed is waiting so far. -/
theorem left_pos_of_mem_freed {id v : NodeId} (hv : v ∈ freed g q id) : 0 < q.left v := by
  obtain ⟨hmem, hleft⟩ := mem_freed.mp hv
  rw [hleft]
  exact List.count_pos_iff.mpr hmem

section Step

variable {id : NodeId} {rest : List NodeId}

/-- A step places the node at the head of the queue. -/
theorem order_step (hready : q.ready = id :: rest) : (q.step g).order = q.order ++ [id] := by
  unfold step
  rw [hready, order_foldl_tell]

/-- A step tells the dependents of the node that it takes, once for each edge. -/
theorem left_step (hready : q.ready = id :: rest) (v : NodeId) :
    (q.step g).left v = q.left v - (g.dependents id).count v := by
  unfold step
  rw [hready, left_foldl_tell]
  rfl

/-- The node taken goes from the one list to the other, so only those it frees are new. -/
theorem Sound.placed_step (hg : g.WellFormed) (h : q.Sound g) (hready : q.ready = id :: rest) :
    (q.step g).order ++ (q.step g).ready = (q.order ++ q.ready) ++ freed g q id := by
  have hid : id ∈ q.ready := by rw [hready]; exact List.mem_cons_self
  have hcount := h.count_dependents_le hg (h.notMem_order hid)
  have hnext : (q.step g).ready = rest ++ freed g q id := by
    unfold step
    rw [hready]
    exact ready_foldl_tell _ _ hcount
  rw [order_step hready, hnext, hready]
  simp

end Step

/-- **One step keeps the invariant.** The node taken moves from the queue to the order, its
    dependents count down by the edges from it, and those that come to zero join the queue, which no
    node can do twice. -/
theorem step_sound (hg : g.WellFormed) (h : q.Sound g) : (q.step g).Sound g := by
  cases hready : q.ready with
  | nil => rwa [step, hready]
  | cons id rest =>
    have hid : id ∈ q.ready := by rw [hready]; exact List.mem_cons_self
    have hnew := h.notMem_order hid
    have hplaced := h.placed_step hg hready
    refine ⟨?_, fun v => ?_, fun v => ?_, ?_⟩
    · -- What becomes ready was waiting so far, so it was not placed yet.
      rw [hplaced, List.nodup_append]
      refine ⟨h.nodup, (List.nodup_dedup _).filter _, ?_⟩
      rintro v hv _ hfreed rfl
      have hzero := ((h.placed_iff v).mp hv).2
      have hpos := left_pos_of_mem_freed hfreed
      omega
    · -- The counter falls by the edges from the node, as the number of dependencies to come does.
      rw [left_step hready, order_step hready, h.left_eq, hg.count_eq,
        countP_not_mem_concat hnew]
    · -- A node is placed by now if it was before, or if the step has freed it.
      have hle := h.count_dependents_le hg hnew v
      rw [hplaced, List.mem_append, h.placed_iff, mem_freed, left_step hready]
      constructor
      · rintro (⟨hv, hzero⟩ | ⟨hmem, heq⟩)
        · exact ⟨hv, by omega⟩
        · have hdep := hg.mem_dependents_iff.mp hmem
          exact ⟨Graph.mem_ids_of_mem_dependencies hdep, by omega⟩
      · rintro ⟨hv, hzero⟩
        by_cases h0 : q.left v = 0
        · exact Or.inl ⟨hv, h0⟩
        · exact Or.inr ⟨List.count_pos_iff.mp (by omega), by omega⟩
    · -- The node taken was ready, so all that it depends on was placed before it.
      rw [order_step hready]
      exact Graph.ordered_concat.mpr
        ⟨h.ordered, h.dependencies_subset (List.mem_append_right _ hid)⟩

/-- A node can be placed only once, so the order and the queue never outgrow the graph. -/
theorem Sound.length_le (h : q.Sound g) : q.order.length + q.ready.length ≤ g.size := by
  have hsub : q.order ++ q.ready ⊆ g.ids := fun v hv => ((h.placed_iff v).mp hv).1
  have hle := (List.subperm_of_subset h.nodup hsub).length_le
  simpa [Graph.ids, Graph.size] using hle

/-- With a step left for every node that is not in the order, the scheduler runs until no node
    is ready. -/
theorem run_sound (hg : g.WellFormed) (fuel : Nat) (h : q.Sound g)
    (hfuel : g.size ≤ q.order.length + fuel) :
    (run g fuel q).Sound g ∧ (run g fuel q).ready = [] := by
  induction fuel generalizing q with
  | zero =>
    -- The order is as long as the graph is large, which leaves no room for a ready node.
    have hle := h.length_le
    exact ⟨h, List.length_eq_zero_iff.mp (by rw [run]; omega)⟩
  | succ fuel ih =>
    rw [run]
    cases hready : q.ready with
    | nil => exact ⟨h, hready⟩
    | cons id rest =>
      -- One node more is in the order, and one step less is left.
      apply ih (step_sound hg h)
      rw [order_step hready, List.length_append, List.length_singleton]
      omega

end Queue

/-! ### The schedule -/

namespace Graph

variable {g : Graph}

/-- The schedulable nodes are in order, and they are exactly those whose dependencies are all
    schedulable. -/
theorem schedulable_spec (hg : g.WellFormed) :
    g.schedulable.Nodup ∧ g.Ordered g.schedulable ∧
      ∀ v, v ∈ g.schedulable ↔ v ∈ g.ids ∧ g.dependencies v ⊆ g.schedulable := by
  -- With nothing ready at the end, the invariant speaks of the order alone.
  obtain ⟨hsound, hready⟩ := Queue.run_sound hg g.size (Queue.start_sound hg) (by simp)
  have hnodup := hsound.nodup
  have hplaced := hsound.placed_iff
  rw [hready, List.append_nil] at hnodup hplaced
  refine ⟨hnodup, hsound.ordered, fun v => ?_⟩
  rw [schedulable, hplaced, hsound.left_eq, List.countP_eq_zero]
  simp [List.subset_def]

/-- A schedule is the list of all schedulable nodes, and it is only given if that is complete. -/
theorem schedulable_eq {order : List NodeId} (h : g.schedule = .ok order) :
    g.schedulable = order ∧ g.schedulable.length = g.size := by
  unfold schedule at h
  split at h
  next hlen => exact ⟨Except.ok.inj h, hlen⟩
  next => simp at h

/-- A schedule lists every node once, behind all that it depends on. -/
theorem schedule_eq_ok {order : List NodeId} (hg : g.WellFormed) (h : g.schedule = .ok order) :
    order.Nodup ∧ g.Ordered order ∧ ∀ v, v ∈ order ↔ v ∈ g.ids := by
  obtain ⟨hnodup, hordered, hmem⟩ := schedulable_spec hg
  obtain ⟨rfl, hlen⟩ := schedulable_eq h
  have hsub : g.schedulable ⊆ g.ids := fun v hv => ((hmem v).mp hv).1
  have hperm : g.schedulable.Perm g.ids :=
    (List.subperm_of_subset hnodup hsub).perm_of_length_le (by simp [hlen, ids, size])
  exact ⟨hnodup, hordered, fun v => hperm.mem_iff⟩

/-- There is a schedule exactly if no chain of dependencies goes on for ever. -/
theorem exists_schedule_iff (hg : g.WellFormed) :
    (∃ order, g.schedule = .ok order) ↔ WellFounded g.IsDependency := by
  constructor
  · rintro ⟨order, h⟩
    obtain ⟨-, hordered, hmem⟩ := schedule_eq_ok hg h
    refine ⟨fun v => ?_⟩
    -- A node of the graph is in the schedule; any other one depends on nothing.
    by_cases hv : v ∈ g.ids
    · exact hordered.acc v ((hmem v).mpr hv)
    · exact Acc.intro v fun u hu => absurd (mem_ids_of_mem_dependencies hu) hv
  · intro hwf
    obtain ⟨hnodup, -, hmem⟩ := schedulable_spec hg
    -- A node can be scheduled if its dependencies can, which is the induction hypothesis.
    have hall : ∀ v ∈ g.ids, v ∈ g.schedulable := by
      intro v
      induction v using hwf.induction with
      | _ v ih =>
        intro hv
        exact (hmem v).mpr ⟨hv, fun u hu => ih u hu (hg.dependency_mem hu)⟩
    have hsub : g.schedulable ⊆ g.ids := fun v hv => ((hmem v).mp hv).1
    have hlen : g.schedulable.length = g.size := by
      have hle := (List.subperm_of_subset hnodup hsub).length_le
      have hge := (List.subperm_of_subset hg.nodup hall).length_le
      simp only [ids, List.length_map, size] at hle hge ⊢
      omega
    exact ⟨g.schedulable, by rw [schedule, if_pos hlen]⟩

end Graph

end QueryGraph
