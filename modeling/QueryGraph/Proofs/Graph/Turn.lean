import Mathlib.Data.Finset.Max
import QueryGraph.Proofs.Graph.Schedule

namespace QueryGraph

/-!
# When the turn of a node comes

* `EndsBefore`: the last occurrence of one node in a list stands before that of another.
* `pairwise_dedup`: without the copies that come again, a list goes by the last occurrences of
  its items.
* `Graph.IsLast`, `Graph.Earlier`: of the dependencies of a node, the one that the schedule has
  last; and who of two nodes comes first, by what has to come before them.
* `Queue.Timed`, `Queue.step_timed`, `Queue.run_timed`: the order and the ready nodes behind it
  are in the order of their turns, at the start, after one step and after all of them.
-/

/-! ### Positions -/

section Positions

variable {l : List NodeId} {v w : NodeId}

/-- A list without duplicates is in the order of its own positions. -/
theorem pairwise_idxOf_lt (h : l.Nodup) : l.Pairwise fun v w => l.idxOf v < l.idxOf w := by
  rw [List.pairwise_iff_getElem]
  intro i j hi hj hij
  rwa [h.idxOf_getElem i hi, h.idxOf_getElem j hj]

/-- What holds along a list holds from one position to each later one. -/
theorem rel_of_idxOf_lt {r : NodeId → NodeId → Prop} (h : l.Pairwise r) (hw : w ∈ l)
    (hlt : l.idxOf v < l.idxOf w) : r v w := by
  have hj := List.idxOf_lt_length_of_mem hw
  have hrel := List.pairwise_iff_getElem.mp h _ _ (Nat.lt_trans hlt hj) hj hlt
  rwa [List.getElem_idxOf, List.getElem_idxOf] at hrel

/-- Seen from the end of the list, the second node occurs before the first. -/
def EndsBefore (l : List NodeId) (v w : NodeId) : Prop := l.reverse.idxOf w < l.reverse.idxOf v

/-- More items in front do not change which of two ends first. -/
theorem EndsBefore.cons (a : NodeId) (hv : v ∈ l) (hw : w ∈ l) (h : EndsBefore l v w) :
    EndsBefore (a :: l) v w := by
  show (a :: l).reverse.idxOf w < (a :: l).reverse.idxOf v
  rw [List.reverse_cons, List.idxOf_append_of_mem (List.mem_reverse.mpr hv),
    List.idxOf_append_of_mem (List.mem_reverse.mpr hw)]
  exact h

/-- A node that does not come again ends before all that follow it. -/
theorem EndsBefore.head (hv : v ∉ l) (hw : w ∈ l) : EndsBefore (v :: l) v w := by
  show (v :: l).reverse.idxOf w < (v :: l).reverse.idxOf v
  have hlt := List.idxOf_lt_length_of_mem (List.mem_reverse.mpr hw)
  rw [List.reverse_cons, List.idxOf_append_of_mem (List.mem_reverse.mpr hw),
    List.idxOf_append_of_notMem (mt List.mem_reverse.mp hv)]
  omega

/-- Of several copies the last one is kept. -/
theorem pairwise_dedup (l : List NodeId) : l.dedup.Pairwise (EndsBefore l) := by
  induction l with
  | nil => exact List.Pairwise.nil
  | cons a rest ih =>
    have hrest : rest.dedup.Pairwise (EndsBefore (a :: rest)) :=
      ih.imp_of_mem fun hv hw h => h.cons a (List.mem_dedup.mp hv) (List.mem_dedup.mp hw)
    -- A head that comes again is dropped; one that does not ends before all others.
    by_cases ha : a ∈ rest
    · rwa [List.dedup_cons_of_mem ha]
    · rw [List.dedup_cons_of_notMem ha, List.pairwise_cons]
      exact ⟨fun w hw => .head ha (List.mem_dedup.mp hw), hrest⟩

end Positions

/-! ### Turns -/

namespace Graph

variable {g : Graph} {order : List NodeId} {u v : NodeId}

/-- The first node is a dependency of the second, and no other one comes after it. -/
def IsLast (g : Graph) (order : List NodeId) (u v : NodeId) : Prop :=
  u ∈ g.dependencies v ∧ ∀ x ∈ g.dependencies v, order.idxOf x ≤ order.idxOf u

/-- Some dependency stands furthest back, whatever the order is. -/
theorem exists_isLast (order : List NodeId) (hv : g.dependencies v ≠ []) :
    ∃ u, g.IsLast order u v := by
  have hsome := (List.toFinset_nonempty_iff _).mpr hv
  obtain ⟨u, hu, hlast⟩ := Finset.exists_max_image _ order.idxOf hsome
  exact ⟨u, List.mem_toFinset.mp hu, fun x hx => hlast x (List.mem_toFinset.mpr hx)⟩

/-- What comes later does not matter if all dependencies are there. -/
theorem IsLast.append (h : g.IsLast order u v) (hsub : g.dependencies v ⊆ order)
    (l : List NodeId) : g.IsLast (order ++ l) u v := by
  refine ⟨h.1, fun x hx => ?_⟩
  rw [List.idxOf_append_of_mem (hsub hx), List.idxOf_append_of_mem (hsub h.1)]
  exact h.2 x hx

/-- The newest node of the order is the last dependency of each of its dependents that has all
    others. -/
theorem isLast_concat (hu : u ∈ g.dependencies v) (hnew : u ∉ order)
    (hsub : g.dependencies v ⊆ order ++ [u]) : g.IsLast (order ++ [u]) u v := by
  refine ⟨hu, fun x hx => ?_⟩
  have hlt := List.idxOf_lt_length_of_mem (hsub hx)
  rw [List.length_append, List.length_singleton] at hlt
  rw [List.idxOf_append_of_notMem hnew, List.idxOf_cons_self]
  omega

/-- The first node comes before the second.  Nodes without dependencies come in the order of
    the graph and before all others.  Of those with dependencies the one comes first whose last
    dependency comes first; and if they have that one in common, the one that stands last in its
    dependents first. -/
inductive Earlier (g : Graph) (order : List NodeId) : NodeId → NodeId → Prop
  | sources {v w : NodeId} (hv : g.dependencies v = []) (hw : g.dependencies w = [])
      (hlt : g.ids.idxOf v < g.ids.idxOf w) : Earlier g order v w
  | source {v w : NodeId} (hv : g.dependencies v = []) (hw : g.dependencies w ≠ []) :
      Earlier g order v w
  | later {u x v w : NodeId} (hv : g.IsLast order u v) (hw : g.IsLast order x w)
      (hlt : order.idxOf u < order.idxOf x) : Earlier g order v w
  | tied {u v w : NodeId} (hv : g.IsLast order u v) (hw : g.IsLast order u w)
      (hlt : EndsBefore (g.dependents u) v w) : Earlier g order v w

/-- Whose turn comes first is settled once all dependencies of the two are in the order; what
    follows later does not change it. -/
theorem Earlier.append {w : NodeId} (h : g.Earlier order v w) (hv : g.dependencies v ⊆ order)
    (hw : g.dependencies w ⊆ order) (l : List NodeId) : g.Earlier (order ++ l) v w := by
  cases h with
  | sources hv hw hlt => exact .sources hv hw hlt
  | source hv hw => exact .source hv hw
  | later hlast hlast' hlt =>
    refine .later (hlast.append hv l) (hlast'.append hw l) ?_
    rwa [List.idxOf_append_of_mem (hv hlast.1), List.idxOf_append_of_mem (hw hlast'.1)]
  | tied hlast hlast' hlt => exact .tied (hlast.append hv l) (hlast'.append hw l) hlt

end Graph

namespace Queue

variable {g : Graph} {q : Queue}

/-- The order and the ready nodes behind it are in the order of their turns. -/
def Timed (g : Graph) (q : Queue) : Prop := (q.order ++ q.ready).Pairwise (g.Earlier q.order)

/-- The first nodes are ready in the order of the graph. -/
theorem start_timed (hg : g.WellFormed) : (start g).Timed g := by
  show (start g).ready.Pairwise (g.Earlier [])
  have hsub : (start g).ready.Sublist g.ids := List.filter_sublist.map _
  refine ((pairwise_idxOf_lt hg.nodup).sublist hsub).imp_of_mem fun hv hw hlt => ?_
  exact .sources ((mem_ready_start hg _).mp hv).2 ((mem_ready_start hg _).mp hw).2 hlt

/-- **One step keeps the turns.** The nodes placed before keep theirs, those that the step frees are
    in the order of their last edges from the node taken, and each of the old ones comes before each
    of the new. -/
theorem step_timed (hg : g.WellFormed) (h : q.Sound g) (ht : q.Timed g) :
    (q.step g).Timed g := by
  cases hready : q.ready with
  | nil => rwa [step, hready]
  | cons id rest =>
    have hid : id ∈ q.ready := by rw [hready]; exact List.mem_cons_self
    have hnew := h.notMem_order hid
    have horder := order_step (g := g) hready
    have hplaced := h.placed_step hg hready
    -- For a node that is freed, the node taken is the last dependency to come.
    have hlast : ∀ v ∈ freed g q id, g.IsLast (q.order ++ [id]) id v := by
      intro v hv
      have hdep := hg.mem_dependents_iff.mp (mem_freed.mp hv).1
      refine Graph.isLast_concat hdep hnew ?_
      rw [← horder]
      refine (step_sound hg h).dependencies_subset ?_
      rw [hplaced]
      exact List.mem_append_right _ hv
    rw [Timed, hplaced, horder, List.pairwise_append]
    refine ⟨?_, ?_, ?_⟩
    · -- The dependencies of those placed before are all in the order.
      exact ht.imp_of_mem fun hv hw hlt =>
        hlt.append (h.dependencies_subset hv) (h.dependencies_subset hw) [id]
    · -- The new ones have the node taken in common, which told each at its last copy.
      refine ((pairwise_dedup _).sublist List.filter_sublist).imp_of_mem fun hv hw hlt => ?_
      exact .tied (hlast _ hv) (hlast _ hw) hlt
    · -- The last dependency of an old one stands before the node taken.
      intro v hv w hw
      have hsub := h.dependencies_subset hv
      by_cases hnone : g.dependencies v = []
      · exact .source hnone (List.ne_nil_of_mem (hlast w hw).1)
      · obtain ⟨u, hu⟩ := Graph.exists_isLast q.order hnone
        refine .later (hu.append hsub [id]) (hlast w hw) ?_
        have hlt := List.idxOf_lt_length_of_mem (hsub hu.1)
        rw [List.idxOf_append_of_mem (hsub hu.1), List.idxOf_append_of_notMem hnew]
        omega

/-- All steps keep the turns, as each of them does and the invariant of the scheduler with it. -/
theorem run_timed (hg : g.WellFormed) (fuel : Nat) (h : q.Sound g) (ht : q.Timed g) :
    (run g fuel q).Timed g := by
  induction fuel generalizing q with
  | zero => exact ht
  | succ fuel ih =>
    rw [run]
    split
    · exact ht
    · exact ih (step_sound hg h) (step_timed hg h ht)

end Queue

namespace Graph

variable {g : Graph}

/-- The nodes that can be scheduled come when it is their turn. -/
theorem pairwise_schedulable (hg : g.WellFormed) :
    g.schedulable.Pairwise (g.Earlier g.schedulable) := by
  have hsound := Queue.start_sound hg
  obtain ⟨-, hready⟩ := Queue.run_sound hg g.size hsound (by simp)
  have htimed := Queue.run_timed hg g.size hsound (Queue.start_timed hg)
  rwa [Queue.Timed, hready, List.append_nil] at htimed

/-- A schedule takes the nodes when it is their turn. -/
theorem pairwise_of_schedule {order : List NodeId} (hg : g.WellFormed)
    (h : g.schedule = .ok order) : order.Pairwise (g.Earlier order) := by
  obtain ⟨rfl, -⟩ := schedulable_eq h
  exact pairwise_schedulable hg

end Graph

end QueryGraph
