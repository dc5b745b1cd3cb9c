import Mathlib.Data.Set.Finite.Lattice
import Mathlib.Order.Lattice.Nat
import QueryGraph.Proofs.Graph.Topological
import QueryGraph.Proofs.Graph.Turn

namespace QueryGraph

/-!
# The depth of a node

* `ChainTo`: a chain of dependencies of some length leads to a node.
* `depth`: the length of the longest one.
* `isGreatest_depth`: in an acyclic graph there is a longest chain to every node.
* `depth_lt_of_feeds`, `exists_depth_eq`: a node is deeper than what feeds it, by one step than
  the deepest of it.
* `Precedes`, `IsDepthOrder`: who of two nodes comes first by depth and position, and orders that
  go by it.
* `isDepthOrder_of_turns`: nodes that come when it is their turn come by depth.
* `IsDepthOrder.unique`: there is at most one such order.
* `schedule_by_depth`: the schedule is that order.
-/

variable {nodes : List Node} {edges : List Edge}

/-- A chain of live edges, as many as the number says, ends at the node. -/
inductive ChainTo (nodes : List Node) (edges : List Edge) : Nat → NodeId → Prop
  | here (id : NodeId) : ChainTo nodes edges 0 id
  | step {n : Nat} {u v : NodeId} (hchain : ChainTo nodes edges n u)
      (hfeeds : Feeds nodes edges u v) : ChainTo nodes edges (n + 1) v

/-- The length of the longest chain of live edges that ends at a node. -/
noncomputable def depth (nodes : List Node) (edges : List Edge) (id : NodeId) : Nat :=
  sSup {n | ChainTo nodes edges n id}

/-- What feeds a node is listed among its dependencies. -/
theorem finite_feeds (v : NodeId) : {u | Feeds nodes edges u v}.Finite := by
  refine ((Graph.build nodes edges).dependencies v).finite_toSet.subset fun u hu => ?_
  exact Graph.mem_build_dependencies.mpr hu

/-- Finitely many nodes feed a node, and the chains to each of them are bounded. -/
theorem bddAbove_chainTo (h : Acyclic nodes edges) (id : NodeId) :
    BddAbove {n | ChainTo nodes edges n id} := by
  induction id using (wellFounded_feeds_iff.mpr h).induction with
  | _ v ih =>
    have hbelow : BddAbove (⋃ u ∈ {u | Feeds nodes edges u v}, {n | ChainTo nodes edges n u}) :=
      (finite_feeds v).bddAbove_biUnion.mpr ih
    obtain ⟨b, hb⟩ := hbelow
    -- A chain to `v` is empty, or it is a chain to a node that feeds `v` and one step more.
    refine ⟨b + 1, ?_⟩
    rintro n (_ | ⟨hchain, hfeeds⟩)
    · exact Nat.zero_le _
    · exact Nat.succ_le_succ (hb (Set.mem_biUnion hfeeds hchain))

/-- In an acyclic graph the depth is attained: the empty chain leads to every node, and the chains
    to one are bounded in length. -/
theorem isGreatest_depth (h : Acyclic nodes edges) (id : NodeId) :
    IsGreatest {n | ChainTo nodes edges n id} (depth nodes edges id) := by
  have hbounded := bddAbove_chainTo h id
  exact ⟨Nat.sSup_mem ⟨0, .here id⟩ hbounded, fun n hn => le_csSup hbounded hn⟩

/-- An edge leads to a deeper node, as any chain to its source goes on along it. -/
theorem depth_lt_of_feeds (h : Acyclic nodes edges) {u v : NodeId} (huv : Feeds nodes edges u v) :
    depth nodes edges u < depth nodes edges v :=
  (isGreatest_depth h v).2 (ChainTo.step (isGreatest_depth h u).1 huv)

/-- The last but one node of a longest chain is as deep as the chain before it is long. -/
theorem exists_depth_eq (h : Acyclic nodes edges) {v : NodeId} (hv : depth nodes edges v ≠ 0) :
    ∃ u, Feeds nodes edges u v ∧ depth nodes edges v = depth nodes edges u + 1 := by
  obtain ⟨n, hn⟩ := Nat.exists_eq_succ_of_ne_zero hv
  have hlongest := (isGreatest_depth h v).1
  rw [hn] at hlongest
  obtain _ | ⟨hchain, hfeeds⟩ := hlongest
  have hle := (isGreatest_depth h _).2 hchain
  have hlt := depth_lt_of_feeds h hfeeds
  exact ⟨_, hfeeds, by omega⟩

/-- The nodes of depth zero are those that depend on nothing. -/
theorem depth_eq_zero_iff (h : Acyclic nodes edges) {v : NodeId} :
    depth nodes edges v = 0 ↔ (Graph.build nodes edges).dependencies v = [] := by
  rw [List.eq_nil_iff_forall_not_mem]
  constructor
  · intro hzero u hu
    have hlt := depth_lt_of_feeds h (Graph.mem_build_dependencies.mp hu)
    omega
  · intro hnone
    by_contra hv
    obtain ⟨u, hu, -⟩ := exists_depth_eq h hv
    exact hnone u (Graph.mem_build_dependencies.mpr hu)

/-! ### Depth and turns -/

section Turns

variable {order : List NodeId} {u v w : NodeId}

/-- If no dependency is deeper than the last one, the node lies one step below that. -/
theorem depth_eq_of_isLast (h : Acyclic nodes edges)
    (hlast : (Graph.build nodes edges).IsLast order u v)
    (hle : ∀ x, order.idxOf x ≤ order.idxOf u → depth nodes edges x ≤ depth nodes edges u) :
    depth nodes edges v = depth nodes edges u + 1 := by
  have hlt := depth_lt_of_feeds h (Graph.mem_build_dependencies.mp hlast.1)
  obtain ⟨x, hx, heq⟩ := exists_depth_eq h (v := v) (by omega)
  have hdeepest := hle x (hlast.2 x (Graph.mem_build_dependencies.mpr hx))
  omega

/-- A node of depth zero has no dependency, so none that comes last. -/
theorem not_isLast_of_depth (h : Acyclic nodes edges) (hv : depth nodes edges v = 0) :
    ¬ (Graph.build nodes edges).IsLast order u v := by
  intro hlast
  rw [depth_eq_zero_iff h] at hv
  exact List.ne_nil_of_mem hlast.1 hv

/-- The depth does not fall along an order of turns.  The induction is on the position of the
    second node; the last dependencies of both stand before it. -/
theorem depth_le_of_idxOf_le (h : Acyclic nodes edges) (htop : IsTopological nodes edges order)
    (hturns : order.Pairwise ((Graph.build nodes edges).Earlier order)) (hw : w ∈ order)
    (hle : order.idxOf v ≤ order.idxOf w) : depth nodes edges v ≤ depth nodes edges w := by
  induction hn : order.idxOf w using Nat.strong_induction_on generalizing v w with
  | _ n ih =>
    subst hn
    -- What a node up to `w` depends on stands before `w`, and so far the depth does not fall.
    have hbefore : ∀ u y, u ∈ (Graph.build nodes edges).dependencies y →
        order.idxOf y ≤ order.idxOf w → ∀ x, order.idxOf x ≤ order.idxOf u →
          depth nodes edges x ≤ depth nodes edges u := by
      intro u y hu hy x hx
      have hfeeds := Graph.mem_build_dependencies.mp hu
      exact ih _ ((htop.idxOf_lt hfeeds).trans_le hy) (htop.source_mem hfeeds) hx rfl
    rcases eq_or_lt_of_le hle with heq | hlt
    · obtain rfl := (List.idxOf_inj hw).mp heq.symm
      exact le_rfl
    · -- By whose turn it is: sources have depth zero, and other nodes lie one step below their
      -- last dependencies, which stand in the order that the turns say.
      cases rel_of_idxOf_lt hturns hw hlt with
      | sources hv _ _ => exact ((depth_eq_zero_iff h).mpr hv).trans_le (Nat.zero_le _)
      | source hv _ => exact ((depth_eq_zero_iff h).mpr hv).trans_le (Nat.zero_le _)
      | @later u x _ _ hu hx hux =>
        rw [depth_eq_of_isLast h hu (hbefore u v hu.1 hle),
          depth_eq_of_isLast h hx (hbefore x w hx.1 le_rfl)]
        exact Nat.succ_le_succ (hbefore x w hx.1 le_rfl u hux.le)
      | @tied u _ _ hu hx _ =>
        rw [depth_eq_of_isLast h hu (hbefore u v hu.1 hle),
          depth_eq_of_isLast h hx (hbefore u w hx.1 le_rfl)]

/-- The first node comes before the second.  Shallow nodes come before deep ones, and nodes of
    depth zero in the order of the node list.  Of two deeper nodes of one depth the one comes
    first whose last dependency comes first; and if they have that one in common, the one whose
    last edge from it comes first. -/
inductive Precedes (nodes : List Node) (edges : List Edge) (order : List NodeId) :
    NodeId → NodeId → Prop
  | shallower {v w : NodeId} (hlt : depth nodes edges v < depth nodes edges w) :
      Precedes nodes edges order v w
  | listed {v w : NodeId} (hv : depth nodes edges v = 0) (hw : depth nodes edges w = 0)
      (hlt : (nodes.map Node.id).idxOf v < (nodes.map Node.id).idxOf w) :
      Precedes nodes edges order v w
  | later {u x v w : NodeId} (hdepth : depth nodes edges v = depth nodes edges w)
      (hv : (Graph.build nodes edges).IsLast order u v)
      (hw : (Graph.build nodes edges).IsLast order x w)
      (hlt : order.idxOf u < order.idxOf x) : Precedes nodes edges order v w
  | tied {u v w : NodeId} (hdepth : depth nodes edges v = depth nodes edges w)
      (hv : (Graph.build nodes edges).IsLast order u v)
      (hw : (Graph.build nodes edges).IsLast order u w)
      (hlt : EndsBefore ((Graph.build nodes edges).dependents u) v w) :
      Precedes nodes edges order v w

/-- Every node once, each pair in the order that depth and position give it. -/
def IsDepthOrder (nodes : List Node) (edges : List Edge) (order : List NodeId) : Prop :=
  order.Perm (nodes.map Node.id).eraseDups ∧ order.Pairwise (Precedes nodes edges order)

/-- An order of turns goes by depth: a node lies one step below its last dependency, and what
    has none has depth zero. -/
theorem isDepthOrder_of_turns (h : Acyclic nodes edges) (htop : IsTopological nodes edges order)
    (hturns : order.Pairwise ((Graph.build nodes edges).Earlier order)) :
    IsDepthOrder nodes edges order := by
  -- The last dependency of a node is also its deepest one.
  have hmono : ∀ {u y}, (Graph.build nodes edges).IsLast order u y →
      ∀ x, order.idxOf x ≤ order.idxOf u → depth nodes edges x ≤ depth nodes edges u := by
    intro u y hlast x hx
    have hu := htop.source_mem (Graph.mem_build_dependencies.mp hlast.1)
    exact depth_le_of_idxOf_le h htop hturns hu hx
  have hbelow : ∀ {u y}, (Graph.build nodes edges).IsLast order u y →
      depth nodes edges y = depth nodes edges u + 1 :=
    fun hlast => depth_eq_of_isLast h hlast (hmono hlast)
  refine ⟨htop.1, hturns.imp_of_mem fun {v w} hv hw hvw => ?_⟩
  cases hvw with
  | sources hv' hw' hlt =>
    refine .listed ((depth_eq_zero_iff h).mpr hv') ((depth_eq_zero_iff h).mpr hw') ?_
    exact (Graph.idxOf_build_ids_lt_iff (htop.mem_iff.mp hv) (htop.mem_iff.mp hw)).mp hlt
  | source hv' hw' =>
    refine .shallower ?_
    rw [(depth_eq_zero_iff h).mpr hv']
    exact Nat.pos_of_ne_zero (mt (depth_eq_zero_iff h).mp hw')
  | later hu hx hux =>
    -- The last dependencies may be of one depth or not, and so the two nodes.
    rcases eq_or_lt_of_le (hmono hx _ hux.le) with heq | hlt
    · exact .later (by rw [hbelow hu, hbelow hx, heq]) hu hx hux
    · exact .shallower (by rw [hbelow hu, hbelow hx]; exact Nat.succ_lt_succ hlt)
  | tied hu hx hlt => exact .tied (by rw [hbelow hu, hbelow hx]) hu hx hlt

end Turns

/-! ### There is only one such order -/

section Unique

variable {order other : List NodeId} {u v w : NodeId}

namespace IsDepthOrder

theorem mem_iff (h : IsDepthOrder nodes edges order) : u ∈ order ↔ u ∈ nodes.map Node.id := by
  rw [h.1.mem_iff, List.mem_eraseDups]

theorem nodup (h : IsDepthOrder nodes edges order) : order.Nodup :=
  h.1.nodup_iff.mpr (Graph.nodup_eraseDups _)

/-- A node has only one last dependency, since two nodes do not share a position. -/
theorem last_unique (h : IsDepthOrder nodes edges order)
    (hu : (Graph.build nodes edges).IsLast order u v)
    (hw : (Graph.build nodes edges).IsLast order w v) : u = w := by
  have hmem : u ∈ order := by
    rw [h.1.mem_iff, ← Graph.build_ids nodes edges]
    exact (Graph.build_wellFormed nodes edges).dependency_mem hu.1
  exact (List.idxOf_inj hmem).mp (Nat.le_antisymm (hw.2 u hu.1) (hu.2 w hw.1))

/-- Of two nodes of one depth that have last dependencies, the one comes first whose last
    dependency does, or that stands last in its dependents first. -/
theorem by_last (hacyclic : Acyclic nodes edges) (h : IsDepthOrder nodes edges order)
    (hvw : Precedes nodes edges order v w) (hdepth : depth nodes edges v = depth nodes edges w)
    {x : NodeId} (hu : (Graph.build nodes edges).IsLast order u v)
    (hx : (Graph.build nodes edges).IsLast order x w) :
    order.idxOf u < order.idxOf x ∨
      u = x ∧ EndsBefore ((Graph.build nodes edges).dependents u) v w := by
  cases hvw with
  | shallower hlt => omega
  | listed hv _ _ => exact absurd hu (not_isLast_of_depth hacyclic hv)
  | later _ hu' hx' hlt =>
    obtain rfl := h.last_unique hu hu'
    obtain rfl := h.last_unique hx hx'
    exact Or.inl hlt
  | tied _ hu' hx' hlt =>
    obtain rfl := h.last_unique hu hu'
    obtain rfl := h.last_unique hx hx'
    exact Or.inr ⟨rfl, hlt⟩

/-- No two nodes come each before the other. -/
theorem asymm (hacyclic : Acyclic nodes edges) (h : IsDepthOrder nodes edges order)
    (hvw : Precedes nodes edges order v w) : ¬ Precedes nodes edges order w v := by
  intro hwv
  cases hvw with
  | shallower hlt => cases hwv <;> omega
  | listed hv hw hlt =>
    -- Depth zero leaves only the node list to go by.
    cases hwv with
    | shallower hlt' => omega
    | listed _ _ hlt' => omega
    | later _ hw' _ _ => exact not_isLast_of_depth hacyclic hw hw'
    | tied _ hw' _ _ => exact not_isLast_of_depth hacyclic hw hw'
  | later hdepth hv hw hlt =>
    -- Their last dependencies would have to come each before the other.
    rcases h.by_last hacyclic hwv hdepth.symm hw hv with hlt' | ⟨rfl, -⟩
    · omega
    · omega
  | tied hdepth hv hw hlt =>
    -- They share the last dependency, and each would have its last edge from it first.
    rcases h.by_last hacyclic hwv hdepth.symm hw hv with hlt' | ⟨-, hlt'⟩
    · omega
    · exact Nat.lt_asymm hlt hlt'

end IsDepthOrder

/-- Two orders agree on the nodes of less than some depth. -/
def AgreeBelow (nodes : List Node) (edges : List Edge) (n : Nat) (order other : List NodeId) :
    Prop :=
  ∀ u ∈ nodes.map Node.id, ∀ v ∈ nodes.map Node.id, depth nodes edges u < n →
    depth nodes edges v < n → (order.idxOf u < order.idxOf v ↔ other.idxOf u < other.idxOf v)

namespace AgreeBelow

variable {n : Nat}

/-- Dependencies are not as deep as the node, so they stand in the same order. -/
theorem dependencies_iff (hacyclic : Acyclic nodes edges) (h : AgreeBelow nodes edges n order other)
    (hv : depth nodes edges v ≤ n) (hw : depth nodes edges w ≤ n) {x : NodeId}
    (hu : u ∈ (Graph.build nodes edges).dependencies v)
    (hx : x ∈ (Graph.build nodes edges).dependencies w) :
    order.idxOf u < order.idxOf x ↔ other.idxOf u < other.idxOf x := by
  have hg := Graph.build_wellFormed nodes edges
  have hu' := depth_lt_of_feeds hacyclic (Graph.mem_build_dependencies.mp hu)
  have hx' := depth_lt_of_feeds hacyclic (Graph.mem_build_dependencies.mp hx)
  exact h u (Graph.mem_build_ids.mp (hg.dependency_mem hu)) x
    (Graph.mem_build_ids.mp (hg.dependency_mem hx)) (hu'.trans_le hv) (hx'.trans_le hw)

/-- The last dependency of a node is the same in both orders: all its dependencies lie less deep. -/
theorem isLast (hacyclic : Acyclic nodes edges) (h : AgreeBelow nodes edges n order other)
    (hv : depth nodes edges v ≤ n) (hlast : (Graph.build nodes edges).IsLast order u v) :
    (Graph.build nodes edges).IsLast other u v := by
  refine ⟨hlast.1, fun x hx => ?_⟩
  rw [← not_lt, ← h.dependencies_iff hacyclic hv hv hlast.1 hx, not_lt]
  exact hlast.2 x hx

/-- Who of two nodes comes first is said by their depths, by the node list and by their
    dependencies, so in both orders in the same way. -/
theorem precedes (hacyclic : Acyclic nodes edges) (h : AgreeBelow nodes edges n order other)
    (hv : depth nodes edges v ≤ n) (hw : depth nodes edges w ≤ n)
    (hvw : Precedes nodes edges order v w) : Precedes nodes edges other v w := by
  cases hvw with
  | shallower hlt => exact .shallower hlt
  | listed hv hw hlt => exact .listed hv hw hlt
  | later hdepth hu hx hux =>
    refine .later hdepth (h.isLast hacyclic hv hu) (h.isLast hacyclic hw hx) ?_
    exact (h.dependencies_iff hacyclic hv hw hu.1 hx.1).mp hux
  | tied hdepth hu hx hlt =>
    exact .tied hdepth (h.isLast hacyclic hv hu) (h.isLast hacyclic hw hx) hlt

/-- What comes first in the one order comes first in the other: it cannot come after. -/
theorem idxOf_lt (hacyclic : Acyclic nodes edges) (h : AgreeBelow nodes edges n order other)
    (horder : IsDepthOrder nodes edges order) (hother : IsDepthOrder nodes edges other)
    (hv : v ∈ nodes.map Node.id) (hw : w ∈ nodes.map Node.id) (hv' : depth nodes edges v ≤ n)
    (hw' : depth nodes edges w ≤ n) (hlt : order.idxOf v < order.idxOf w) :
    other.idxOf v < other.idxOf w := by
  have hvw := rel_of_idxOf_lt horder.2 (horder.mem_iff.mpr hw) hlt
  have hnot := hother.asymm hacyclic (h.precedes hacyclic hv' hw' hvw)
  -- At the same position they would be one node, and in the other order both would precede the
  -- other.
  rcases Nat.lt_trichotomy (other.idxOf v) (other.idxOf w) with hlt' | heq | hgt
  · exact hlt'
  · obtain rfl := (List.idxOf_inj (hother.mem_iff.mpr hv)).mp heq
    exact absurd hlt (lt_irrefl _)
  · exact absurd (rel_of_idxOf_lt hother.2 (hother.mem_iff.mpr hv) hgt) hnot

end AgreeBelow

/-- Two orders by depth agree: on the nodes of one depth because they do on those above. -/
theorem IsDepthOrder.agreeBelow (hacyclic : Acyclic nodes edges)
    (horder : IsDepthOrder nodes edges order) (hother : IsDepthOrder nodes edges other) (n : Nat) :
    AgreeBelow nodes edges n order other := by
  -- On what the depth bounds; each order is compared with the other in turn.
  induction n generalizing order other with
  | zero => exact fun u _ v _ hu => absurd hu (Nat.not_lt_zero _)
  | succ n ih =>
    intro u hu v hv hu' hv'
    have hle := Nat.le_of_lt_succ hu'
    have hle' := Nat.le_of_lt_succ hv'
    exact ⟨(ih horder hother).idxOf_lt hacyclic horder hother hu hv hle hle',
      (ih hother horder).idxOf_lt hacyclic hother horder hu hv hle hle'⟩

/-- There is at most one order by depth: two of them list the same nodes, and they agree below a
    depth that no two nodes exceed. -/
theorem IsDepthOrder.unique (hacyclic : Acyclic nodes edges)
    (horder : IsDepthOrder nodes edges order) (hother : IsDepthOrder nodes edges other) :
    other = order := by
  have hpairs : other.Pairwise fun u v => order.idxOf u < order.idxOf v := by
    refine (pairwise_idxOf_lt hother.nodup).imp_of_mem fun {u v} hu hv hlt => ?_
    have hagree := hother.agreeBelow hacyclic horder
      (depth nodes edges u + depth nodes edges v + 1)
    exact (hagree u (hother.mem_iff.mp hu) v (hother.mem_iff.mp hv) (by omega) (by omega)).mp hlt
  refine (hother.1.trans horder.1.symm).eq_of_pairwise ?_ hpairs (pairwise_idxOf_lt horder.nodup)
  intro u v _ _ huv hvu
  omega

end Unique

/-! ### The schedule -/

/-- **The schedule is determined by depth and position.**  In an acyclic graph every node has a
    longest chain of dependencies, whose length is its depth.  There is a schedule.  It lists
    shallow nodes before deep ones; nodes of depth zero in the order of the node list; and other
    nodes of one depth by their last dependencies, and by their last edges from it if it is the
    same one.  No other order of the nodes does so. -/
theorem schedule_by_depth (nodes : List Node) (edges : List Edge) (h : Acyclic nodes edges) :
    (∀ id, IsGreatest {n | ChainTo nodes edges n id} (depth nodes edges id)) ∧
      ∃ order, (Graph.build nodes edges).schedule = .ok order ∧ IsDepthOrder nodes edges order ∧
        ∀ other, IsDepthOrder nodes edges other → other = order := by
  refine ⟨isGreatest_depth h, ?_⟩
  -- The scheduler takes nodes when it is their turn, which is in the order of their depths.
  obtain ⟨order, horder⟩ := exists_schedule_build_iff.mpr h
  have hturns := Graph.pairwise_of_schedule (Graph.build_wellFormed nodes edges) horder
  have hdepth := isDepthOrder_of_turns h (isTopological_of_schedule horder) hturns
  exact ⟨order, horder, hdepth, fun other hother => hdepth.unique h hother⟩

/-- The root feeds one node along two edges, and another along one that stands between them. -/
def twiceFed : List Node × List Edge :=
  ([⟨⟨"twice"⟩, .unionAll⟩, ⟨⟨"root"⟩, .unionAll⟩, ⟨⟨"once"⟩, .unionAll⟩,
      ⟨⟨"side"⟩, .unionAll⟩, ⟨⟨"last"⟩, .unionAll⟩],
    [⟨none, ⟨"root"⟩, ⟨"twice"⟩, none, none⟩, ⟨none, ⟨"root"⟩, ⟨"once"⟩, none, none⟩,
      ⟨none, ⟨"root"⟩, ⟨"twice"⟩, none, none⟩, ⟨none, ⟨"side"⟩, ⟨"last"⟩, none, none⟩,
      ⟨none, ⟨"twice"⟩, ⟨"last"⟩, none, none⟩])

/-- Of the two parallel edges the second one decides when the node comes. -/
theorem schedule_by_depth_twiceFed :
    let order : List NodeId := [⟨"root"⟩, ⟨"side"⟩, ⟨"once"⟩, ⟨"twice"⟩, ⟨"last"⟩]
    Acyclic twiceFed.1 twiceFed.2 ∧ (Graph.build twiceFed.1 twiceFed.2).schedule = .ok order ∧
      IsDepthOrder twiceFed.1 twiceFed.2 order := by
  intro order
  have hacyclic : Acyclic twiceFed.1 twiceFed.2 := cycles_build_eq_nil_iff.mp (by decide)
  have hschedule : (Graph.build twiceFed.1 twiceFed.2).schedule = .ok order := by decide
  obtain ⟨-, found, hfound, hdepth, -⟩ := schedule_by_depth twiceFed.1 twiceFed.2 hacyclic
  obtain rfl := Except.ok.inj (hfound.symm.trans hschedule)
  exact ⟨hacyclic, hschedule, hdepth⟩

end QueryGraph
