import Mathlib.Algebra.Order.BigOperators.Group.List
import Mathlib.Algebra.Order.Ring.Nat
import Mathlib.Data.List.Cycle
import QueryGraph.Graph.Cycle
import QueryGraph.Proofs.Graph.Schedule

namespace QueryGraph

open scoped List

/-!
# The search finds a cycle in every graph that has one

* `Search.Sound`: the invariant of the search.  The way is a chain of dependencies, every
  recorded body is a cycle of them, and a node that was left depends, along dependencies that no
  recorded cycle runs through, on finitely many nodes only.
* `Search.step_sound`, `Search.run_sound`: one step and all steps keep the invariant; the steps
  end because each of them uses up one of a bounded number of things to do.
* `Search.search_induct_before`, `Search.search_induct`: what every step and every new root keep
  holds whenever some of the roots are done, and at the end of the search.
* `Graph.wellFounded_open`: without the dependencies that recorded cycles run through, none of
  them goes on for ever.
* `Graph.cycles_eq_nil_iff`: no cycle is recorded exactly if there is none.
-/

namespace Search

/-! ### Cycles as lists -/

/-- A recorded cycle runs directly from one node to the next. -/
def Reported (found : List (List NodeId)) (u v : NodeId) : Prop := ∃ c ∈ found, [u, v] <:+: c

/-- A dependency that no recorded cycle runs through. -/
def Open (g : Graph) (found : List (List NodeId)) (u v : NodeId) : Prop :=
  g.IsDependency u v ∧ ¬ Reported found u v

/-- What is reported stays so when more cycles are. -/
theorem Reported.mono {found more : List (List NodeId)} {u v : NodeId} (h : found ⊆ more)
    (huv : Reported found u v) : Reported more u v := by
  obtain ⟨c, hc, hinfix⟩ := huv
  exact ⟨c, h hc, hinfix⟩

/-- More recorded cycles leave fewer dependencies open. -/
theorem acc_open_mono {g : Graph} {found more : List (List NodeId)} {v : NodeId}
    (h : found ⊆ more) (hv : Acc (Open g found) v) : Acc (Open g more) v :=
  Subrelation.accessible (fun huv => ⟨huv.1, fun hr => huv.2 (hr.mono h)⟩) hv

/-- Rotation keeps the members of a cycle and what follows what. -/
theorem coe_rotate (g : Graph) (members : List NodeId) :
    (rotate g members : Cycle NodeId) = members := by
  rw [Cycle.coe_eq_coe, rotate]
  exact List.isRotated_append.trans (by rw [List.take_append_drop])

/-- A cycle of at least one node is closed by its first one. -/
theorem close_eq {id : NodeId} {rest : List NodeId} :
    close (id :: rest) = id :: (rest ++ [id]) := rfl

/-- To close a list repeats a member, and adds none. -/
theorem mem_close {body : List NodeId} {id : NodeId} : id ∈ close body ↔ id ∈ body := by
  cases body with
  | nil => rfl
  | cons first rest =>
    simp only [close_eq, List.mem_cons, List.mem_append, List.not_mem_nil, or_false]
    tauto

/-- Every step of a cycle is a step of its closed list. -/
theorem chain_close (body : List NodeId) :
    (body : Cycle NodeId).Chain fun u v => [u, v] <:+: close body := by
  cases body with
  | nil => exact Cycle.Chain.nil _
  | cons id rest =>
    rw [Cycle.chain_coe_cons, close_eq]
    exact List.isChain_isInfix _

/-- The part of the way back to a node on it: the nodes that are newer, and the node. -/
theorem back_eq {newer older : List NodeId} {closing : NodeId} (h : closing ∉ newer) :
    back (newer ++ closing :: older) closing = newer ++ [closing] := by
  have hnewer : ∀ id ∈ newer, decide (id ≠ closing) = true := by
    rintro id hid
    exact decide_eq_true fun he => h (he ▸ hid)
  rw [back, List.takeWhile_append_of_pos hnewer, List.takeWhile_cons_of_neg (by simp),
    List.append_nil]

/-! ### The invariant -/

/-- The invariant of the search. -/
structure Sound (g : Graph) (s : Search) : Prop where
  way_eq : s.way = s.frames.map Visit.node
  onWay_iff : ∀ id, id ∈ s.onWay ↔ id ∈ s.way
  nodup : s.way.Nodup
  way_visited : s.way ⊆ s.visited
  visited_ids : s.visited ⊆ g.ids
  linked : s.way.IsChain g.IsDependency
  next_le : ∀ v ∈ s.frames, v.next ≤ (g.dependencies v.node).length
  looked : ∀ v ∈ s.frames, ∀ u ∈ (g.dependencies v.node).take v.next,
    Reported s.found u v.node ∨ [u, v.node] <+ s.way ∨ (u ∈ s.visited ∧ u ∉ s.way)
  finished : ∀ id ∈ s.visited, id ∉ s.way → Acc (Open g s.found) id
  found_eq : s.found = (s.bodies.map close).reverse
  genuine : ∀ body ∈ s.bodies, body ≠ [] ∧ (body : Cycle NodeId).Chain g.IsDependency

variable {g : Graph} {s : Search}

/-- The invariant holds before the search, which has seen nothing. -/
theorem start_sound (g : Graph) : start.Sound g := by
  constructor <;> simp [start]

/-- The newest frame is that of the newest node on the way. -/
theorem Sound.way_cons {v : Visit} {rest : List Visit} (h : s.Sound g)
    (hframes : s.frames = v :: rest) : s.way = v.node :: rest.map Visit.node := by
  rw [h.way_eq, hframes, List.map_cons]

/-- Entering a new node that the newest one depends on. -/
theorem Sound.enter {u : NodeId} (h : s.Sound g) (hu : u ∈ g.ids) (hnew : u ∉ s.visited)
    (hlink : ∀ v ∈ s.way.head?, g.IsDependency u v) : (s.enter u).Sound g where
  way_eq := by simp [Search.enter, h.way_eq]
  onWay_iff := by
    intro id
    simp [Search.enter, h.onWay_iff]
  nodup := List.nodup_cons.mpr ⟨fun hm => hnew (h.way_visited hm), h.nodup⟩
  way_visited := List.cons_subset_cons u h.way_visited
  visited_ids := List.cons_subset.mpr ⟨hu, h.visited_ids⟩
  linked := List.isChain_cons.mpr ⟨hlink, h.linked⟩
  next_le := by
    intro v hv
    rcases List.mem_cons.mp hv with rfl | hv
    · exact Nat.zero_le _
    · exact h.next_le v hv
  looked := by
    intro v hv w hw
    rcases List.mem_cons.mp hv with rfl | hv
    · simp at hw
    · -- What was looked at before is older on the way, or it was left and is not the new node.
      rcases h.looked v hv w hw with hr | hs | ⟨hw, hway⟩
      · exact Or.inl hr
      · exact Or.inr (Or.inl (hs.cons u))
      · refine Or.inr (Or.inr ⟨List.mem_cons_of_mem u hw, fun hm => ?_⟩)
        rcases List.mem_cons.mp hm with rfl | hm
        · exact hnew hw
        · exact hway hm
  finished := by
    intro id hid hway
    have hne : id ≠ u := fun he => hway (he ▸ List.mem_cons_self)
    exact h.finished id (List.mem_of_ne_of_mem hne hid) fun hm => hway (List.mem_cons_of_mem u hm)
  found_eq := h.found_eq
  genuine := h.genuine

/-- A search that has come to its end goes on from a new root. -/
theorem Sound.enter_root {root : NodeId} (h : s.Sound g) (hroot : root ∈ g.ids)
    (hnew : root ∉ s.visited) (hframes : s.frames = []) : (s.enter root).Sound g := by
  have hway : s.way = [] := by rw [h.way_eq, hframes, List.map_nil]
  exact h.enter hroot hnew (by simp [hway])

/-- Leaving the newest node once all of its dependencies were looked at: each of them that is
    open was left before. -/
theorem Sound.leave {v : Visit} {rest : List Visit} (h : s.Sound g) (hframes : s.frames = v :: rest)
    (hdone : (g.dependencies v.node)[v.next]? = none) : (s.leave v.node).Sound g := by
  have hway := h.way_cons hframes
  obtain ⟨hv, hrest⟩ := List.nodup_cons.mp (hway ▸ h.nodup)
  have htake : (g.dependencies v.node).take v.next = g.dependencies v.node :=
    List.take_of_length_le (List.getElem?_eq_none_iff.mp hdone)
  -- Now that the node has nothing left to look at, it goes over to the finished ones.
  have hacc : Acc (Open g s.found) v.node := by
    refine Acc.intro _ fun u hu => ?_
    rcases h.looked v (by simp [hframes]) u (htake.symm ▸ hu.1) with hr | hs | ⟨hu', hnot⟩
    · exact absurd hr hu.2
    · -- Nothing is newer than the newest node.
      rw [hway, List.cons_sublist_cons'] at hs
      rcases hs with hs | ⟨-, hs⟩
      · exact absurd (hs.subset (by simp)) hv
      · exact absurd (hs.subset (by simp)) hv
    · exact h.finished u hu' hnot
  refine ⟨?_, fun id => ?_, ?_, ?_, h.visited_ids, ?_, ?_, ?_, ?_, h.found_eq, h.genuine⟩
  · -- The remaining goals go field by field: the first frame goes with the first node of the way.
    show s.way.drop 1 = (s.frames.drop 1).map Visit.node
    rw [hway, hframes]
    rfl
  · show id ∈ s.onWay.filter (· ≠ v.node) ↔ id ∈ s.way.drop 1
    rw [List.mem_filter, decide_eq_true_eq, h.onWay_iff, hway, List.drop_one, List.tail_cons,
      List.mem_cons]
    constructor
    · rintro ⟨rfl | hid, hne⟩
      · exact absurd rfl hne
      · exact hid
    · intro hid
      exact ⟨Or.inr hid, fun he => hv (he ▸ hid)⟩
  · show (s.way.drop 1).Nodup
    rw [hway]
    exact hrest
  · intro id hid
    exact h.way_visited (List.mem_of_mem_drop hid)
  · exact h.linked.drop 1
  · intro w hw
    exact h.next_le w (List.mem_of_mem_drop hw)
  · intro w hw u hu
    have hne : w.node ≠ v.node := by
      intro he
      simp only [Search.leave, hframes, List.drop_one, List.tail_cons] at hw
      exact hv (he ▸ List.mem_map_of_mem hw)
    show Reported s.found u w.node ∨ [u, w.node] <+ s.way.drop 1 ∨
      (u ∈ s.visited ∧ u ∉ s.way.drop 1)
    rw [hway, List.drop_one, List.tail_cons]
    -- A dependency that was the newest node is no longer on the way, but it was visited.
    rcases h.looked w (List.mem_of_mem_drop hw) u hu with hr | hs | ⟨hu', hnot⟩
    · exact Or.inl hr
    · rw [hway, List.cons_sublist_cons'] at hs
      rcases hs with hs | ⟨rfl, -⟩
      · exact Or.inr (Or.inl hs)
      · exact Or.inr (Or.inr ⟨h.way_visited (by simp [hway]), hv⟩)
    · rw [hway, List.mem_cons, not_or] at hnot
      exact Or.inr (Or.inr ⟨hu', hnot.2⟩)
  · intro id hid hnot
    show Acc (Open g s.found) id
    have hnot' : id ∉ rest.map Visit.node := by
      intro hmem
      apply hnot
      show id ∈ s.way.drop 1
      rwa [hway]
    by_cases hidv : id = v.node
    · exact hidv ▸ hacc
    · exact h.finished id hid (by rw [hway, List.mem_cons, not_or]; exact ⟨hidv, hnot'⟩)

/-- Marking the next dependency of a frame as looked at. -/
theorem Sound.look {v : Visit} {newer older : List Visit} {u : NodeId} (h : s.Sound g)
    (hframes : s.frames = newer ++ v :: older) (hu : (g.dependencies v.node)[v.next]? = some u)
    (hlooked : Reported s.found u v.node ∨ [u, v.node] <+ s.way ∨ (u ∈ s.visited ∧ u ∉ s.way)) :
    Sound g { s with frames := newer ++ ⟨v.node, v.next + 1⟩ :: older } where
  way_eq := by simp [h.way_eq, hframes]
  onWay_iff := h.onWay_iff
  nodup := h.nodup
  way_visited := h.way_visited
  visited_ids := h.visited_ids
  linked := h.linked
  next_le := by
    intro w hw
    simp only [List.mem_append, List.mem_cons] at hw
    rcases hw with hw | rfl | hw
    · exact h.next_le w (by simp [hframes, hw])
    · exact (List.getElem?_eq_some_iff.mp hu).1
    · exact h.next_le w (by simp [hframes, hw])
  looked := by
    intro w hw x hx
    simp only [List.mem_append, List.mem_cons] at hw
    rcases hw with hw | rfl | hw
    · exact h.looked w (by simp [hframes, hw]) x hx
    · -- One dependency more of this frame counts as looked at, the one at its position.
      rw [List.take_add_one, hu, List.mem_append] at hx
      rcases hx with hx | hx
      · exact h.looked v (by simp [hframes]) x hx
      · obtain rfl : x = u := by simpa using hx
        exact hlooked
    · exact h.looked w (by simp [hframes, hw]) x hx
  finished := h.finished
  found_eq := h.found_eq
  genuine := h.genuine

/-! ### Recording a cycle -/

/-- What it means to be related all around a list with known ends. -/
theorem chain_coe_iff {r : NodeId → NodeId → Prop} {l : List NodeId} {first last : NodeId}
    (hfirst : l.head? = some first) (hlast : l.getLast? = some last) :
    (l : Cycle NodeId).Chain r ↔ r last first ∧ l.IsChain r := by
  cases l with
  | nil => simp at hfirst
  | cons a rest =>
    -- A cycle is a chain from its last member on: `last → first → … → last`.
    obtain rfl : a = first := by simpa using hfirst
    have hne : a :: rest ≠ [] := List.cons_ne_nil a rest
    obtain rfl : (a :: rest).getLast hne = last := by
      simpa [List.getLast?_eq_some_getLast hne] using hlast
    rw [Cycle.chain_ne_nil r hne, List.isChain_cons_cons]

/-- The way back to a node runs from the newest node to it. -/
theorem back_spec {way : List NodeId} {closing : NodeId} (h : closing ∈ way) :
    back way closing <+: way ∧ (back way closing).head? = way.head? ∧
      (back way closing).getLast? = some closing := by
  obtain ⟨newer, older, rfl, hnot⟩ := List.eq_append_cons_of_mem h
  rw [back_eq hnot]
  refine ⟨⟨older, by simp⟩, ?_, by simp⟩
  cases newer <;> simp

/-- A dependency on the way closes a cycle of dependencies. -/
theorem Sound.chain_back {v closing : NodeId} (h : s.Sound g) (hv : s.way.head? = some v)
    (hclosing : closing ∈ s.way) (hdep : g.IsDependency closing v) :
    (back s.way closing : Cycle NodeId).Chain g.IsDependency := by
  obtain ⟨hpre, hhead, hlast⟩ := back_spec hclosing
  rw [chain_coe_iff (hhead.trans hv) hlast]
  exact ⟨hdep, h.linked.prefix hpre⟩

/-- To record a cycle changes nothing if there is none to record or it is known, and otherwise
    adds its body and its closed list. -/
theorem record_cases (g : Graph) (closing : NodeId) (s : Search) :
    (s.record g closing = s ∧
      (closing ∈ s.way → rotate g (back s.way closing) ∈ s.bodies)) ∨
    (closing ∈ s.way ∧
      s.record g closing =
        { s with
          bodies := rotate g (back s.way closing) :: s.bodies
          found := s.found ++ [close (rotate g (back s.way closing))] }) := by
  unfold record
  by_cases hclosing : closing ∈ s.way
  · rw [if_pos hclosing]
    -- The body is compared in its canonical rotation, so a known cycle is not recorded again.
    by_cases hknown : rotate g (back s.way closing) ∈ s.bodies
    · exact Or.inl ⟨if_pos hknown, fun _ => hknown⟩
    · exact Or.inr ⟨hclosing, if_neg hknown⟩
  · rw [if_neg hclosing]
    exact Or.inl ⟨rfl, fun hmem => absurd hmem hclosing⟩

theorem frames_record (g : Graph) (closing : NodeId) (s : Search) :
    (s.record g closing).frames = s.frames := by
  rcases record_cases g closing s with ⟨heq, -⟩ | ⟨-, heq⟩ <;> rw [heq]

theorem visited_record (g : Graph) (closing : NodeId) (s : Search) :
    (s.record g closing).visited = s.visited := by
  rcases record_cases g closing s with ⟨heq, -⟩ | ⟨-, heq⟩ <;> rw [heq]

theorem way_record (g : Graph) (closing : NodeId) (s : Search) :
    (s.record g closing).way = s.way := by
  rcases record_cases g closing s with ⟨heq, -⟩ | ⟨-, heq⟩ <;> rw [heq]

/-- To record a cycle forgets none of the others. -/
theorem found_subset_record (g : Graph) (closing : NodeId) (s : Search) :
    s.found ⊆ (s.record g closing).found := by
  rcases record_cases g closing s with ⟨heq, -⟩ | ⟨-, heq⟩
  · rw [heq]
    exact List.Subset.refl _
  · rw [heq]
    exact List.subset_append_left _ _

/-- After a record, the cycle along the way is among the bodies, new or known. -/
theorem back_mem_bodies_record (g : Graph) {closing : NodeId} (hclosing : closing ∈ s.way) :
    rotate g (back s.way closing) ∈ (s.record g closing).bodies := by
  rcases record_cases g closing s with ⟨heq, hknown⟩ | ⟨-, heq⟩
  · rw [heq]
    exact hknown hclosing
  · rw [heq]
    exact List.mem_cons_self

/-- The cycle along the way is then also among the closed lists. -/
theorem Sound.close_mem_record {closing : NodeId} (h : s.Sound g) (hclosing : closing ∈ s.way) :
    close (rotate g (back s.way closing)) ∈ (s.record g closing).found := by
  rcases record_cases g closing s with ⟨heq, hknown⟩ | ⟨-, heq⟩
  · rw [heq, h.found_eq, List.mem_reverse]
    exact List.mem_map_of_mem (hknown hclosing)
  · rw [heq]
    exact List.mem_append_right _ (List.mem_singleton_self _)

/-- A dependency on the way is reported once it is recorded. -/
theorem Sound.reported_record {v closing : NodeId} (h : s.Sound g) (hv : s.way.head? = some v)
    (hclosing : closing ∈ s.way) : Reported (s.record g closing).found closing v := by
  refine ⟨_, h.close_mem_record hclosing, ?_⟩
  obtain ⟨-, hhead, hlast⟩ := back_spec hclosing
  have hchain := chain_close (rotate g (back s.way closing))
  rw [coe_rotate, chain_coe_iff (hhead.trans hv) hlast] at hchain
  exact hchain.1

/-- The body that is recorded is a cycle of dependencies, and not the empty one. -/
theorem Sound.genuine_back {v closing : NodeId} (h : s.Sound g) (hv : s.way.head? = some v)
    (hclosing : closing ∈ s.way) (hdep : g.IsDependency closing v) :
    rotate g (back s.way closing) ≠ [] ∧
      (rotate g (back s.way closing) : Cycle NodeId).Chain g.IsDependency := by
  have hcoe := coe_rotate g (back s.way closing)
  refine ⟨fun hnil => ?_, by rw [hcoe]; exact h.chain_back hv hclosing hdep⟩
  -- A rotation is empty only if the list is, and this one ends with the closing node.
  have hlast := (back_spec hclosing).2.2
  rw [hnil, eq_comm, Cycle.coe_nil, Cycle.coe_eq_nil] at hcoe
  simp [hcoe] at hlast

/-- To record a cycle keeps the invariant: there is more that is reported, and so less that is
    open. -/
theorem Sound.record {v closing : NodeId} (h : s.Sound g) (hv : s.way.head? = some v)
    (hdep : g.IsDependency closing v) : (s.record g closing).Sound g := by
  have hfound := found_subset_record g closing s
  rcases record_cases g closing s with ⟨heq, -⟩ | ⟨hclosing, heq⟩
  · rw [heq]
    exact h
  · rw [heq] at hfound ⊢
    -- Only what speaks of the recorded cycles has to be shown again.
    refine { h with looked := ?_, finished := ?_, found_eq := ?_, genuine := ?_ }
    · intro w hw u hu
      rcases h.looked w hw u hu with hr | hrest
      · exact Or.inl (hr.mono hfound)
      · exact Or.inr hrest
    · intro id hid hway
      exact acc_open_mono hfound (h.finished id hid hway)
    · simp [h.found_eq]
    · intro body hbody
      rcases List.mem_cons.mp hbody with rfl | hbody
      · exact h.genuine_back hv hclosing hdep
      · exact h.genuine body hbody

/-! ### Steps -/

/-- What one step of the search can do. -/
theorem step_cases {v : Visit} {rest : List Visit} (hframes : s.frames = v :: rest) :
    ((g.dependencies v.node)[v.next]? = none ∧ s.step g = s.leave v.node) ∨
    ∃ u, (g.dependencies v.node)[v.next]? = some u ∧
      ((u ∈ s.onWay ∧
          s.step g = { s.record g u with frames := ⟨v.node, v.next + 1⟩ :: rest }) ∨
        (u ∉ s.onWay ∧ u ∈ s.visited ∧
          s.step g = { s with frames := ⟨v.node, v.next + 1⟩ :: rest }) ∨
        (u ∉ s.onWay ∧ u ∉ s.visited ∧
          s.step g = { s.enter u with frames := ⟨u, 0⟩ :: ⟨v.node, v.next + 1⟩ :: rest })) := by
  unfold step
  rw [hframes]
  dsimp only
  cases hdep : (g.dependencies v.node)[v.next]? with
  | none => exact Or.inl ⟨rfl, rfl⟩
  | some u =>
    refine Or.inr ⟨u, rfl, ?_⟩
    -- The next dependency is on the way, or it was left, or it is new.
    by_cases hon : u ∈ s.onWay
    · refine Or.inl ⟨hon, ?_⟩
      simp only [if_pos hon, Search.record]
      split
      · split <;> rfl
      · rfl
    · by_cases hvis : u ∈ s.visited
      · exact Or.inr (Or.inl ⟨hon, hvis, by simp only [if_neg hon, if_pos hvis]⟩)
      · exact Or.inr (Or.inr ⟨hon, hvis, by simp only [if_neg hon, if_neg hvis, Search.enter]⟩)

/-- **One step of the search keeps the invariant.** It leaves the newest node, or it looks at the
    next dependency of it: one on the way closes a cycle, which is recorded; one that was visited
    before is passed over; a new one is entered. -/
theorem step_sound (hg : g.WellFormed) (h : s.Sound g) : (s.step g).Sound g := by
  cases hframes : s.frames with
  | nil => simpa [step, hframes] using h
  | cons v rest =>
    have hhead : s.way.head? = some v.node := by rw [h.way_cons hframes, List.head?_cons]
    rcases step_cases (g := g) hframes with ⟨hdone, heq⟩ | ⟨u, hu, hcase⟩
    · rw [heq]
      exact h.leave hframes hdone
    · have hdep : g.IsDependency u v.node := List.mem_of_getElem? hu
      rcases hcase with ⟨hon, heq⟩ | ⟨hon, hvis, heq⟩ | ⟨-, hnew, heq⟩
      · -- On the way: with the cycle recorded, the dependency is reported.
        have hrecord := h.record hhead hdep
        have hframes' : (s.record g u).frames = [] ++ v :: rest := by
          rw [frames_record, hframes, List.nil_append]
        rw [heq]
        exact hrecord.look hframes' hu (Or.inl (h.reported_record hhead ((h.onWay_iff u).mp hon)))
      · -- Visited and not on the way: it was left before.
        have hframes' : s.frames = [] ++ v :: rest := by rw [hframes, List.nil_append]
        rw [heq]
        refine h.look hframes' hu (Or.inr (Or.inr ⟨hvis, ?_⟩))
        rwa [h.onWay_iff] at hon
      · -- New: the way grows by it, and from there the dependency points back.
        have henter := h.enter (hg.dependency_mem hdep) hnew fun w hw => by
          obtain rfl : v.node = w := by simpa [hhead] using hw
          exact hdep
        have hframes' : (s.enter u).frames = [⟨u, 0⟩] ++ v :: rest := by
          simp [Search.enter, hframes]
        rw [heq]
        refine henter.look hframes' hu (Or.inr (Or.inl ?_))
        -- The node entered is the newest on the way, and the one it was seen from comes next.
        show [u, v.node] <+ u :: s.way
        rw [List.cons_sublist_cons, List.singleton_sublist]
        exact List.mem_of_mem_head? (by simp [hhead])

/-! ### The end of the search -/

/-- How much there is left to do: the dependencies that frames have to look at, and to leave
    them; and the same for every node that was not visited. -/
def remaining (g : Graph) (s : Search) : Nat :=
  (s.frames.map fun v => (g.dependencies v.node).length + 1 - v.next).sum +
    ((g.ids.filter (· ∉ s.visited)).map fun id => (g.dependencies id).length + 1).sum

/-- A node that is visited counts no longer among the others. -/
theorem sum_not_mem_cons {l visited : List NodeId} {u : NodeId} (f : NodeId → Nat)
    (hnodup : l.Nodup) (hu : u ∈ l) (hnew : u ∉ visited) :
    ((l.filter (· ∉ visited)).map f).sum = f u + ((l.filter (· ∉ u :: visited)).map f).sum := by
  induction l with
  | nil => simp at hu
  | cons a rest ih =>
    obtain ⟨ha, hrest⟩ := List.nodup_cons.mp hnodup
    by_cases hau : a = u
    · subst hau
      -- The node does not come again, so nothing else in the list is affected.
      have hsame : rest.filter (· ∉ a :: visited) = rest.filter (· ∉ visited) := by
        apply List.filter_congr
        intro x hx
        have hne : x ≠ a := fun he => ha (he ▸ hx)
        simp [hne]
      rw [List.filter_cons_of_pos (by simpa using hnew), List.filter_cons_of_neg (by simp), hsame,
        List.map_cons, List.sum_cons]
    · have ih' := ih hrest (List.mem_of_ne_of_mem (Ne.symm hau) hu)
      simp only [List.filter_cons, List.mem_cons, hau, false_or]
      split
      · simp only [List.map_cons, List.sum_cons]
        rw [ih']
        simp only [List.mem_cons]
        omega
      · simpa using ih'

/-- Every step uses up one thing to do. -/
theorem remaining_step (hg : g.WellFormed) (h : s.Sound g) (hframes : s.frames ≠ []) :
    remaining g (s.step g) + 1 = remaining g s := by
  obtain ⟨v, rest, hframes⟩ := List.exists_cons_of_ne_nil hframes
  have hle := h.next_le v (by simp [hframes])
  rcases step_cases (g := g) hframes with ⟨hdone, heq⟩ | ⟨u, hu, hcase⟩
  · -- The frame was at its end, with nothing to do but to be left.
    have hlen := List.getElem?_eq_none_iff.mp hdone
    rw [heq]
    simp only [remaining, Search.leave, hframes, List.drop_one, List.tail_cons, List.map_cons,
      List.sum_cons]
    omega
  · have hlt := (List.getElem?_eq_some_iff.mp hu).1
    rcases hcase with ⟨-, heq⟩ | ⟨-, -, heq⟩ | ⟨-, hnew, heq⟩
    · rw [heq]
      simp only [remaining, visited_record, hframes, List.map_cons, List.sum_cons]
      omega
    · rw [heq]
      simp only [remaining, hframes, List.map_cons, List.sum_cons]
      omega
    · -- The node entered moves from the nodes not visited to the frames, with all there is to do
      -- for it.
      have hsum := sum_not_mem_cons (fun id => (g.dependencies id).length + 1) hg.nodup
        (hg.dependency_mem (List.mem_of_getElem? hu)) hnew
      rw [heq]
      simp only [remaining, Search.enter, hframes, List.map_cons, List.sum_cons]
      rw [hsum]
      omega

/-- No step forgets that a node was visited. -/
theorem visited_subset_step (g : Graph) (s : Search) : s.visited ⊆ (s.step g).visited := by
  cases hframes : s.frames with
  | nil => simp [step, hframes]
  | cons v rest =>
    rcases step_cases (g := g) hframes with ⟨-, heq⟩ | ⟨u, -, ⟨-, heq⟩ | ⟨-, -, heq⟩ | ⟨-, -, heq⟩⟩
    · rw [heq]
      exact List.Subset.refl _
    · rw [heq]
      exact (visited_record g u s).symm ▸ List.Subset.refl _
    · rw [heq]
      exact List.Subset.refl _
    · rw [heq]
      exact List.subset_cons_self u s.visited

/-- With a step for everything that is left to do, the search runs until no frame is left. -/
theorem run_sound (hg : g.WellFormed) (fuel : Nat) (h : s.Sound g) (hfuel : remaining g s ≤ fuel) :
    (run g fuel s).Sound g ∧ (run g fuel s).frames = [] ∧ s.visited ⊆ (run g fuel s).visited := by
  induction fuel generalizing s with
  | zero =>
    -- Nothing is left to do, and a frame would be something.
    refine ⟨h, ?_, List.Subset.refl _⟩
    by_contra hne
    have hstep := remaining_step hg h hne
    omega
  | succ fuel ih =>
    rw [run]
    cases hframes : s.frames with
    | nil => exact ⟨h, hframes, List.Subset.refl _⟩
    | cons v rest =>
      have hstep := remaining_step hg h (by simp [hframes])
      obtain ⟨hsound, hend, hsub⟩ := ih (step_sound hg h) (by omega)
      exact ⟨hsound, hend, fun id hid => hsub (visited_subset_step g s hid)⟩

/-- Between two roots, what is left to do fits in the number of steps that the search allows for. -/
theorem remaining_le_bound (hg : g.WellFormed) (hframes : s.frames = []) :
    remaining g s ≤ bound g := by
  have hbound : bound g = (g.ids.map fun id => (g.dependencies id).length + 1).sum := by
    -- The bound is a sum over the entries of the graph, and what is left one over its nodes.
    have hentries : ∀ l : List (NodeId × Neighbours), l ⊆ g.entries →
        l.foldr (fun e n => e.2.dependencies.length + 1 + n) 0
          = ((l.map Prod.fst).map fun id => (g.dependencies id).length + 1).sum := by
      intro l
      induction l with
      | nil => simp
      | cons e rest ih =>
        intro hsub
        obtain ⟨he, hrest⟩ := List.cons_subset.mp hsub
        have hlen : (g.dependencies e.1).length = e.2.dependencies.length := by
          rw [Graph.dependencies, hg.neighbours_of_mem (v := e.1) (n := e.2) he]
        rw [List.foldr_cons, ih hrest, List.map_cons, List.map_cons, List.sum_cons, hlen]
    exact hentries g.entries (List.Subset.refl _)
  rw [remaining, hframes, hbound, List.map_nil, List.sum_nil, Nat.zero_add]
  exact (List.filter_sublist.map _).sum_le_sum fun _ _ => Nat.zero_le _

/-- The frame of a new root stands for what the root stood for before it was visited. -/
theorem remaining_enter_root (hg : g.WellFormed) {root : NodeId} (hroot : root ∈ g.ids)
    (hnew : root ∉ s.visited) (hframes : s.frames = []) :
    remaining g (s.enter root) ≤ bound g := by
  have hle := remaining_le_bound hg hframes
  have hsum := sum_not_mem_cons (fun id => (g.dependencies id).length + 1) hg.nodup hroot hnew
  simp only [remaining, hframes, List.map_nil, List.sum_nil] at hle
  simp only [remaining, Search.enter, hframes, List.map_cons, List.map_nil, List.sum_cons,
    List.sum_nil]
  omega

/-- A search from a root keeps the invariant, ends with no frame and visits the root. -/
theorem explore_sound (hg : g.WellFormed) {root : NodeId} (hroot : root ∈ g.ids) (h : s.Sound g)
    (hframes : s.frames = []) :
    (explore g s root).Sound g ∧ (explore g s root).frames = [] ∧
      root :: s.visited ⊆ (explore g s root).visited := by
  unfold explore
  by_cases hvis : root ∈ s.visited
  · rw [if_pos hvis]
    exact ⟨h, hframes, List.cons_subset.mpr ⟨hvis, List.Subset.refl _⟩⟩
  · rw [if_neg hvis]
    exact run_sound hg _ (h.enter_root hroot hvis hframes)
      (remaining_enter_root hg hroot hvis hframes)

/-- The searches from several roots, one after the other, keep the invariant and visit all of
    them. -/
theorem foldl_explore_sound (hg : g.WellFormed) {roots : List NodeId} (hroots : roots ⊆ g.ids)
    (h : s.Sound g) (hframes : s.frames = []) :
    (roots.foldl (explore g) s).Sound g ∧ (roots.foldl (explore g) s).frames = [] ∧
      roots ++ s.visited ⊆ (roots.foldl (explore g) s).visited := by
  induction roots generalizing s with
  | nil => exact ⟨h, hframes, List.Subset.refl _⟩
  | cons root rest ih =>
    obtain ⟨hroot, hrest⟩ := List.cons_subset.mp hroots
    obtain ⟨hsound, hend, hsub⟩ := explore_sound hg hroot h hframes
    obtain ⟨hsound', hend', hsub'⟩ := ih hrest hsound hend
    refine ⟨hsound', hend', fun id hid => hsub' ?_⟩
    -- The first search visits its root, and no later one forgets it.
    have hmem : id ∈ rest ∨ id ∈ root :: s.visited := by
      simp only [List.cons_append, List.mem_cons, List.mem_append] at hid ⊢
      tauto
    exact List.mem_append.mpr (hmem.imp_right fun hm => hsub hm)

/-- What every step keeps along the states of the search, a run keeps. -/
theorem run_induct {P : Search → Prop} (hg : g.WellFormed)
    (hstep : ∀ {s : Search}, s.Sound g → P s → P (s.step g)) (fuel : Nat) (hsound : s.Sound g)
    (h : P s) : P (run g fuel s) := by
  induction fuel generalizing s with
  | zero => exact h
  | succ fuel ih =>
    unfold run
    split
    · exact h
    · exact ih (step_sound hg hsound) (hstep hsound h)

/-- What holds before the search, and is kept by every step and by going on from the next root,
    holds whenever some of the roots are done. -/
theorem search_induct_before {P : Search → Prop} (hg : g.WellFormed) (hstart : P start)
    (henter : ∀ {s : Search} {before : List NodeId} {root : NodeId} {after : List NodeId},
      g.ids = before ++ root :: after → s.Sound g → s.frames = [] → before ⊆ s.visited →
      root ∉ s.visited → P s → P (s.enter root))
    (hstep : ∀ {s : Search}, s.Sound g → P s → P (s.step g)) {before after : List NodeId}
    (hids : g.ids = before ++ after) : P (before.foldl (explore g) start) := by
  induction before using List.reverseRecOn generalizing after with
  | nil => exact hstart
  | append_singleton before root ih =>
    rw [List.append_assoc, List.singleton_append] at hids
    have hsub : before ⊆ g.ids := hids ▸ List.subset_append_left _ _
    obtain ⟨hsound, hframes, hvisited⟩ := foldl_explore_sound hg hsub (start_sound g) rfl
    have hbefore := (List.append_subset.mp hvisited).1
    have h := ih hids
    rw [List.foldl_append, List.foldl_cons, List.foldl_nil]
    unfold explore
    -- A root that was visited from an earlier one starts no search.
    split
    · exact h
    next hnew =>
      have hentered := henter hids hsound hframes hbefore hnew h
      exact run_induct hg hstep _
        (hsound.enter_root (hids ▸ by simp) hnew hframes) hentered

/-- So it holds at the end of the search. -/
theorem search_induct {P : Search → Prop} (hg : g.WellFormed) (hstart : P start)
    (henter : ∀ {s : Search} {before : List NodeId} {root : NodeId} {after : List NodeId},
      g.ids = before ++ root :: after → s.Sound g → s.frames = [] → before ⊆ s.visited →
      root ∉ s.visited → P s → P (s.enter root))
    (hstep : ∀ {s : Search}, s.Sound g → P s → P (s.step g)) :
    P (g.ids.foldl (explore g) start) :=
  search_induct_before hg hstart henter hstep (List.append_nil g.ids).symm

end Search

/-! ### The cycles of a graph -/

namespace Graph

variable {g : Graph}

/-- Without the dependencies that recorded cycles run through, no chain of dependencies goes on
    for ever. -/
theorem wellFounded_open (hg : g.WellFormed) : WellFounded (Search.Open g g.cycles) := by
  obtain ⟨hsound, hframes, hvisited⟩ :=
    Search.foldl_explore_sound hg (List.Subset.refl g.ids) (Search.start_sound g) rfl
  refine ⟨fun v => ?_⟩
  by_cases hv : v ∈ g.ids
  · refine hsound.finished v (hvisited (List.mem_append_left _ hv)) ?_
    rw [hsound.way_eq, hframes]
    simp
  · exact Acc.intro v fun u hu => absurd (mem_ids_of_mem_dependencies hu.1) hv

/-- A recorded cycle is the closed list of a cycle of dependencies. -/
theorem exists_body_of_mem_cycles (hg : g.WellFormed) {c : List NodeId} (hc : c ∈ g.cycles) :
    ∃ body, body ≠ [] ∧ c = Search.close body ∧ (body : Cycle NodeId).Chain g.IsDependency := by
  obtain ⟨hsound, -, -⟩ :=
    Search.foldl_explore_sound hg (List.Subset.refl g.ids) (Search.start_sound g) rfl
  rw [cycles, hsound.found_eq, List.mem_reverse, List.mem_map] at hc
  obtain ⟨body, hbody, rfl⟩ := hc
  obtain ⟨hne, hchain⟩ := hsound.genuine body hbody
  exact ⟨body, hne, rfl, hchain⟩

/-- Any two members of a recorded cycle lead to each other. -/
theorem transGen_of_mem_cycles (hg : g.WellFormed) {c : List NodeId} (hc : c ∈ g.cycles)
    {u v : NodeId} (hu : u ∈ c) (hv : v ∈ c) : Relation.TransGen g.IsDependency u v := by
  obtain ⟨body, -, rfl, hchain⟩ := exists_body_of_mem_cycles hg hc
  have hall := Cycle.chain_iff_pairwise.mp (hchain.imp fun _ _ => Relation.TransGen.single)
  exact hall u (Search.mem_close.mp hu) v (Search.mem_close.mp hv)

/-- No reported cycle is empty. -/
theorem ne_nil_of_mem_cycles (hg : g.WellFormed) {c : List NodeId} (hc : c ∈ g.cycles) :
    c ≠ [] := by
  obtain ⟨body, hne, rfl, -⟩ := exists_body_of_mem_cycles hg hc
  obtain ⟨id, rest, rfl⟩ := List.exists_cons_of_ne_nil hne
  exact List.cons_ne_nil _ _

/-- A recorded cycle leads from a node back to itself. -/
theorem exists_transGen_of_mem_cycles (hg : g.WellFormed) {c : List NodeId} (hc : c ∈ g.cycles) :
    ∃ id, Relation.TransGen g.IsDependency id id := by
  obtain ⟨id, hid⟩ := List.exists_mem_of_ne_nil c (ne_nil_of_mem_cycles hg hc)
  exact ⟨id, transGen_of_mem_cycles hg hc hid hid⟩

/-- Where no chain of dependencies goes on for ever, nothing depends on itself. -/
theorem not_transGen_of_wellFounded (h : WellFounded g.IsDependency) (id : NodeId) :
    ¬ Relation.TransGen g.IsDependency id id :=
  fun hid => h.transGen.asymmetric id id hid hid

/-- No cycle is recorded exactly if no chain of dependencies goes on for ever. -/
theorem cycles_eq_nil_iff (hg : g.WellFormed) :
    g.cycles = [] ↔ WellFounded g.IsDependency := by
  constructor
  · intro hnil
    -- With no cycle recorded, every dependency is open.
    refine Subrelation.wf (fun huv => ⟨huv, ?_⟩) (wellFounded_open hg)
    rintro ⟨c, hc, -⟩
    simp [hnil] at hc
  · intro hwf
    rw [List.eq_nil_iff_forall_not_mem]
    intro c hc
    obtain ⟨id, hid⟩ := exists_transGen_of_mem_cycles hg hc
    exact not_transGen_of_wellFounded hwf id hid

/-- In a graph, a chain of dependencies that goes on for ever comes back to a node. -/
theorem wellFounded_iff (hg : g.WellFormed) :
    WellFounded g.IsDependency ↔ ∀ id, ¬ Relation.TransGen g.IsDependency id id := by
  refine ⟨not_transGen_of_wellFounded, fun h => (cycles_eq_nil_iff hg).mp ?_⟩
  rw [List.eq_nil_iff_forall_not_mem]
  intro c hc
  obtain ⟨id, hid⟩ := exists_transGen_of_mem_cycles hg hc
  exact h id hid

end Graph

/-! ### Cycles and schedules of a snapshot -/

variable {nodes : List Node} {edges : List Edge}

/-- In the graph of a snapshot, to be a dependency is to feed along a live edge. -/
theorem isDependency_build (nodes : List Node) (edges : List Edge) :
    (Graph.build nodes edges).IsDependency = Feeds nodes edges := by
  funext u v
  exact propext Graph.mem_build_dependencies

/-- A finite graph is acyclic exactly if no chain of live edges goes on for ever. -/
theorem wellFounded_feeds_iff : WellFounded (Feeds nodes edges) ↔ Acyclic nodes edges := by
  rw [← isDependency_build, Graph.wellFounded_iff (Graph.build_wellFormed nodes edges),
    isDependency_build]
  rfl

/-- No cycle is reported of a snapshot exactly if it is acyclic. -/
theorem cycles_build_eq_nil_iff : (Graph.build nodes edges).cycles = [] ↔ Acyclic nodes edges := by
  rw [Graph.cycles_eq_nil_iff (Graph.build_wellFormed nodes edges), isDependency_build,
    wellFounded_feeds_iff]

/-- A snapshot has a schedule exactly if it is acyclic. -/
theorem exists_schedule_build_iff :
    (∃ order, (Graph.build nodes edges).schedule = .ok order) ↔ Acyclic nodes edges := by
  rw [Graph.exists_schedule_iff (Graph.build_wellFormed nodes edges), isDependency_build,
    wellFounded_feeds_iff]

end QueryGraph
