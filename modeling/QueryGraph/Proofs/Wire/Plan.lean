import QueryGraph.Proofs.Graph.Succession
import QueryGraph.Proofs.Plan.Size
import QueryGraph.Proofs.Wire.Document
import QueryGraph.Wire.Plan

namespace QueryGraph

/-!
# Results read back

* `Wire.readsBack_…`: each codec of a part of a result reads what it writes.
* `Wire.readsBack_plan`: a writable plan is read back.
* `Wire.readsBack_cascadeOutcome`: so is what a deletion leaves, if its free values can be
  written.
* `results_survive_exchange`: plans and deletions are read back from their texts.
-/

/-- The numbers in the summary of a deletion. -/
def CascadeSummary.counts (s : CascadeSummary) : List Nat :=
  [s.directNodes, s.directEdges, s.cascadedNodes, s.cascadedEdges]

namespace Wire

open Codec (ReadsBack readsBack_string readsBack_bool readsBack_count readsBack_names
  readsBack_optional readsBack_list readsBack_recordAlternative)
open Record (Restores)

variable {k : Nat}

/-! ### Fragments -/

theorem readsBack_kind (kind : Kind) : Wire.kind.ReadsBack k kind :=
  readsBack_names (by cases kind <;> rfl)

/-- The facts about a fragment are read back, if their counts are machine words. -/
theorem readsBack_metadata {facts : Metadata} (h : AreWords facts.counts) :
    metadata.ReadsBack (k + 2) facts := by
  cases facts with
  | event name fields fallback =>
    exact readsBack_recordAlternative rfl rfl rfl (by decide) (by decide) <|
      .orAbsent <| .field (readsBack_optionalString name) <|
      .field (readsBack_count (h fields List.mem_cons_self)) <|
      .field (readsBack_bool fallback) <|
      .nil _
  | unionAll inputs =>
    exact readsBack_recordAlternative rfl rfl rfl (by decide) (by decide) <|
      .field (readsBack_count (h inputs List.mem_cons_self)) <|
      .nil _
  | join type conditions =>
    exact readsBack_recordAlternative rfl rfl rfl (by decide) (by decide) <|
      .field (readsBack_joinType type) <|
      .field (readsBack_count (h conditions List.mem_cons_self)) <|
      .nil _
  | filter conditions =>
    exact readsBack_recordAlternative rfl rfl rfl (by decide) (by decide) <|
      .field (readsBack_count (h conditions List.mem_cons_self)) <|
      .nil _
  | aggregate groupBy aggregates =>
    exact readsBack_recordAlternative rfl rfl rfl (by decide) (by decide) <|
      .field (readsBack_list fun s _ => readsBack_string s) <|
      .field (readsBack_count (h aggregates List.mem_cons_self)) <|
      .nil _
  | output view space =>
    exact readsBack_recordAlternative rfl rfl rfl (by decide) (by decide) <|
      .field (readsBack_string view) <|
      .field (readsBack_string space) <|
      .nil _

/-- A fragment is read back with the facts about it. -/
theorem readsBack_fragment {f : Fragment} (h : AreWords f.metadata.counts) :
    fragment.ReadsBack (k + 3) f :=
  Record.readsBack (by decide) <|
    .field (readsBack_kind f.kind) <|
    .field (readsBack_string f.text) <|
    .field (readsBack_metadata h) <|
    .nil f

/-! ### Failures -/

/-- A number of inputs is written with its tag beside it. -/
theorem readsBack_arity {a : Arity} (h : a.count < UInt64.size) : arity.ReadsBack (k + 1) a := by
  cases a with
  | exactly n =>
    have hcount : Codec.count.ReadsBack k n := readsBack_count h
    exact Codec.readsBack_adjacentlyTagged (by decide) rfl hcount.depth_le hcount.alternative
  | atLeast n =>
    have hcount : Codec.count.ReadsBack k n := readsBack_count h
    exact Codec.readsBack_adjacentlyTagged (by decide) rfl hcount.depth_le hcount.alternative

/-- The failure of a node is read back, whatever it is. -/
theorem readsBack_nodeFailure {e : NodeFailure} (h : AreWords e.counts) :
    nodeFailure.ReadsBack (k + 2) e := by
  cases e with
  | arity id kind expected found =>
    exact readsBack_recordAlternative rfl rfl rfl (by decide) (by decide) <|
      .field (readsBack_nodeId id) <|
      .field (readsBack_kind kind) <|
      .field (readsBack_arity (h _ List.mem_cons_self)) <|
      .field (readsBack_count (h found (by simp [NodeFailure.counts]))) <|
      .nil _
  | missingConfig id kind field =>
    exact readsBack_recordAlternative rfl rfl rfl (by decide) (by decide) <|
      .field (readsBack_nodeId id) <|
      .field (readsBack_kind kind) <|
      .field (readsBack_string field) <|
      .nil _
  | skipped id failed =>
    exact readsBack_recordAlternative rfl rfl rfl (by decide) (by decide) <|
      .field (readsBack_nodeId id) <|
      .field (readsBack_nodeId failed) <|
      .nil _

theorem readsBack_cycles (found : List (List NodeId)) : cycles.ReadsBack (k + 2) found :=
  readsBack_list fun _ _ => readsBack_list fun id _ => readsBack_nodeId id

theorem readsBack_cyclesFailure (found : List (List NodeId)) :
    cyclesFailure.codec.ReadsBack (k + 3) found :=
  Record.readsBack (by decide) <| .field (readsBack_cycles found) <| .nil found

/-- The failure of the scheduler, with its two counts. -/
theorem readsBack_unschedulableFailure {scheduled total : Nat}
    (h : AreWords [scheduled, total]) :
    unschedulableFailure.codec.ReadsBack (k + 1) (scheduled, total) :=
  Record.readsBack (by decide) <|
    .field (readsBack_count (h scheduled List.mem_cons_self)) <|
    .field (readsBack_count (h total (by simp))) <|
    .nil _

/-- The two failures of a graph have no tag, but no text of one is read as the other. -/
theorem readsBack_graphFailure {e : GraphFailure} (h : AreWords e.counts) :
    graphFailure.ReadsBack (k + 4) e := by
  cases e with
  | cycles found =>
    have hfound : cyclesFailure.codec.ReadsBack (k + 3) found := readsBack_cyclesFailure found
    exact Codec.readsBack_untagged rfl hfound.depth_le hfound.alternative
  | unschedulable scheduled total =>
    have hcounts : unschedulableFailure.codec.ReadsBack (k + 3) (scheduled, total) :=
      readsBack_unschedulableFailure h
    exact Codec.readsBack_untagged rfl hcounts.depth_le hcounts.alternative

/-! ### Plans -/

theorem readsBack_stage (stage : Stage) : Wire.stage.ReadsBack k stage :=
  readsBack_names (by cases stage <;> rfl)

/-- The statistics are read back if all of them are machine words. -/
theorem readsBack_statistics {s : Statistics} (h : AreWords s.counts) :
    statistics.ReadsBack (k + 1) s := by
  simp only [AreWords, Statistics.counts, List.forall_mem_cons] at h
  obtain ⟨htotal, hscheduled, hcompiled, hfailed, hskipped, hsources, hsinks, hinert, -⟩ := h
  exact Record.readsBack (by decide) <|
    .field (readsBack_count htotal) <|
    .field (readsBack_count hscheduled) <|
    .field (readsBack_count hcompiled) <|
    .field (readsBack_count hfailed) <|
    .field (readsBack_count hskipped) <|
    .field (readsBack_count hsources) <|
    .field (readsBack_count hsinks) <|
    .field (readsBack_count hinert) <|
    .nil s

/-- A map from nodes is written as an object, which is read back if no node is in it twice. -/
theorem readsBack_byNode {α : Type} {c : Codec α} {entries : List (NodeId × α)}
    (hnodup : (entries.map Prod.fst).Nodup) (h : ∀ e ∈ entries, c.ReadsBack k e.2) :
    (byNode c).ReadsBack (k + 1) entries :=
  Codec.readsBack_dictionary (fun _ => rfl) hnodup h

/-- A failure is not written as its absence. -/
theorem encode_graphFailure_ne_null (e : GraphFailure) : graphFailure.encode e ≠ .null := nofun

/-- A writable plan is read back. -/
theorem readsBack_plan {p : Plan} (h : p.Writable) : plan.ReadsBack (k + 5) p :=
  Record.readsBack (by decide) <|
    .field (readsBack_bool p.success) <|
    .field (readsBack_stage p.stage) <|
    .field (readsBack_list fun id _ => readsBack_nodeId id) <|
    .field (readsBack_byNode h.outputs_nodup fun e he => readsBack_fragment (h.outputs e he)) <|
    .orAbsent <| .field (readsBack_optionalString p.finalText) <|
    .field (readsBack_byNode h.programs_nodup fun e _ => readsBack_string e.2) <|
    .field (readsBack_byNode h.errors_nodup fun e he => readsBack_nodeFailure (h.errors e he)) <|
    .field (readsBack_cycles p.cycles) <|
    .orAbsent <| .field (readsBack_optional fun e he =>
      ⟨readsBack_graphFailure (h.fatal e he), encode_graphFailure_ne_null e⟩) <|
    .field (readsBack_statistics h.statistics) <|
    .nil p

/-! ### Deletions -/

/-- The summary of a deletion is read back if its counts are machine words. -/
theorem readsBack_cascadeSummary {s : CascadeSummary} (h : AreWords s.counts) :
    cascadeSummary.ReadsBack (k + 1) s := by
  simp only [AreWords, CascadeSummary.counts, List.forall_mem_cons] at h
  obtain ⟨hnodes, hedges, hmoreNodes, hmoreEdges, -⟩ := h
  exact Record.readsBack (by decide) <|
    .field (readsBack_count hnodes) <|
    .field (readsBack_count hedges) <|
    .field (readsBack_count hmoreNodes) <|
    .field (readsBack_count hmoreEdges) <|
    .nil s

/-- What a deletion leaves is read back, if its free values can be written. -/
theorem readsBack_cascadeOutcome {left : CascadeOutcome}
    (hnodes : ∀ n ∈ left.nodes, n.content.Settled (k + 1)) (h : AreWords left.summary.counts) :
    cascadeOutcome.ReadsBack (k + 7) left :=
  Record.readsBack (by decide) <|
    .field (readsBack_list fun n hn => readsBack_node (hnodes n hn)) <|
    .field (readsBack_list fun e _ => readsBack_edge e) <|
    .field (readsBack_cascadeSummary h) <|
    .nil left

end Wire

/-- What a deletion removes was there. -/
theorem areWords_summary_cascade {nodes : List Node} {edges : List Edge}
    (hnodes : nodes.length < UInt64.size) (hedges : edges.length < UInt64.size)
    (targets : List NodeId) : AreWords (cascade targets nodes edges).summary.counts := by
  obtain ⟨hdirect, hdirectEdges, hmore, hmoreEdges⟩ := summary_cascade targets nodes edges
  simp only [AreWords, CascadeSummary.counts, List.forall_mem_cons]
  exact ⟨by omega, by omega, by omega, by omega, List.forall_mem_nil _⟩

/-- **Results survive the exchange.**  Whatever becomes of a snapshot, its plan is read back from
    either text that is written for it, with all maps in their order; and so is what a deletion
    leaves of a document that was read. -/
theorem results_survive_exchange :
    (∀ settings nodes edges, FitsWords settings nodes edges → ∀ context,
      let p := compile settings nodes edges context
      Wire.plan.decodeText (Wire.plan.encodeText p) = .ok p ∧
        Wire.plan.decodeText (Wire.plan.encode p).pretty = .ok p) ∧
      ∀ text d, Document.ofText text = .ok d → d.nodes.length < UInt64.size →
        d.edges.length < UInt64.size → ∀ targets,
        let left := cascade targets d.nodes d.edges
        Wire.cascadeOutcome.decodeText (Wire.cascadeOutcome.encodeText left) = .ok left ∧
          Wire.cascadeOutcome.decodeText (Wire.cascadeOutcome.encode left).pretty = .ok left := by
  refine ⟨fun settings nodes edges hfits context => ?_,
    fun text d htext hnodes hedges targets => ?_⟩
  · -- A plan nests only a few levels deep.
    have hplan : Wire.plan.ReadsBack Json.maxDepth (compile settings nodes edges context) :=
      Wire.readsBack_plan (k := 122) (writable_compile hfits context)
    exact ⟨hplan.decodeText_encodeText, hplan.decodeText⟩
  · -- A document that was read has free values that can be written, and a deletion adds none.
    have hsettled : d.Settled 121 := (Document.yields_codec 121).of_decodeText htext
    have hleft : ∀ n ∈ (cascade targets d.nodes d.edges).nodes, n.content.Settled 121 :=
      fun n hn => hsettled n (mem_nodes_cascade.mp hn).1
    have houtcome : Wire.cascadeOutcome.ReadsBack Json.maxDepth
        (cascade targets d.nodes d.edges) :=
      Wire.readsBack_cascadeOutcome hleft (areWords_summary_cascade hnodes hedges targets)
    exact ⟨houtcome.decodeText_encodeText, houtcome.decodeText⟩

/-- A plan with fragments, a miscounted and a skipped node, and a document from which nothing is
    deleted. -/
theorem results_survive_exchange_fork :
    let settings : Settings := { Settings.default with failurePolicy := .skipDependents }
    let p := compile settings forkNodes forkEdges ⟨"games", 7⟩
    FitsWords settings forkNodes forkEdges ∧ p.outputs.length = 2 ∧ p.errors.length = 2 ∧
      Wire.plan.decodeText (Wire.plan.encodeText p) = .ok p ∧
      ∃ d, Document.ofText Document.sampleText = .ok d ∧ d.nodes.length < UInt64.size ∧
        d.edges.length < UInt64.size ∧
        let left := cascade [⟨"gone"⟩] d.nodes d.edges
        Wire.cascadeOutcome.decodeText (Wire.cascadeOutcome.encodeText left) = .ok left := by
  intro settings p
  have hfits : FitsWords settings forkNodes forkEdges := by
    refine ⟨by decide, by decide, by decide, ?_⟩
    simp [forkNodes, Content.itemCount]
  have hread : ((Document.ofText Document.sampleText).toOption.map fun d =>
      (d.nodes.length, d.edges.length)) = some (1, 0) := by decide +kernel
  obtain ⟨d, hd, hlengths⟩ := Option.map_eq_some_iff.mp hread
  have hok : Document.ofText Document.sampleText = .ok d := eq_ok_of_toOption hd
  obtain ⟨hnodes, hedges⟩ := Prod.mk.inj hlengths
  have hnodes' : d.nodes.length < UInt64.size := by rw [hnodes]; decide
  have hedges' : d.edges.length < UInt64.size := by rw [hedges]; decide
  obtain ⟨hplans, houtcomes⟩ := results_survive_exchange
  exact ⟨hfits, by decide +kernel, by decide +kernel,
    (hplans settings forkNodes forkEdges hfits ⟨"games", 7⟩).1, d, hok, hnodes', hedges',
    (houtcomes _ d hok hnodes' hedges' [⟨"gone"⟩]).1⟩

end QueryGraph
