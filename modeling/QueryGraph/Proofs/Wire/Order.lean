import QueryGraph.Proofs.Codec.Respelling
import QueryGraph.Wire.Document

namespace QueryGraph

/-!
# Documents in another order

* `independent_…`: the fields of each record of a document are independent.
* `respects_shuffle_…`: no part of a document shows the order of members.
* `Wire.decode_node_iff`: what a node is read as, by the values under its keys.
* `Document.respects_shuffle`: all parts together.
-/

open Json (Tree Ending Key Shuffle)
open Record (independent_of_names independent_pair)

namespace Wire

variable {reading : Reading}

/-! ### Independent fields -/

theorem independent_parameterRecord : parameterRecord.fields.Pairwise Field.Independent :=
  List.pairwise_singleton _ _

/-- The name of an event field and its source are kept in different places. -/
theorem independent_eventFieldRecord : eventFieldRecord.fields.Pairwise Field.Independent := by
  refine independent_pair (by decide) ?_
  refine Field.commutes_of_sets (fun _ _ => rfl) (fun _ _ => rfl) ?_
  exact fun _ _ _ => rfl

/-- The event name and the fields are kept in different places. -/
theorem independent_eventRecord : eventRecord.fields.Pairwise Field.Independent := by
  refine independent_pair (by decide) ?_
  refine Field.commutes_of_sets (fun _ _ => rfl) (fun _ _ => rfl) ?_
  exact fun _ _ _ => rfl

/-- The two names of a join condition and its comparison do not get in each other's way. -/
theorem independent_joinConditionRecord :
    joinConditionRecord.fields.Pairwise Field.Independent := by
  refine independent_of_names (by decide) ?_
  simp only [joinConditionRecord, List.pairwise_cons, List.forall_mem_cons, List.not_mem_nil,
    false_implies, implies_true, List.Pairwise.nil, and_true]
  -- Any two of the three fields write to different places.
  and_intros <;> refine Field.commutes_of_sets (fun _ _ => rfl) (fun _ _ => rfl) ?_ <;>
    exact fun _ _ _ => rfl

/-- The type of a join and its conditions are kept in different places. -/
theorem independent_joinRecord : joinRecord.fields.Pairwise Field.Independent := by
  refine independent_pair (by decide) ?_
  refine Field.commutes_of_sets (fun _ _ => rfl) (fun _ _ => rfl) ?_
  exact fun _ _ _ => rfl

/-- The field, the comparison and the value of a filter condition do not get in each other's way. -/
theorem independent_filterConditionRecord :
    filterConditionRecord.fields.Pairwise Field.Independent := by
  refine independent_of_names (by decide) ?_
  simp only [filterConditionRecord, List.pairwise_cons, List.forall_mem_cons, List.not_mem_nil,
    false_implies, implies_true, List.Pairwise.nil, and_true]
  and_intros <;> refine Field.commutes_of_sets (fun _ _ => rfl) (fun _ _ => rfl) ?_ <;>
    exact fun _ _ _ => rfl

theorem independent_filterRecord : filterRecord.fields.Pairwise Field.Independent :=
  List.pairwise_singleton _ _

/-- The function, the field and the name of an aggregation do not get in each other's way. -/
theorem independent_aggregationRecord :
    aggregationRecord.fields.Pairwise Field.Independent := by
  refine independent_of_names (by decide) ?_
  simp only [aggregationRecord, List.pairwise_cons, List.forall_mem_cons, List.not_mem_nil,
    false_implies, implies_true, List.Pairwise.nil, and_true]
  and_intros <;> refine Field.commutes_of_sets (fun _ _ => rfl) (fun _ _ => rfl) ?_ <;>
    exact fun _ _ _ => rfl

/-- The grouping fields and the aggregations are kept in different places. -/
theorem independent_aggregateRecord : aggregateRecord.fields.Pairwise Field.Independent := by
  refine independent_pair (by decide) ?_
  refine Field.commutes_of_sets (fun _ _ => rfl) (fun _ _ => rfl) ?_
  exact fun _ _ _ => rfl

theorem independent_outputRecord : outputRecord.fields.Pairwise Field.Independent :=
  List.pairwise_singleton _ _

/-- The five parts of an edge do not get in each other's way, though two of them go by two keys
    each. -/
theorem independent_edgeRecord : edgeRecord.fields.Pairwise Field.Independent := by
  refine independent_of_names (by decide) ?_
  simp only [edgeRecord, List.pairwise_cons, List.forall_mem_cons, List.not_mem_nil,
    false_implies, implies_true, List.Pairwise.nil, and_true]
  and_intros <;> refine Field.commutes_of_sets (fun _ _ => rfl) (fun _ _ => rfl) ?_ <;>
    exact fun _ _ _ => rfl

/-- The database and the game are kept in different places. -/
theorem independent_contextRecord : contextRecord.fields.Pairwise Field.Independent := by
  refine independent_pair (by decide) ?_
  refine Field.commutes_of_sets (fun _ _ => rfl) (fun _ _ => rfl) ?_
  exact fun _ _ _ => rfl

/-! ### Configurations -/

theorem respects_shuffle_string : Codec.string.Respects reading Shuffle :=
  Codec.takesScalars_string.respects_shuffle

theorem respects_shuffle_optionalString : Codec.string.optional.Respects reading Shuffle :=
  Codec.respects_shuffle_optional respects_shuffle_string

/-- The tag of a source may stand behind its path, as the object is set aside before it is read. -/
theorem respects_shuffle_fieldSource : fieldSource.Respects reading Shuffle := by
  refine Codec.respects_shuffle_internallyTagged (List.forall_mem_cons.mpr
    ⟨Codec.respects_shuffle_bareAlternative, List.forall_mem_singleton.mpr ?_⟩)
  exact Codec.respects_shuffle_recordAlternative independent_parameterRecord
    (List.forall_mem_singleton.mpr respects_shuffle_string.field)

/-- A field of an event is read by the names of its parts. -/
theorem respects_shuffle_eventField : eventField.Respects reading Shuffle :=
  Record.respects_shuffle independent_eventFieldRecord (List.forall_mem_cons.mpr
    ⟨respects_shuffle_string.field,
      List.forall_mem_singleton.mpr respects_shuffle_fieldSource.field.orDefault⟩)

/-- The configuration of an event, with the order of its fields kept. -/
theorem respects_shuffle_eventConfig : eventConfig.Respects reading Shuffle :=
  Record.respects_shuffle independent_eventRecord (List.forall_mem_cons.mpr
    ⟨respects_shuffle_optionalString.field.orDefault, List.forall_mem_singleton.mpr
      (Codec.respects_shuffle_list respects_shuffle_eventField).field.orDefault⟩)

/-- A condition of a join is read by the names of its parts. -/
theorem respects_shuffle_joinCondition : joinCondition.Respects reading Shuffle :=
  Record.respects_shuffle independent_joinConditionRecord (List.forall_mem_cons.mpr
    ⟨respects_shuffle_string.field, List.forall_mem_cons.mpr
      ⟨Codec.respects_shuffle_names.field.orDefault,
        List.forall_mem_singleton.mpr respects_shuffle_string.field⟩⟩)

/-- The configuration of a join, with the order of its conditions kept. -/
theorem respects_shuffle_joinConfig : joinConfig.Respects reading Shuffle :=
  Record.respects_shuffle independent_joinRecord (List.forall_mem_cons.mpr
    ⟨(Codec.respects_shuffle_optional Codec.respects_shuffle_names).field.orDefault,
      List.forall_mem_singleton.mpr
        (Codec.respects_shuffle_list respects_shuffle_joinCondition).field.orDefault⟩)

/-- A condition of a filter; the value may be any, and is sorted by keys. -/
theorem respects_shuffle_filterCondition : filterCondition.Respects reading Shuffle :=
  Record.respects_shuffle independent_filterConditionRecord (List.forall_mem_cons.mpr
    ⟨respects_shuffle_string.field, List.forall_mem_cons.mpr
      ⟨Codec.respects_shuffle_names.field.orDefault,
        List.forall_mem_singleton.mpr Codec.respects_shuffle_value.field.orDefault⟩⟩)

/-- The configuration of a filter, with the order of its conditions kept. -/
theorem respects_shuffle_filterConfig : filterConfig.Respects reading Shuffle :=
  Record.respects_shuffle independent_filterRecord (List.forall_mem_singleton.mpr
    (Codec.respects_shuffle_list respects_shuffle_filterCondition).field.orDefault)

/-- An aggregation is read by the names of its parts. -/
theorem respects_shuffle_aggregation : aggregation.Respects reading Shuffle :=
  Record.respects_shuffle independent_aggregationRecord (List.forall_mem_cons.mpr
    ⟨Codec.respects_shuffle_names.field, List.forall_mem_cons.mpr
      ⟨respects_shuffle_optionalString.field.orDefault,
        List.forall_mem_singleton.mpr respects_shuffle_string.field⟩⟩)

/-- The configuration of an aggregate, with the orders of its lists kept. -/
theorem respects_shuffle_aggregateConfig : aggregateConfig.Respects reading Shuffle :=
  Record.respects_shuffle independent_aggregateRecord (List.forall_mem_cons.mpr
    ⟨(Codec.respects_shuffle_list respects_shuffle_string).field.orDefault,
      List.forall_mem_singleton.mpr
        (Codec.respects_shuffle_list respects_shuffle_aggregation).field.orDefault⟩)

theorem respects_shuffle_outputConfig : outputConfig.Respects reading Shuffle :=
  Record.respects_shuffle independent_outputRecord (List.forall_mem_singleton.mpr
    (respects_shuffle_optionalString.field.orDefault.orNamed "destination"))

/-- No configuration shows the order of members, whatever kind of node it is of. -/
theorem respects_shuffle_contents : ∀ a ∈ contents, a.Respects Shuffle := by
  intro a ha
  simp only [contents, List.mem_cons, List.not_mem_nil, or_false] at ha
  rcases ha with rfl | rfl | rfl | rfl | rfl | rfl
  · exact respects_shuffle_eventConfig.alternative
  · -- A union takes `null` for a configuration, and there is nothing to permute in that.
    intro t t' v hshuffle hv
    cases t with
    | null => exact absurd trivial hshuffle.not_isScalar
    | bool | number | string | array | object | malformed => cases hv
  · exact respects_shuffle_joinConfig.alternative
  · exact respects_shuffle_filterConfig.alternative
  · exact respects_shuffle_aggregateConfig.alternative
  · exact respects_shuffle_outputConfig.alternative

/-! ### Nodes -/

theorem respects_shuffle_nodeId : nodeId.Respects reading Shuffle :=
  Codec.takesScalars_string.convert.respects_shuffle

/-- **What a node is read as**, by the values under its three keys. -/
theorem decode_node_iff {members : List (Key × Tree)} {ending : Ending} {n : Node} :
    node.decode reading (.object members ending) = .ok n ↔
      ending = .closed ∧ Codec.Admits reading (fun name => name = "id") Tree.isReadable members ∧
        (∃ t, Tree.valuesUnder "id" members = [t] ∧ nodeId.decode reading t = .ok n.id) ∧
          Codec.Adjacent.start.Completes contents (Tree.valuesUnder "kind" members)
            (Tree.valuesUnder "config" members) n.content := by
  -- What is set aside has been read as keys and values before.
  have hreadable : Codec.Admits reading (fun name => name = "id") Tree.isReadable members →
      ∀ m ∈ Codec.others "id" members, m.1 ≠ .unreadable := by
    intro h m hm hkey
    obtain ⟨name, hname, -⟩ := h m (List.mem_of_mem_filter hm)
    cases hname.symm.trans hkey
  have hcontent : ∀ {c : Content}, Codec.Admits reading (fun name => name = "id") Tree.isReadable
      members → (Codec.Adjacent.decodeMembers "kind" "config" contents .buffered
        (Codec.others "id" members) .closed = .ok c ↔
          Codec.Adjacent.start.Completes contents (Tree.valuesUnder "kind" members)
            (Tree.valuesUnder "config" members) c) := by
    intro c h
    rw [Codec.Adjacent.decodeMembers_iff (by decide), Codec.valuesUnder_others (by decide),
      Codec.valuesUnder_others (by decide), and_iff_right (hreadable h)]
  obtain ⟨id, content⟩ := n
  simp only [node, decodeNode]
  constructor
  · intro h
    split at h
    · cases h
    · split at h
      · cases h
      next found rest htake =>
        split at h
        · cases h
        next hclosed =>
          split at h
          · cases h
          next id' =>
            obtain ⟨hadmits, hid, rfl⟩ := Codec.takeMember_none_iff.mp htake
            obtain ⟨c, hc, hn⟩ := exists_of_map_eq_ok h
            obtain ⟨rfl, rfl⟩ := Node.mk.inj hn
            exact ⟨Decidable.not_not.mp hclosed, hadmits, hid, (hcontent hadmits).mp hc⟩
  · rintro ⟨rfl, hadmits, hid, hc⟩
    -- Conversely, with one id among the members, what is left of them has the kind and the
    -- configuration.
    have htake := Codec.takeMember_none_iff.mpr ⟨hadmits, hid, rfl⟩
    simp [htake, (hcontent hadmits).mpr hc, Except.map]

/-- **No node shows the order of its members**, nor do the parts below it. -/
theorem respects_shuffle_node : node.Respects reading Shuffle := by
  intro t t' n hshuffle hn
  cases hshuffle with
  | item => cases hn
  -- The members of the node itself: under each key stand the same values.
  | @members members members' ending _ hperm =>
    rw [decode_node_iff] at hn ⊢
    obtain ⟨hclosed, hadmits, ⟨v, hvalue, hid⟩, hcontent⟩ := hn
    have hvalues : (Tree.valuesUnder "id" members).Perm (Tree.valuesUnder "id" members') :=
      Tree.valuesAt_perm hperm
    rw [hvalue, List.singleton_perm] at hvalues
    exact ⟨hclosed, hadmits.perm hperm, ⟨v, hvalues.symm, hid⟩,
      hcontent.perm (Tree.valuesAt_perm hperm) (Tree.valuesAt_perm hperm)⟩
  -- Something within one member, which is the id, the kind, the configuration or none of these.
  | @member before after key u u' ending hmember =>
    rw [decode_node_iff] at hn ⊢
    obtain ⟨hclosed, hadmits, ⟨v, hvalue, hid⟩, hcontent⟩ := hn
    refine ⟨hclosed, hadmits.replace fun hu => hmember.isReadable_eq ▸ hu, ?_⟩
    by_cases hkey : key = .text "id"
    · subst hkey
      obtain rfl := Tree.eq_of_valuesUnder_insert hvalue
      exact absurd (Codec.takesScalars_string.convert hid) hmember.not_isScalar
    rw [Tree.valuesUnder_insert_of_ne hkey] at hvalue ⊢
    refine ⟨⟨v, hvalue, hid⟩, ?_⟩
    by_cases hkind : key = .text "kind"
    · subst hkind
      rw [Tree.valuesUnder_insert_self, Tree.valuesUnder_insert_of_ne (by decide)] at hcontent ⊢
      exact hcontent.replace_name fun a ha => Codec.respects_shuffle_names hmember ha
    rw [Tree.valuesUnder_insert_of_ne hkind] at hcontent ⊢
    by_cases hconfig : key = .text "config"
    · subst hconfig
      rw [Tree.valuesUnder_insert_self] at hcontent ⊢
      refine hcontent.replace_content fun name a _ ha v hv => ?_
      exact respects_shuffle_contents a (Codec.mem_of_decode_names ha) hmember hv
    · rwa [Tree.valuesUnder_insert_of_ne hconfig] at hcontent ⊢

/-! ### Edges and surroundings -/

/-- An edge, with each of its handles under either of its keys. -/
theorem respects_shuffle_edge : edge.Respects reading Shuffle :=
  Record.respects_shuffle independent_edgeRecord (List.forall_mem_cons.mpr
    ⟨(Codec.respects_shuffle_optional
        Codec.takesScalars_string.convert.respects_shuffle).field.orDefault.hidingNull,
      List.forall_mem_cons.mpr ⟨respects_shuffle_nodeId.field,
      List.forall_mem_cons.mpr ⟨respects_shuffle_nodeId.field,
      List.forall_mem_cons.mpr
        ⟨(respects_shuffle_optionalString.field.orDefault.orNamed "sourceHandle").hidingNull,
      List.forall_mem_singleton.mpr
        (respects_shuffle_optionalString.field.orDefault.orNamed "targetHandle").hidingNull⟩⟩⟩⟩)

/-- The surroundings of a graph are read by the names of their parts. -/
theorem respects_shuffle_context : context.Respects reading Shuffle :=
  Record.respects_shuffle independent_contextRecord (List.forall_mem_cons.mpr
    ⟨respects_shuffle_string.field,
      List.forall_mem_singleton.mpr Codec.takesScalars_word.respects_shuffle.field⟩)

end Wire

namespace Document

/-- The nodes, the edges and the surroundings are kept in different places. -/
theorem independent_record : record.fields.Pairwise Field.Independent := by
  refine independent_of_names (by decide) ?_
  simp only [record, List.pairwise_cons, List.forall_mem_cons, List.not_mem_nil,
    false_implies, implies_true, List.Pairwise.nil, and_true]
  and_intros <;> refine Field.commutes_of_sets (fun _ _ => rfl) (fun _ _ => rfl) ?_ <;>
    exact fun _ _ _ => rfl

/-- **A document does not show the order of members**, however deep in it. -/
theorem respects_shuffle {reading : Reading} : codec.Respects reading Shuffle :=
  Record.respects_shuffle independent_record (List.forall_mem_cons.mpr
    ⟨(Codec.respects_shuffle_list Wire.respects_shuffle_node).field.orDefault,
      List.forall_mem_cons.mpr
        ⟨(Codec.respects_shuffle_list Wire.respects_shuffle_edge).field.orDefault,
          List.forall_mem_singleton.mpr Wire.respects_shuffle_context.field⟩⟩)

end Document

end QueryGraph
