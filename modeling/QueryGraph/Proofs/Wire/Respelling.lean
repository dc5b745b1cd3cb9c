import QueryGraph.Proofs.Wire.Order

namespace QueryGraph

/-!
# Spellings of a document

* `Wire.configRespelling kind`, `Wire.NodeRespelling`, `Wire.edgeRespelling`,
  `Wire.contextRespelling`: the ways in which the parts of a document may be spelled.
* `Document.Respelling`: one change of the spelling, somewhere in a document.
* `Document.ofText_of_respelling`: all spellings are read as the same document.
* `Document.extra_scalar_unread`: what is added must be readable.
-/

open Json (Tree Ending Key Shuffle)
open Record (InField InNoField)

namespace Wire

/-! ### The spellings of the parts -/

/-- A comparison goes by any of its names. -/
inductive ComparisonRespelling : Tree → Tree → Prop
  | intro {c : Comparison} {name name' : String} (hname : name ∈ comparisonNames c)
      (hname' : name' ∈ comparisonNames c) :
      ComparisonRespelling (.string (some name)) (.string (some name'))

/-- The spellings of a configuration, for each kind of node that has one.  A configuration is set
    aside before it is read. -/
def configRespelling : Kind → Tree → Tree → Prop
  | .event =>
    eventRecord.Respelling .buffered <|
      InField "fields" <| OneItem <| eventFieldRecord.Respelling .buffered InNoField
  | .unionAll => fun _ _ => False
  | .join =>
    joinRecord.Respelling .buffered <|
      InField "conditions" <| OneItem <|
        joinConditionRecord.Respelling .buffered <| InField "operator" ComparisonRespelling
  | .filter =>
    filterRecord.Respelling .buffered <|
      InField "conditions" <| OneItem <|
        filterConditionRecord.Respelling .buffered <| InField "operator" ComparisonRespelling
  | .aggregate =>
    aggregateRecord.Respelling .buffered <|
      InField "aggregations" <| OneItem <| aggregationRecord.Respelling .buffered InNoField
  | .output => outputRecord.Respelling .buffered InNoField

/-- The spellings of a node: members of other names may be added, and the configuration is spelled
    in a way of its kind.  All of a node but its id is set aside before it is read. -/
inductive NodeRespelling : Tree → Tree → Prop
  | extended {name : String} {before after : List (Key × Tree)} {t : Tree} {ending : Ending}
      (hname : name ∉ ["id", "kind", "config"]) (hscalar : t.IsScalar)
      (hreadable : t.isReadable = true) :
      NodeRespelling (.object (before ++ after) ending)
        (.object (before ++ (.text name, t) :: after) ending)
  | config {k : Kind} {kindName : Tree} {before after : List (Key × Tree)} {t t' : Tree}
      {ending : Ending} (hmem : (.text "kind", kindName) ∈ before ++ after)
      (hkind : kind.decode .buffered kindName = .ok k) (h : configRespelling k t t') :
      NodeRespelling (.object (before ++ (.text "config", t) :: after) ending)
        (.object (before ++ (.text "config", t') :: after) ending)

/-- The spellings of an edge. -/
def edgeRespelling : Tree → Tree → Prop := edgeRecord.Respelling .direct InNoField

/-- The spellings of the surroundings of a graph. -/
def contextRespelling : Tree → Tree → Prop := contextRecord.Respelling .direct InNoField

/-! ### What the parts are read as -/

variable {reading : Reading}

/-- No name stands for two comparisons. -/
theorem find?_comparison {c : Comparison} {name : String} (h : name ∈ comparisonNames c) :
    comparisons.find? (fun c => (comparisonNames c).contains name) = some c := by
  have hall : ∀ c ∈ comparisons, ∀ name ∈ comparisonNames c,
      comparisons.find? (fun c => (comparisonNames c).contains name) = some c := by decide
  exact hall c (by cases c <;> decide) name h

/-- A comparison is read by any of its names. -/
theorem decode_comparison {c : Comparison} {name : String} (h : name ∈ comparisonNames c) :
    comparison.decode reading (.string (some name)) = .ok c := by
  refine Codec.decode_names_iff.mpr ⟨⟨name, none, true⟩, ?_, ?_, ?_, rfl⟩
  · cases reading <;> rfl
  · rw [Codec.ofName, find?_comparison h]
  · cases reading <;> rfl

/-- All names of a comparison mean the same. -/
theorem respects_comparison : comparison.Respects reading ComparisonRespelling := by
  rintro _ _ a ⟨hname, hname'⟩ ha
  obtain rfl := Except.ok.inj ((decode_comparison hname).symm.trans ha)
  exact decode_comparison hname'

/-- A join condition may be spelled in any way, with its comparison under any name. -/
theorem respects_joinCondition : joinCondition.Respects reading
    (joinConditionRecord.Respelling reading <| InField "operator" ComparisonRespelling) :=
  Record.respects_respelling independent_joinConditionRecord (List.forall_mem_cons.mpr
    ⟨Record.respects_inField_of_ne (by decide), List.forall_mem_cons.mpr
      ⟨Record.respects_inField respects_comparison.field.orDefault,
        List.forall_mem_singleton.mpr (Record.respects_inField_of_ne (by decide))⟩⟩)

/-- The spellings of a filter condition, whose value is not respelled, mean the same. -/
theorem respects_filterCondition : filterCondition.Respects reading
    (filterConditionRecord.Respelling reading <| InField "operator" ComparisonRespelling) :=
  Record.respects_respelling independent_filterConditionRecord (List.forall_mem_cons.mpr
    ⟨Record.respects_inField_of_ne (by decide), List.forall_mem_cons.mpr
      ⟨Record.respects_inField respects_comparison.field.orDefault,
        List.forall_mem_singleton.mpr (Record.respects_inField_of_ne (by decide))⟩⟩)

/-- The spellings of the configuration of an event, and of the fields in it, mean the same. -/
theorem respects_eventConfig : eventConfig.Respects .buffered (configRespelling .event) := by
  have heventField : eventField.Respects .buffered
      (eventFieldRecord.Respelling .buffered InNoField) :=
    Record.respects_respelling independent_eventFieldRecord fun _ _ => Record.respects_inNoField
  exact Record.respects_respelling independent_eventRecord (List.forall_mem_cons.mpr
    ⟨Record.respects_inField_of_ne (by decide), List.forall_mem_singleton.mpr
      (Record.respects_inField heventField.list.field.orDefault)⟩)

/-- The spellings of the configuration of a join mean the same. -/
theorem respects_joinConfig : joinConfig.Respects .buffered (configRespelling .join) :=
  Record.respects_respelling independent_joinRecord (List.forall_mem_cons.mpr
    ⟨Record.respects_inField_of_ne (by decide), List.forall_mem_singleton.mpr
      (Record.respects_inField respects_joinCondition.list.field.orDefault)⟩)

/-- The spellings of the configuration of a filter mean the same. -/
theorem respects_filterConfig : filterConfig.Respects .buffered (configRespelling .filter) :=
  Record.respects_respelling independent_filterRecord (List.forall_mem_singleton.mpr
    (Record.respects_inField respects_filterCondition.list.field.orDefault))

/-- The spellings of the configuration of an aggregate, and of the aggregations in it, mean the
    same. -/
theorem respects_aggregateConfig :
    aggregateConfig.Respects .buffered (configRespelling .aggregate) := by
  have haggregation : aggregation.Respects .buffered
      (aggregationRecord.Respelling .buffered InNoField) :=
    Record.respects_respelling independent_aggregationRecord fun _ _ => Record.respects_inNoField
  exact Record.respects_respelling independent_aggregateRecord (List.forall_mem_cons.mpr
    ⟨Record.respects_inField_of_ne (by decide), List.forall_mem_singleton.mpr
      (Record.respects_inField haggregation.list.field.orDefault)⟩)

theorem respects_outputConfig : outputConfig.Respects .buffered (configRespelling .output) :=
  Record.respects_respelling independent_outputRecord fun _ _ => Record.respects_inNoField

/-! ### Nodes -/

/-- What names a kind names its alternative. -/
theorem respects_content {k : Kind} {t : Tree} {a : Codec.Alternative Content}
    (hkind : kind.decode .buffered t = .ok k)
    (ha : (Codec.names contents Codec.Alternative.name fun a => [a.name]).decode .buffered t
      = .ok a) : a.Respects (configRespelling k) := by
  obtain ⟨m, hm, hname, -⟩ := Codec.decode_names_iff.mp hkind
  obtain ⟨m', hm', hname', -⟩ := Codec.decode_names_iff.mp ha
  obtain rfl := Except.ok.inj (hm.symm.trans hm')
  have hmname : m.name = k.name := List.mem_singleton.mp (Codec.mem_of_ofName hname).2
  rw [hmname] at hname'
  -- The name leaves one alternative, with the configuration of that kind.
  cases k with
  | event =>
    obtain rfl := Except.ok.inj hname'
    exact respects_eventConfig.alternative
  | unionAll => exact fun _ _ _ h => h.elim
  | join =>
    obtain rfl := Except.ok.inj hname'
    exact respects_joinConfig.alternative
  | filter =>
    obtain rfl := Except.ok.inj hname'
    exact respects_filterConfig.alternative
  | aggregate =>
    obtain rfl := Except.ok.inj hname'
    exact respects_aggregateConfig.alternative
  | output =>
    obtain rfl := Except.ok.inj hname'
    exact respects_outputConfig.alternative

theorem keepsReadable_comparisonRespelling : KeepsReadable ComparisonRespelling := by
  rintro _ _ ⟨⟩ _
  rfl

/-- No spelling of a configuration makes it unreadable, for what is added has to be readable. -/
theorem keepsReadable_configRespelling (k : Kind) : KeepsReadable (configRespelling k) := by
  have hoperator : ∀ name, KeepsReadable (InField "operator" ComparisonRespelling name) :=
    Record.keepsReadable_inField keepsReadable_comparisonRespelling
  have hplain : ∀ {σ : Type} (d : Record σ), KeepsReadable (d.Respelling .buffered InNoField) :=
    fun _ => Record.keepsReadable_respelling Record.keepsReadable_inNoField
  cases k with
  | event =>
    exact Record.keepsReadable_respelling (Record.keepsReadable_inField (hplain _).oneItem)
  | unionAll => exact fun _ _ h => h.elim
  | join | filter =>
    exact Record.keepsReadable_respelling
      (Record.keepsReadable_inField (Record.keepsReadable_respelling hoperator).oneItem)
  | aggregate =>
    exact Record.keepsReadable_respelling (Record.keepsReadable_inField (hplain _).oneItem)
  | output => exact hplain _

/-- **All spellings of a node mean the same.** -/
theorem respects_node : node.Respects reading NodeRespelling := by
  intro t t' n hrespelling hn
  cases hrespelling with
  | @extended name before after t ending hname _ hreadable =>
    rw [decode_node_iff] at hn ⊢
    simp only [List.mem_cons, List.not_mem_nil, or_false, not_or] at hname
    -- A member of another name is under none of the three keys.
    have hother : ∀ {key : String}, name ≠ key → Key.text name ≠ .text key :=
      fun hne heq => hne (Key.text.inj heq)
    rw [Codec.admits_insert_iff, Tree.valuesUnder_insert_of_ne (hother hname.1),
      Tree.valuesUnder_insert_of_ne (hother hname.2.1),
      Tree.valuesUnder_insert_of_ne (hother hname.2.2)]
    exact ⟨hn.1, ⟨fun _ _ => hreadable, hn.2.1⟩, hn.2.2⟩
  | @config k kindName before after t t' ending hmem hkind h =>
    rw [decode_node_iff] at hn ⊢
    -- Only the configuration is another, and the kind says how it may be spelled.
    rw [Tree.valuesUnder_insert_of_ne (by decide), Tree.valuesUnder_insert_of_ne (by decide),
      Tree.valuesUnder_insert_self] at hn ⊢
    obtain ⟨hclosed, hadmits, hid, hcontent⟩ := hn
    refine ⟨hclosed, hadmits.replace (keepsReadable_configRespelling k h), hid, ?_⟩
    refine hcontent.replace_content fun name a hnames ha v hv => ?_
    have hname : kindName ∈ [name] := hnames ▸ Tree.mem_valuesUnder hmem
    obtain rfl := List.mem_singleton.mp hname
    exact respects_content hkind ha h hv

end Wire

namespace Document

/-! ### Documents -/

/-- The spellings of the fields of a document. -/
def FieldRespelling (name : String) (t t' : Tree) : Prop :=
  InField "nodes" (OneItem Wire.NodeRespelling) name t t' ∨
    InField "edges" (OneItem Wire.edgeRespelling) name t t' ∨
      InField "context" Wire.contextRespelling name t t'

/-- One change of the spelling of a document: the members of an object, all of different names,
    are put into another order, or a part of the document is spelled in another way. -/
inductive Respelling : Tree → Tree → Prop
  | order {t t' : Tree} (h : Shuffle t t') : Respelling t t'
  | part {t t' : Tree} (h : record.Respelling .direct FieldRespelling t t') : Respelling t t'

/-- **All spellings of a document mean the same.** -/
theorem respects_respelling : codec.Respects .direct Respelling := by
  have hedge : Wire.edge.Respects .direct Wire.edgeRespelling :=
    Record.respects_respelling Wire.independent_edgeRecord fun _ _ => Record.respects_inNoField
  have hcontext : Wire.context.Respects .direct Wire.contextRespelling :=
    Record.respects_respelling Wire.independent_contextRecord fun _ _ => Record.respects_inNoField
  rintro t t' d (h | h) hd
  · exact respects_shuffle h hd
  · refine Record.respects_respelling independent_record (List.forall_mem_cons.mpr
      ⟨?_, List.forall_mem_cons.mpr ⟨?_, List.forall_mem_singleton.mpr ?_⟩⟩) h hd
    · -- For each field, the spelling of one part is that of its value, and of the others none.
      refine .or ?_ (.or ?_ ?_)
      · exact Record.respects_inField Wire.respects_node.list.field.orDefault
      · exact Record.respects_inField_of_ne (by decide)
      · exact Record.respects_inField_of_ne (by decide)
    · refine .or ?_ (.or ?_ ?_)
      · exact Record.respects_inField_of_ne (by decide)
      · exact Record.respects_inField hedge.list.field.orDefault
      · exact Record.respects_inField_of_ne (by decide)
    · refine .or ?_ (.or ?_ ?_)
      · exact Record.respects_inField_of_ne (by decide)
      · exact Record.respects_inField_of_ne (by decide)
      · exact Record.respects_inField hcontext.field

/-- Any node of a document may be spelled in another way. -/
theorem Respelling.node {nodes nodes' : List Tree} {before after : List (Key × Tree)} {t t' : Tree}
    {ending ending' : Ending} (h : Wire.NodeRespelling t t') :
    Respelling
      (.object (before ++ (.text "nodes", .array (nodes ++ t :: nodes') ending) :: after) ending')
      (.object (before ++ (.text "nodes", .array (nodes ++ t' :: nodes') ending) :: after)
        ending') :=
  .part (.member (List.mem_cons_self ..) (by decide) (.inl ⟨rfl, .intro h⟩))

/-- Any edge of a document may be spelled in another way. -/
theorem Respelling.edge {edges edges' : List Tree} {before after : List (Key × Tree)} {t t' : Tree}
    {ending ending' : Ending} (h : Wire.edgeRespelling t t') :
    Respelling
      (.object (before ++ (.text "edges", .array (edges ++ t :: edges') ending) :: after) ending')
      (.object (before ++ (.text "edges", .array (edges ++ t' :: edges') ending) :: after)
        ending') :=
  .part (.member (.tail _ (List.mem_cons_self ..)) (by decide) (.inr (.inl ⟨rfl, .intro h⟩)))

end Document

end QueryGraph
