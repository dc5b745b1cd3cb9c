import QueryGraph.Proofs.Node.Complete

namespace QueryGraph

/-!
# What a node compiles to

* `Content.Lacks`: what a configuration lacks, and the name under which a failure reports it.
* `Content.Counts`: facts about a fragment that count what its node was configured with.
* `Content.reach`: how many inputs are looked up by position, and `Node.fragment?_eq_none_iff`.
* `compile_outcome_iff`: a node never looks for an input that is not there; when it fails, and
  what its failure or its fragment says.
-/

/-- A join lacks conditions; a filter lacks a list if it compares with an empty one or with
    nothing; an aggregation other than a count lacks a field, and an output a name, if there is
    none or a blank one. -/
inductive Content.Lacks : Content → String → Prop
  | joinCondition {config : JoinConfig} (h : config.conditions = []) :
      Lacks (.join config) "join condition"
  | list {config : FilterConfig} {c : FilterCondition} (hc : c ∈ config.conditions)
      (hset : c.operator = .inSet ∨ c.operator = .notInSet)
      (hvalue : c.value = .array [] ∨ c.value = .null) : Lacks (.filter config) "IN list"
  | aggregateField {config : AggregateConfig} {a : Aggregation} (ha : a ∈ config.aggregations)
      (hfunction : a.function ≠ .count) (hfield : ¬ Text.HasContent a.field) :
      Lacks (.aggregate config) "aggregate field"
  | viewName {config : OutputConfig} (h : ¬ Text.HasContent config.viewName) :
      Lacks (.output config) "view name"

/-- Facts with the numbers of columns, inputs, conditions and aggregations of a node; an event
    without fields selects the fallback columns of the settings. -/
inductive Content.Counts (settings : Settings) (inputs : List Input) : Content → Metadata → Prop
  | event {config : EventConfig} {name : Option String} (h : config.fields ≠ []) :
      Counts settings inputs (.event config) (.event name config.fields.length false)
  | fallback {config : EventConfig} {name : Option String} (h : config.fields = []) :
      Counts settings inputs (.event config) (.event name settings.fallbackColumns.length true)
  | unionAll : Counts settings inputs .unionAll (.unionAll inputs.length)
  | join {config : JoinConfig} {type : JoinType} :
      Counts settings inputs (.join config) (.join type config.conditions.length)
  | filter {config : FilterConfig} :
      Counts settings inputs (.filter config) (.filter config.conditions.length)
  | aggregate {config : AggregateConfig} :
      Counts settings inputs (.aggregate config)
        (.aggregate config.groupBy config.aggregations.length)
  | output {config : OutputConfig} {name space : String} :
      Counts settings inputs (.output config) (.output name space)

/-! ### Configurations -/

namespace Content

variable {c : Content} {field : String}

/-- What a configuration lacks is what the check finds missing. -/
theorem lacks_iff : c.Lacks field ↔ c.missing? = some field := by
  constructor
  · intro h
    cases h with
    | joinCondition h => simp [missing?, h]
    | list hc hset hvalue =>
      exact if_pos (List.any_eq_true.mpr ⟨_, hc, Filter.comparesWithNothing_iff.mpr ⟨hset, hvalue⟩⟩)
    | aggregateField ha hfunction hfield =>
      exact if_pos (List.any_eq_true.mpr ⟨_, ha, Aggregate.lacksField_iff.mpr ⟨hfunction, hfield⟩⟩)
    | viewName h =>
      rw [← Text.content?_isSome_iff] at h
      simpa [missing?] using h
  · intro h
    -- Only the kinds that check something can lack anything, each one thing under one name.
    cases c with
    | event config => simp [missing?] at h
    | unionAll => simp [missing?] at h
    | join config =>
      simp only [missing?, Option.ite_none_right_eq_some, List.isEmpty_iff, Option.some.injEq] at h
      obtain ⟨hnil, rfl⟩ := h
      exact .joinCondition hnil
    | filter config =>
      simp only [missing?, Option.ite_none_right_eq_some, List.any_eq_true, Option.some.injEq] at h
      obtain ⟨⟨c, hc, hnothing⟩, rfl⟩ := h
      obtain ⟨hset, hvalue⟩ := Filter.comparesWithNothing_iff.mp hnothing
      exact .list hc hset hvalue
    | aggregate config =>
      simp only [missing?, Option.ite_none_right_eq_some, List.any_eq_true, Option.some.injEq] at h
      obtain ⟨⟨a, ha, hlacks⟩, rfl⟩ := h
      obtain ⟨hfunction, hfield⟩ := Aggregate.lacksField_iff.mp hlacks
      exact .aggregateField ha hfunction hfield
    | output config =>
      simp only [missing?, Option.ite_none_right_eq_some, Option.some.injEq] at h
      obtain ⟨hnone, rfl⟩ := h
      refine .viewName ?_
      rwa [← Text.content?_isSome_iff, Bool.not_eq_true, Option.isSome_eq_false_iff]

/-- A configuration lacks one thing at most. -/
theorem Lacks.unique {field' : String} (h : c.Lacks field) (h' : c.Lacks field') :
    field = field' :=
  Option.some.inj ((lacks_iff.mp h).symm.trans (lacks_iff.mp h'))

theorem complete_iff_not_lacks : c.Complete ↔ ¬ ∃ field, c.Lacks field := by
  rw [← missing?_eq_none_iff, Option.eq_none_iff_forall_ne_some, not_exists]
  exact forall_congr' fun field => not_congr lacks_iff.symm

/-- The facts about a fragment count what its node was configured with. -/
theorem Yields.counts {settings : Settings} {context : Context} {inputs : List Input}
    {f : Fragment} (h : c.Yields settings context inputs f) :
    c.Counts settings inputs f.metadata := by
  cases h with
  | @event config =>
    -- An event is said to fall back on other columns if it has no fields.
    by_cases hfields : config.fields = []
    · have hfacts : (Event.fragment settings context config).metadata
          = .event (Text.content? config.eventName) settings.fallbackColumns.length true := by
        simp [Event.fragment, Event.items, hfields]
      exact hfacts ▸ .fallback hfields
    · have hfacts : (Event.fragment settings context config).metadata
          = .event (Text.content? config.eventName) config.fields.length false := by
        simp [Event.fragment, Event.items, hfields]
      exact hfacts ▸ .event hfields
  | unionAll => exact .unionAll
  | join => exact .join
  | filter => exact .filter
  | aggregate => exact .aggregate
  | output => exact .output

end Content

/-! ### Positions of inputs -/

/-- How many inputs a node looks up by position: a join two, unless it fails for its conditions
    before it looks at its inputs, and a node with one input that one. -/
def Content.reach : Content → Nat
  | .event _ | .unionAll => 0
  | .join config => if config.conditions.isEmpty then 0 else 2
  | .filter _ | .aggregate _ | .output _ => 1

/-- One input cannot come through both handles, so without a second input a side is missing. -/
theorem Join.sides?_eq_none_iff {inputs : List Input} :
    sides? inputs = none ↔ inputs.length < 2 := by
  constructor
  · intro h
    by_contra hcount
    have hsome := isSome_sides? (Nat.le_of_not_lt hcount)
    simp [h] at hsome
  · intro h
    rcases inputs with _ | ⟨i, _ | ⟨i', rest⟩⟩
    · rfl
    · -- Only if the input came through both handles could each side be found by its handle.
      by_cases hleft : i.handle = some leftHandle
      · simp [sides?, throughHandle, hleft]
      · simp [sides?, throughHandle, hleft]
    · exact absurd h (by simp)

/-- Without the check of their number, a node looks for an input that is not there exactly if it
    has fewer than it looks up. -/
theorem Node.fragment?_eq_none_iff {settings : Settings} {context : Context} {n : Node}
    {inputs : List Input} :
    n.fragment? settings context inputs = none ↔ inputs.length < n.content.reach := by
  obtain ⟨id, content⟩ := n
  cases content with
  | event config => simp [fragment?, Content.reach]
  | unionAll => simp [fragment?, Content.reach]
  | join config =>
    -- A join without conditions fails before it looks at its inputs.
    by_cases hconditions : config.conditions = []
    · simp [fragment?, Content.reach, Content.missing?, hconditions]
    · simp [fragment?, Content.reach, Content.missing?, hconditions, Join.sides?_eq_none_iff]
  | filter config => simp [fragment?, Content.reach]
  | aggregate config => simp [fragment?, Content.reach]
  | output config => simp [fragment?, Content.reach]

/-! ### Nodes -/

namespace Node

variable {settings : Settings} {context : Context} {n : Node} {inputs : List Input}

/-- A failure for the number of inputs, which comes before all others. -/
theorem compile_eq_arity_iff {id : NodeId} {kind : Kind} {expected : Arity} {found : Nat} :
    n.compile settings context inputs = .error (.arity id kind expected found) ↔
      n.kind.arity.accepts inputs.length = false ∧
        id = n.id ∧ kind = n.kind ∧ expected = n.kind.arity ∧ found = inputs.length := by
  rcases n.compile_cases settings context inputs with
    ⟨harity, hcompile⟩ | ⟨harity, field, -, hcompile⟩ | ⟨harity, -, f, hcompile, -⟩
  · simp [hcompile, harity, miswired, eq_comm]
  · simp [hcompile, harity, lacking]
  · simp [hcompile, harity]

/-- A failure for the configuration of a node with the right number of inputs. -/
theorem compile_eq_missingConfig_iff {id : NodeId} {kind : Kind} {field : String} :
    n.compile settings context inputs = .error (.missingConfig id kind field) ↔
      n.kind.arity.accepts inputs.length = true ∧ n.content.Lacks field ∧
        id = n.id ∧ kind = n.kind := by
  rcases n.compile_cases settings context inputs with
    ⟨harity, hcompile⟩ | ⟨harity, field', hfield', hcompile⟩ | ⟨harity, hnone, f, hcompile, -⟩
  · simp [hcompile, harity, miswired]
  · -- Of the fields that a configuration may lack only one is reported.
    have hlacks := Content.lacks_iff.mpr hfield'
    have hsame : n.content.Lacks field ↔ field' = field :=
      ⟨fun hfield => hlacks.unique hfield, fun heq => heq ▸ hlacks⟩
    rw [hcompile, hsame]
    simp only [lacking, harity, Except.error.injEq, NodeFailure.missingConfig.injEq, true_and,
      eq_comm (a := n.id), eq_comm (a := n.kind)]
    tauto
  · have hlacks : ¬ n.content.Lacks field := by simp [Content.lacks_iff, hnone]
    simp [hcompile, hlacks]

/-- To skip a node is not for the node to decide. -/
theorem compile_ne_skipped (id failed : NodeId) :
    n.compile settings context inputs ≠ .error (.skipped id failed) := by
  rcases n.compile_cases settings context inputs with
    ⟨-, hcompile⟩ | ⟨-, field, -, hcompile⟩ | ⟨-, -, f, hcompile, -⟩ <;>
    simp [hcompile, miswired, lacking]

/-- A node has a fragment, made of its inputs, exactly if their number is right and nothing is
    lacking. -/
theorem exists_compile_yields_iff (settings : Settings) (context : Context) (n : Node)
    (inputs : List Input) :
    (∃ f, n.compile settings context inputs = .ok f ∧
        n.content.Yields settings context inputs f) ↔
      n.kind.arity.accepts inputs.length = true ∧ ¬ ∃ field, n.content.Lacks field := by
  rw [← Content.complete_iff_not_lacks, ← exists_compile_iff]
  exact exists_congr fun f => and_iff_left_of_imp yields_of_compile

end Node

/-- **What a node compiles to.**  A node with fewer inputs than it looks up by position would look
    for one that is not there, but the check of their number keeps it from that, whatever its
    inputs are, so that there is always a result.  It fails for the number of its inputs exactly
    if its kind does not take as many, whatever its configuration is; it fails for its
    configuration exactly if the number is right and something is lacking; and otherwise it has a
    fragment of its kind, with facts of its kind that count what it was configured with.  The
    fragment is made of the inputs that are there. -/
theorem compile_outcome_iff (settings : Settings) (context : Context) (n : Node)
    (inputs : List Input) :
    (n.fragment? settings context inputs = none ↔ inputs.length < n.content.reach) ∧
      n.compile? settings context inputs = some (n.compile settings context inputs) ∧
      (∀ id kind expected found,
        n.compile settings context inputs = .error (.arity id kind expected found) ↔
          n.kind.arity.accepts inputs.length = false ∧
            id = n.id ∧ kind = n.kind ∧ expected = n.kind.arity ∧ found = inputs.length) ∧
      (∀ id kind field,
        n.compile settings context inputs = .error (.missingConfig id kind field) ↔
          n.kind.arity.accepts inputs.length = true ∧ n.content.Lacks field ∧
            id = n.id ∧ kind = n.kind) ∧
      (∀ id failed, n.compile settings context inputs ≠ .error (.skipped id failed)) ∧
      ((∃ f, n.compile settings context inputs = .ok f ∧ f.kind = n.kind ∧
          f.metadata.kind = n.kind ∧ n.content.Counts settings inputs f.metadata ∧
          n.content.Yields settings context inputs f) ↔
        n.kind.arity.accepts inputs.length = true ∧ ¬ ∃ field, n.content.Lacks field) := by
  refine ⟨Node.fragment?_eq_none_iff, n.compile?_eq settings context inputs,
    fun _ _ _ _ => Node.compile_eq_arity_iff, fun _ _ _ => Node.compile_eq_missingConfig_iff,
    Node.compile_ne_skipped, ?_⟩
  rw [← Node.exists_compile_yields_iff settings context]
  refine exists_congr fun f => and_congr_right fun _ => ⟨fun h => h.2.2.2, fun h => ?_⟩
  exact ⟨h.kind_eq.1, h.kind_eq.2, h.counts, h⟩

end QueryGraph
