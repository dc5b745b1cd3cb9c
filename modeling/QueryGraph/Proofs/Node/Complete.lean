import Mathlib.Data.List.Forall2
import QueryGraph.Node.Compile

namespace QueryGraph

/-!
# When a node has a fragment

* `Content.Complete`: a configuration that has everything its kind needs.
* `Content.missing?_eq_none_iff`: nothing is missing exactly from a complete configuration.
* `Content.Yields`: what a configuration makes of inputs.
* `Node.compile_cases`: a node fails for the number of its inputs, or else for what its
  configuration lacks, or else it has the fragment that its configuration makes of its inputs.
* `Node.exists_compile_iff`: so it has a fragment exactly if it has as many inputs as its kind
  takes and its configuration is complete.
* `Join.sides_eq`: the inputs of a join change places exactly if the first one comes through the
  right handle and the second one through the left handle.
* `Join.related_sides`: the sides of a join go with any relation that keeps the handles.
-/

namespace Text

/-- The text is there, and something of it is left when blank characters are trimmed. -/
def HasContent (s : Option String) : Prop := ∃ t, s = some t ∧ trim t ≠ ""

/-- What is left of a text when it is trimmed is its content, if anything is. -/
theorem content?_isSome_iff {s : Option String} : (content? s).isSome ↔ HasContent s := by
  cases s with
  | none => simp [HasContent]
  | some t =>
    simp only [content?, HasContent, Option.some.injEq, exists_eq_left']
    by_cases h : trim t = ""
    · simp [h]
    · rw [if_neg (by rwa [String.isEmpty_iff])]
      simp [h]

end Text

/-- The configuration has what a node of its kind needs: a join its conditions, a set comparison
    a set, an aggregation other than a count its field, and an output its name. -/
def Content.Complete : Content → Prop
  | .event _ | .unionAll => True
  | .join config => config.conditions ≠ []
  | .filter config =>
    ∀ c ∈ config.conditions, c.operator = .inSet ∨ c.operator = .notInSet →
      c.value ≠ .array [] ∧ c.value ≠ .null
  | .aggregate config =>
    ∀ a ∈ config.aggregations, a.function ≠ .count → Text.HasContent a.field
  | .output config => Text.HasContent config.viewName

namespace Filter

/-- A condition that compares a set with nothing has an empty list or no value. -/
theorem comparesWithNothing_iff {c : FilterCondition} :
    comparesWithNothing c = true ↔
      (c.operator = .inSet ∨ c.operator = .notInSet) ∧ (c.value = .array [] ∨ c.value = .null) := by
  have hset : c.operator.isSet = true ↔ c.operator = .inSet ∨ c.operator = .notInSet := by
    cases c.operator <;> simp [Comparison.isSet]
  rw [comparesWithNothing, Bool.and_eq_true, hset]
  refine and_congr_right fun _ => ?_
  cases c.value <;> simp

end Filter

namespace Aggregate

/-- Only a count can do without a field. -/
theorem lacksField_iff {a : Aggregation} :
    lacksField a = true ↔ a.function ≠ .count ∧ ¬ Text.HasContent a.field := by
  have hfunction : a.function.requiresField = true ↔ a.function ≠ .count := by
    cases a.function <;> simp [AggregateFunction.requiresField]
  rw [lacksField, Bool.and_eq_true, hfunction, field?, ← Text.content?_isSome_iff]
  simp

end Aggregate

/-- The check finds nothing missing exactly if the configuration is complete. -/
theorem Content.missing?_eq_none_iff (c : Content) : c.missing? = none ↔ c.Complete := by
  cases c with
  | event config => simp [missing?, Complete]
  | unionAll => simp [missing?, Complete]
  | join config => simp [missing?, Complete]
  | filter config =>
    simp only [missing?, ite_eq_right_iff, reduceCtorEq, imp_false, List.any_eq_true,
      Filter.comparesWithNothing_iff, Complete, not_exists, not_and, not_or]
  | aggregate config =>
    simp only [missing?, ite_eq_right_iff, reduceCtorEq, imp_false, List.any_eq_true,
      Aggregate.lacksField_iff, Complete, not_exists, not_and, not_not]
  | output config =>
    rw [Complete, ← Text.content?_isSome_iff]
    cases h : Text.content? config.viewName <;> simp [missing?, h]

theorem Arity.accepts_exactly {n found : Nat} :
    (Arity.exactly n).accepts found = true ↔ found = n := by
  simp [accepts]

/-- A kind that takes some number of inputs above zero does not take none. -/
theorem Kind.not_accepts_zero {k : Kind} {count : Nat} (hpos : count ≠ 0)
    (h : k.arity.accepts count = true) : k.arity.accepts 0 = false := by
  cases k <;> simp_all [Kind.arity, Arity.accepts]

/-! ### What the fragment is -/

/-- The left and the right one of two inputs: by handle if both handles are used, else in their
    order. -/
def Join.sides (first second : Input) : Input × Input :=
  match throughHandle leftHandle [first, second], throughHandle rightHandle [first, second] with
  | some left, some right => (left, right)
  | _, _ => (first, second)

/-- Of two inputs there are always two sides. -/
theorem Join.sides?_pair (first second : Input) :
    sides? [first, second] = some (sides first second) := by
  unfold sides? sides
  cases throughHandle leftHandle [first, second] with
  | none => rfl
  | some left => cases throughHandle rightHandle [first, second] <;> rfl

/-- What a configuration makes of as many inputs as its kind takes. -/
inductive Content.Yields (settings : Settings) (context : Context) :
    Content → List Input → Fragment → Prop
  | event {config : EventConfig} :
      Yields settings context (.event config) [] (Event.fragment settings context config)
  | unionAll {inputs : List Input} (hcount : 2 ≤ inputs.length) :
      Yields settings context .unionAll inputs (UnionAll.fragment inputs)
  | join {config : JoinConfig} {first second : Input} :
      Yields settings context (.join config) [first, second]
        (Join.fragment settings config (Join.sides first second).1 (Join.sides first second).2)
  | filter {config : FilterConfig} {input : Input} :
      Yields settings context (.filter config) [input] (Filter.fragment settings config input)
  | aggregate {config : AggregateConfig} {input : Input} :
      Yields settings context (.aggregate config) [input]
        (Aggregate.fragment settings config input)
  | output {config : OutputConfig} {name : String} {input : Input}
      (hname : Text.content? config.viewName = some name) :
      Yields settings context (.output config) [input]
        (Output.fragment settings context name input)

namespace Content

variable {settings : Settings} {context : Context} {content : Content} {inputs : List Input}
  {f : Fragment}

/-- A fragment and the facts about it are of the kind of the configuration behind it. -/
theorem Yields.kind_eq (h : content.Yields settings context inputs f) :
    f.kind = content.kind ∧ f.metadata.kind = content.kind := by
  cases h <;> exact ⟨rfl, rfl⟩

/-- A configuration makes nothing of inputs that are too few or too many. -/
theorem Yields.accepts (h : content.Yields settings context inputs f) :
    content.kind.arity.accepts inputs.length = true := by
  cases h with
  | unionAll hcount => exact decide_eq_true hcount
  | event | join | filter | aggregate | output => rfl

/-- Of the right number of inputs a configuration makes a fragment if nothing is missing. -/
theorem exists_yields (settings : Settings) (context : Context)
    (harity : content.kind.arity.accepts inputs.length = true)
    (hmissing : content.missing? = none) :
    ∃ f, content.Yields settings context inputs f := by
  -- Where a kind takes a fixed number of inputs, the list of them has only one shape.
  cases content with
  | event config =>
    obtain rfl := List.length_eq_zero_iff.mp (Arity.accepts_exactly.mp harity)
    exact ⟨_, .event⟩
  | unionAll => exact ⟨_, .unionAll (of_decide_eq_true harity)⟩
  | join config =>
    obtain ⟨first, second, rfl⟩ := List.length_eq_two.mp (Arity.accepts_exactly.mp harity)
    exact ⟨_, .join⟩
  | filter config =>
    obtain ⟨input, rfl⟩ := List.length_eq_one_iff.mp (Arity.accepts_exactly.mp harity)
    exact ⟨_, .filter⟩
  | aggregate config =>
    obtain ⟨input, rfl⟩ := List.length_eq_one_iff.mp (Arity.accepts_exactly.mp harity)
    exact ⟨_, .aggregate⟩
  | output config =>
    obtain ⟨input, rfl⟩ := List.length_eq_one_iff.mp (Arity.accepts_exactly.mp harity)
    -- The name of a view is what can be missing from an output.
    obtain ⟨name, hname⟩ := Option.isSome_iff_exists.mp
      (Text.content?_isSome_iff.mpr ((missing?_eq_none_iff _).mp hmissing))
    exact ⟨_, .output hname⟩

end Content

/-! ### What becomes of a node -/

namespace Node

variable {settings : Settings} {context : Context} {n : Node} {inputs : List Input}
  {f : Fragment} {field : String}

/-- The failure of a node with a wrong number of inputs. -/
def miswired (n : Node) (inputs : List Input) : NodeFailure :=
  .arity n.id n.kind n.kind.arity inputs.length

/-- There is always a result, the one that the node compiles to. -/
theorem compile?_eq (settings : Settings) (context : Context) (n : Node) (inputs : List Input) :
    n.compile? settings context inputs = some (n.compile settings context inputs) :=
  (Option.some_get _).symm

theorem compile_eq_iff {r : Except NodeFailure Fragment} :
    n.compile settings context inputs = r ↔ n.compile? settings context inputs = some r := by
  rw [compile?_eq, Option.some.injEq]

/-- A wrong number of inputs is all that is reported of a node. -/
theorem compile_of_not_accepts (harity : n.kind.arity.accepts inputs.length = false) :
    n.compile settings context inputs = .error (n.miswired inputs) := by
  rw [compile_eq_iff, compile?, checkArity, harity]
  rfl

/-- With the right number of inputs, only the fragment is left to make. -/
theorem compile?_of_accepts (harity : n.kind.arity.accepts inputs.length = true) :
    n.compile? settings context inputs = n.fragment? settings context inputs := by
  rw [compile?, checkArity, if_pos harity]

/-- With the right number of inputs, what is missing is reported. -/
theorem compile_of_missing (harity : n.kind.arity.accepts inputs.length = true)
    (hmissing : n.content.missing? = some field) :
    n.compile settings context inputs = .error (n.lacking field) := by
  rw [compile_eq_iff, compile?_of_accepts harity]
  obtain ⟨id, content⟩ := n
  cases content with
  | event config => simp [Content.missing?] at hmissing
  | unionAll => simp [Content.missing?] at hmissing
  | join config => simp only [fragment?, hmissing]
  | filter config | aggregate config =>
    obtain ⟨input, rfl⟩ := List.length_eq_one_iff.mp (Arity.accepts_exactly.mp harity)
    simp [fragment?, unlessLacking, hmissing]
  | output config =>
    obtain ⟨input, rfl⟩ := List.length_eq_one_iff.mp (Arity.accepts_exactly.mp harity)
    -- Nothing but its name can be missing from an output.
    simp only [Content.missing?, Option.ite_none_right_eq_some, Option.some.injEq,
      Option.isNone_iff_eq_none] at hmissing
    obtain ⟨hname, rfl⟩ := hmissing
    simp [fragment?, hname]

/-- With nothing missing, a node has the fragment that its configuration makes of its inputs. -/
theorem compile_of_yields (hmissing : n.content.missing? = none)
    (h : n.content.Yields settings context inputs f) :
    n.compile settings context inputs = .ok f := by
  rw [compile_eq_iff, compile?_of_accepts h.accepts]
  obtain ⟨id, content⟩ := n
  -- The inputs have the shape that the kind looks for, so all positions are taken.
  cases h with
  | event => rfl
  | unionAll hcount => rfl
  | join => simp only [fragment?, hmissing, Join.sides?_pair, Option.map_some]
  | filter => simp [fragment?, unlessLacking, hmissing]
  | aggregate => simp [fragment?, unlessLacking, hmissing]
  | output hname => simp [fragment?, hname]

/-- The number of inputs counts first, the configuration second. -/
theorem compile_cases (settings : Settings) (context : Context) (n : Node)
    (inputs : List Input) :
    (n.kind.arity.accepts inputs.length = false ∧
        n.compile settings context inputs = .error (n.miswired inputs)) ∨
      (n.kind.arity.accepts inputs.length = true ∧ ∃ field, n.content.missing? = some field ∧
        n.compile settings context inputs = .error (n.lacking field)) ∨
      (n.kind.arity.accepts inputs.length = true ∧ n.content.missing? = none ∧
        ∃ f, n.compile settings context inputs = .ok f ∧
          n.content.Yields settings context inputs f) := by
  by_cases harity : n.kind.arity.accepts inputs.length = true
  · right
    cases hmissing : n.content.missing? with
    | some field => exact Or.inl ⟨harity, field, rfl, compile_of_missing harity hmissing⟩
    | none =>
      obtain ⟨f, hf⟩ := Content.exists_yields settings context harity hmissing
      exact Or.inr ⟨harity, rfl, f, compile_of_yields hmissing hf, hf⟩
  · rw [Bool.not_eq_true] at harity
    exact Or.inl ⟨harity, compile_of_not_accepts harity⟩

/-- A node has a fragment exactly if it has the right number of inputs and a complete
    configuration. -/
theorem exists_compile_iff :
    (∃ f, n.compile settings context inputs = .ok f) ↔
      n.kind.arity.accepts inputs.length = true ∧ n.content.Complete := by
  rw [← Content.missing?_eq_none_iff]
  rcases n.compile_cases settings context inputs with
    ⟨harity, hcompile⟩ | ⟨harity, field, hmissing, hcompile⟩ | ⟨harity, hmissing, f, hcompile, -⟩
  · simp [hcompile, harity]
  · simp [hcompile, hmissing]
  · simp [hcompile, harity, hmissing]

/-- A node that fails by itself has too few or too many inputs or lacks a field. -/
theorem eq_of_compile_error {e : NodeFailure}
    (h : n.compile settings context inputs = .error e) :
    e = .arity n.id n.kind n.kind.arity inputs.length ∨
      ∃ field, n.content.missing? = some field ∧ e = .missingConfig n.id n.kind field := by
  rcases n.compile_cases settings context inputs with
    ⟨-, hcompile⟩ | ⟨-, field, hmissing, hcompile⟩ | ⟨-, -, f, hcompile, -⟩
  · exact Or.inl (Except.error.inj (h.symm.trans hcompile))
  · exact Or.inr ⟨field, hmissing, Except.error.inj (h.symm.trans hcompile)⟩
  · simp [hcompile] at h

/-- The fragment of a node is what its configuration makes of its inputs. -/
theorem yields_of_compile (h : n.compile settings context inputs = .ok f) :
    n.content.Yields settings context inputs f := by
  rcases n.compile_cases settings context inputs with
    ⟨-, hcompile⟩ | ⟨-, field, -, hcompile⟩ | ⟨-, -, f', hcompile, hyields⟩
  · simp [hcompile] at h
  · simp [hcompile] at h
  · rwa [← Except.ok.inj (hcompile.symm.trans h)]

end Node

/-! ### Related lists -/

section Related

variable {α β : Type} {s : α → β → Prop} {first second : α} {bs : List β}

/-- What goes with one item is one item. -/
theorem exists_eq_singleton (h : List.Forall₂ s [first] bs) :
    ∃ first', s first first' ∧ bs = [first'] := by
  obtain ⟨first', rest, hfirst, hrest, rfl⟩ := List.forall₂_cons_left_iff.mp h
  obtain rfl := List.forall₂_nil_left_iff.mp hrest
  exact ⟨first', hfirst, rfl⟩

/-- What goes with two items is two items. -/
theorem exists_eq_pair (h : List.Forall₂ s [first, second] bs) :
    ∃ first' second', s first first' ∧ s second second' ∧ bs = [first', second'] := by
  obtain ⟨first', rest, hfirst, hrest, rfl⟩ := List.forall₂_cons_left_iff.mp h
  obtain ⟨second', hsecond, rfl⟩ := exists_eq_singleton hrest
  exact ⟨first', second', hfirst, hsecond, rfl⟩

end Related

/-! ### The sides of a join -/

/-- Only inputs whose handles say so change places. -/
theorem Join.sides_eq (first second : Input) :
    sides first second
      = if first.handle = some rightHandle ∧ second.handle = some leftHandle then (second, first)
        else (first, second) := by
  by_cases hswap : first.handle = some rightHandle ∧ second.handle = some leftHandle
  · obtain ⟨hright, hleft⟩ := hswap
    simp [sides, throughHandle, hright, hleft, leftHandle_ne_rightHandle.symm]
  · rw [if_neg hswap]
    -- Where an input comes through the left handle, it is found there and not on the right.
    by_cases hfirst : first.handle = some leftHandle
    · by_cases hsecond : second.handle = some rightHandle <;>
        simp [sides, throughHandle, hfirst, hsecond]
    · by_cases hsecond : second.handle = some leftHandle
      · have hright : first.handle ≠ some rightHandle := fun h => hswap ⟨h, hsecond⟩
        simp [sides, throughHandle, hfirst, hsecond, hright]
      · simp [sides, throughHandle, hfirst, hsecond]

/-- Inputs that come through the same handles end up on the same sides. -/
theorem Join.related_sides {r : Input → Input → Prop} {first first' second second' : Input}
    (hhandle : ∀ i i', r i i' → i'.handle = i.handle) (hfirst : r first first')
    (hsecond : r second second') :
    r (sides first second).1 (sides first' second').1 ∧
      r (sides first second).2 (sides first' second').2 := by
  rw [sides_eq, sides_eq, hhandle _ _ hfirst, hhandle _ _ hsecond]
  split
  · exact ⟨hsecond, hfirst⟩
  · exact ⟨hfirst, hsecond⟩

end QueryGraph
