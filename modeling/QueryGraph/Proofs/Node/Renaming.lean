import Mathlib.Data.List.Forall2
import QueryGraph.Proofs.Node.Complete
import QueryGraph.Proofs.Node.Shape

namespace QueryGraph

/-!
# Nodes under other names

* `Node.rename`, `NodeFailure.rename`: a node and a failure with other names in them.
* `Text.Composes front whole`: relations between texts that are preserved where queries are put
  together; the first one holds of texts that something follows.
* `Content.Framed`: the relations hold of what a node puts around its inputs.
* `Node.renamed_compile`: on inputs with related texts, the fragments of a node and of the renamed
  node have related texts, or both fail in the same way.
-/

/-- The node under its new name. -/
def Node.rename (f : NodeId → NodeId) (n : Node) : Node := { n with id := f n.id }

/-- The failure of the renamed nodes. -/
def NodeFailure.rename (f : NodeId → NodeId) : NodeFailure → NodeFailure
  | .arity id kind expected found => .arity (f id) kind expected found
  | .missingConfig id kind field => .missingConfig (f id) kind field
  | .skipped id failed => .skipped (f id) (f failed)

@[simp] theorem NodeFailure.isSkipped_rename (f : NodeId → NodeId) (e : NodeFailure) :
    (e.rename f).isSkipped = e.isSkipped := by
  cases e <;> rfl

/-! ### Relations between texts -/

/-- Two relations between texts: `whole` of the texts of fragments, `front` of texts that
    something may follow.  They are preserved by what queries do with the texts of their
    inputs: to put one behind another, to set one off, and to go on with another input. -/
structure Text.Composes (front whole : String → String → Prop) : Prop where
  append : ∀ {s s' t t'}, front s s' → whole t t' → whole (s ++ t) (s' ++ t')
  chain : ∀ {s s' t t'}, front s s' → front t t' → front (s ++ t) (s' ++ t')
  setOff : ∀ {s s'}, whole s s' →
    front ("\n" ++ Text.indent s ++ "\n") ("\n" ++ Text.indent s' ++ "\n")
  unite : ∀ {s s'}, whole s s' → front (s ++ "\nUNION ALL\n") (s' ++ "\nUNION ALL\n")

/-- What stands in front of the input of a filter and of the left input of a join. -/
def selectionHead : String := "SELECT *\nFROM ("

/-- What stands between the inputs of a join. -/
def Join.middle (settings : Settings) (config : JoinConfig) : String :=
  ") AS " ++ settings.leftAlias ++ "\n" ++ (config.joinType.getD .inner).keyword ++ " ("

/-- What stands behind the right input of a join. -/
def Join.tail (settings : Settings) (config : JoinConfig) : String :=
  ") AS " ++ settings.rightAlias ++ "\nON " ++
    " AND ".intercalate (config.conditions.map Join.condition)

/-- What stands behind the input of a filter. -/
def Filter.tail (settings : Settings) (config : FilterConfig) : String :=
  ") AS " ++ settings.subqueryAlias ++ "\nWHERE " ++ Filter.predicate config

/-- What stands behind the input of an aggregate. -/
def Aggregate.tail (settings : Settings) (config : AggregateConfig) : String :=
  ") AS " ++ settings.subqueryAlias ++ Aggregate.grouping config

/-- What stands in front of the input of an output. -/
def Output.head (settings : Settings) (context : Context) (viewName : String) : String :=
  "CREATE OR REPLACE VIEW " ++ settings.namespaceFor context.game ++ "." ++ viewName ++ " AS\n"

/-- The relations hold, each where it is asked for, of the texts that a node puts around its
    inputs and itself. -/
def Content.Framed (front whole : String → String → Prop) (settings : Settings)
    (context : Context) : Content → Prop
  | .event config =>
    let text := (Event.fragment settings context config).text
    whole text text
  | .unionAll => True
  | .join config =>
    front selectionHead selectionHead ∧
      front (Join.middle settings config) (Join.middle settings config) ∧
      whole (Join.tail settings config) (Join.tail settings config)
  | .filter config =>
    front selectionHead selectionHead ∧
      whole (Filter.tail settings config) (Filter.tail settings config)
  | .aggregate config =>
    let head := Aggregate.selection config ++ "\nFROM ("
    front head head ∧ whole (Aggregate.tail settings config) (Aggregate.tail settings config)
  | .output config =>
    ∀ name ∈ Text.content? config.viewName,
      front (Output.head settings context name) (Output.head settings context name)

private theorem selectionHead_eq : selectionHead = "SELECT *\nFROM " ++ "(" := rfl

private theorem close_eq : ") AS " = ")" ++ " AS " := rfl

/-! ### Fragments -/

/-- Fragments with the same facts, whose texts are related. -/
structure Fragment.Related (r : String → String → Prop) (g g' : Fragment) : Prop where
  kind_eq : g'.kind = g.kind
  metadata_eq : g'.metadata = g.metadata
  text : r g.text g'.text

/-- An input and the input from the renamed node through the same edge. -/
structure Input.Renamed (f : NodeId → NodeId) (r : String → String → Prop) (i i' : Input) :
    Prop where
  node_eq : i'.node = f i.node
  handle_eq : i'.handle = i.handle
  fragment : i.fragment.Related r i'.fragment

/-- Fragments with related texts, or a failure and the failure of the renamed nodes. -/
def RenamedResult (f : NodeId → NodeId) (r : String → String → Prop) :
    Except NodeFailure Fragment → Except NodeFailure Fragment → Prop
  | .ok g, .ok g' => g.Related r g'
  | .error e, .error e' => e' = e.rename f
  | _, _ => False

section Kinds

variable {f : NodeId → NodeId} {front whole : String → String → Prop} {settings : Settings}
  {context : Context} {input input' : Input} (hwhole : Text.Composes front whole)

include hwhole

/-- The blocks of a union are related if the comments above its inputs are. -/
theorem UnionAll.related_fragment {inputs inputs' : List Input}
    (h : List.Forall₂ (Input.Renamed f whole) inputs inputs')
    (hheader : ∀ i ∈ inputs, ∀ i', i.Renamed f whole i' → ∀ position,
      front ("--" ++ header position i ++ "\n") ("--" ++ header position i' ++ "\n"))
    (hne : inputs ≠ []) : (fragment inputs).Related whole (fragment inputs') := by
  refine ⟨rfl, congrArg Metadata.unionAll h.length_eq.symm, ?_⟩
  show whole ("\nUNION ALL\n".intercalate (blocks 1 inputs))
    ("\nUNION ALL\n".intercalate (blocks 1 inputs'))
  -- Positions count up along the list, so the induction is for all first positions.
  generalize 1 = position
  induction h generalizing position with
  | nil => exact absurd rfl hne
  | @cons i i' rest rest' hi hrest ih =>
    rw [List.forall_mem_cons] at hheader
    have hblock : whole (block position i) (block position i') := by
      rw [block_eq, block_eq]
      exact hwhole.append (hheader.1 i' hi position) hi.fragment.text
    -- Only what another block follows is a front, which the last block need not be.
    cases hrest with
    | nil => simpa [blocks] using hblock
    | cons hj hrest =>
      have hlater := ih hheader.2 (List.cons_ne_nil _ _) (position + 1)
      simp only [blocks, String.intercalate_cons_cons] at hlater ⊢
      exact hwhole.append (hwhole.unite hblock) hlater

/-- Joins of related inputs are related, as the text is made of what stands in front of each input,
    between the two and behind the second one. -/
theorem Join.related_fragment {config : JoinConfig} {left left' right right' : Input}
    (hframe : (Content.join config).Framed front whole settings context)
    (hleft : left.Renamed f whole left') (hright : right.Renamed f whole right') :
    (fragment settings config left right).Related whole
      (fragment settings config left' right') := by
  obtain ⟨hhead, hmiddle, htail⟩ := hframe
  have htext : ∀ left right : Input, (fragment settings config left right).text
      = selectionHead ++ ("\n" ++ Text.indent left.text ++ "\n") ++
          (middle settings config ++ ("\n" ++ Text.indent right.text ++ "\n")) ++
          tail settings config := by
    intro left right
    have hopen : " (" = " " ++ "(" := rfl
    simp only [fragment, derivedTable_eq, middle, tail, selectionHead_eq, close_eq, hopen,
      String.append_assoc]
  refine ⟨rfl, rfl, ?_⟩
  rw [htext, htext]
  -- Both inputs are set off and something follows each, so up to here all is a front.
  have hboth := hwhole.chain (hwhole.chain hhead (hwhole.setOff hleft.fragment.text))
    (hwhole.chain hmiddle (hwhole.setOff hright.fragment.text))
  exact hwhole.append hboth htail

/-- Filters of related inputs are related. -/
theorem Filter.related_fragment {config : FilterConfig}
    (hframe : (Content.filter config).Framed front whole settings context)
    (hinput : input.Renamed f whole input') :
    (fragment settings config input).Related whole (fragment settings config input') := by
  obtain ⟨hhead, htail⟩ := hframe
  have htext : ∀ input : Input, (fragment settings config input).text
      = selectionHead ++ ("\n" ++ Text.indent input.text ++ "\n") ++
          tail settings config := by
    intro input
    simp only [fragment, derivedTable_eq, tail, selectionHead_eq, close_eq, String.append_assoc]
  refine ⟨rfl, rfl, ?_⟩
  rw [htext, htext]
  exact hwhole.append (hwhole.chain hhead (hwhole.setOff hinput.fragment.text)) htail

/-- Aggregates of related inputs are related. -/
theorem Aggregate.related_fragment {config : AggregateConfig}
    (hframe : (Content.aggregate config).Framed front whole settings context)
    (hinput : input.Renamed f whole input') :
    (fragment settings config input).Related whole (fragment settings config input') := by
  obtain ⟨hhead, htail⟩ := hframe
  have htext : ∀ input : Input, (fragment settings config input).text
      = selection config ++ "\nFROM (" ++ ("\n" ++ Text.indent input.text ++ "\n") ++
          tail settings config := by
    intro input
    have hopen : "\nFROM (" = "\nFROM " ++ "(" := rfl
    simp only [fragment, derivedTable_eq, tail, close_eq, hopen, String.append_assoc]
  refine ⟨rfl, rfl, ?_⟩
  rw [htext, htext]
  exact hwhole.append (hwhole.chain hhead (hwhole.setOff hinput.fragment.text)) htail

/-- Views on related inputs are related; the inputs are not set off. -/
theorem Output.related_fragment {viewName : String}
    (hhead : front (head settings context viewName) (head settings context viewName))
    (hinput : input.Renamed f whole input') :
    (fragment settings context viewName input).Related whole
      (fragment settings context viewName input') :=
  ⟨rfl, rfl, hwhole.append hhead hinput.fragment.text⟩

end Kinds

/-! ### Any node -/

namespace Node

variable {f : NodeId → NodeId} {front whole : String → String → Prop} {settings : Settings}
  {context : Context} {n : Node} {inputs inputs' : List Input}

/-- What a configuration makes of inputs is related to what it makes of the renamed inputs. -/
theorem exists_yields_renamed {g : Fragment} (h : n.content.Yields settings context inputs g)
    (hwhole : Text.Composes front whole) (hframe : n.content.Framed front whole settings context)
    (hheader : n.kind = .unionAll → ∀ i ∈ inputs, ∀ i', i.Renamed f whole i' → ∀ position,
      front ("--" ++ UnionAll.header position i ++ "\n")
        ("--" ++ UnionAll.header position i' ++ "\n"))
    (hinputs : List.Forall₂ (Input.Renamed f whole) inputs inputs') :
    ∃ g', (n.rename f).content.Yields settings context inputs' g' ∧ g.Related whole g' := by
  obtain ⟨id, content⟩ := n
  -- The new name is nowhere but in the comments of a union that the node feeds, so each case is
  -- the lemma on the kind.
  cases h with
  | event =>
    obtain rfl := List.forall₂_nil_left_iff.mp hinputs
    exact ⟨_, .event, rfl, rfl, hframe⟩
  | unionAll hcount =>
    -- The last block has no block behind it, so there has to be one.
    have hne : inputs ≠ [] := by
      rintro rfl
      exact absurd hcount (by decide)
    exact ⟨_, .unionAll (hinputs.length_eq ▸ hcount),
      UnionAll.related_fragment hwhole hinputs (hheader rfl) hne⟩
  | join =>
    obtain ⟨first', second', hfirst, hsecond, rfl⟩ := exists_eq_pair hinputs
    obtain ⟨hleft, hright⟩ := Join.related_sides (fun i i' h => h.handle_eq) hfirst hsecond
    exact ⟨_, .join, Join.related_fragment hwhole hframe hleft hright⟩
  | filter =>
    obtain ⟨input', hinput, rfl⟩ := exists_eq_singleton hinputs
    exact ⟨_, .filter, Filter.related_fragment hwhole hframe hinput⟩
  | aggregate =>
    obtain ⟨input', hinput, rfl⟩ := exists_eq_singleton hinputs
    exact ⟨_, .aggregate, Aggregate.related_fragment hwhole hframe hinput⟩
  | @output config name input hname =>
    obtain ⟨input', hinput, rfl⟩ := exists_eq_singleton hinputs
    exact ⟨_, .output hname, Output.related_fragment hwhole (hframe name hname) hinput⟩

/-- On inputs with related texts, the fragments of a node and of the renamed node have related
    texts, or both fail in the same way. -/
theorem renamed_compile (hwhole : Text.Composes front whole)
    (hframe : n.content.Framed front whole settings context)
    (hheader : n.kind = .unionAll → ∀ i ∈ inputs, ∀ i', i.Renamed f whole i' → ∀ position,
      front ("--" ++ UnionAll.header position i ++ "\n")
        ("--" ++ UnionAll.header position i' ++ "\n"))
    (hinputs : List.Forall₂ (Input.Renamed f whole) inputs inputs') :
    RenamedResult f whole (n.compile settings context inputs)
      ((n.rename f).compile settings context inputs') := by
  have hlength := hinputs.length_eq
  -- Neither the number of inputs nor what is missing depends on names; only the failures have
  -- them.
  rcases n.compile_cases settings context inputs with
    ⟨harity, hcompile⟩ | ⟨harity, field, hmissing, hcompile⟩ |
      ⟨harity, hmissing, g, hcompile, hyields⟩
  · have harity' : (n.rename f).kind.arity.accepts inputs'.length = false := hlength ▸ harity
    rw [hcompile, compile_of_not_accepts harity', miswired, miswired, hlength]
    rfl
  · have harity' : (n.rename f).kind.arity.accepts inputs'.length = true := hlength ▸ harity
    have hmissing' : (n.rename f).content.missing? = some field := hmissing
    rw [hcompile, compile_of_missing harity' hmissing']
    rfl
  · have hmissing' : (n.rename f).content.missing? = none := hmissing
    obtain ⟨g', hyields', hrelated⟩ :=
      exists_yields_renamed hyields hwhole hframe hheader hinputs
    rw [hcompile, compile_of_yields hmissing' hyields']
    exact hrelated

end Node

end QueryGraph
