import Mathlib.Data.List.Forall2
import QueryGraph.Proofs.Node.Complete
import QueryGraph.Proofs.Node.Shape
import QueryGraph.Proofs.Number.Text
import QueryGraph.Proofs.Text.Erasure

namespace QueryGraph

open Text (Alike Neutral isRaw)

/-!
# The text around the literals of a node

* `Json.masked`, `Node.masked`: a value and a node without the texts that queries quote.
* `Query.alike_literal_masked`: a value and its mask are written alike.
* `Node.alike_compile_masked`: on inputs that are alike, so are the fragments of a node and its
  mask, or both fail in the same way.
-/

/-! ### Masks -/

mutual

/-- The value with all texts in it emptied.  An object is quoted as a whole, so nothing is left
    of it. -/
def Json.masked : Json → Json
  | .string _ => .string ""
  | .object _ => .object []
  | .array items => .array (Json.maskedItems items)
  | v => v

/-- The items of an array, masked. -/
def Json.maskedItems : List Json → List Json
  | [] => []
  | v :: rest => v.masked :: Json.maskedItems rest

end

/-- In place of any name that is not blank, always the same one. -/
def Event.maskedName (eventName : Option String) : Option String :=
  (Text.content? eventName).map fun _ => "name"

/-- The field without its path. -/
def EventField.masked (f : EventField) : EventField :=
  match f.source with
  | .column => f
  | .parameter _ => { f with source := .parameter "" }

/-- The condition without the texts in its value. -/
def FilterCondition.masked (c : FilterCondition) : FilterCondition :=
  { c with value := c.value.masked }

/-- The configuration without the texts that its query quotes.  It still says whether events are
    asked for by name. -/
def Content.masked : Content → Content
  | .event config =>
    .event ⟨Event.maskedName config.eventName, config.fields.map EventField.masked⟩
  | .filter config => .filter ⟨config.conditions.map FilterCondition.masked⟩
  | content => content

/-- The node without the texts that its query quotes. -/
def Node.masked (n : Node) : Node := { n with content := n.content.masked }

@[simp] theorem Node.masked_id (n : Node) : n.masked.id = n.id := rfl

@[simp] theorem Content.masked_kind (c : Content) : c.masked.kind = c.kind := by
  cases c <;> rfl

@[simp] theorem Node.masked_kind (n : Node) : n.masked.kind = n.kind :=
  n.content.masked_kind

/-- The mask of a node has everything that the node has. -/
theorem Content.missing?_masked (c : Content) : c.masked.missing? = c.missing? := by
  cases c with
  | event config | unionAll | join config | aggregate config | output config => rfl
  | filter config =>
    -- Whether a filter compares with nothing shows in the mask too: an empty list stays empty.
    have hnothing : ∀ c : FilterCondition,
        Filter.comparesWithNothing c.masked = Filter.comparesWithNothing c := by
      rintro ⟨field, operator, value⟩
      cases value with
      | array items =>
        cases items <;> simp [Filter.comparesWithNothing, FilterCondition.masked, Json.masked,
          Json.maskedItems]
      | null | bool b | number n | string s | object members =>
        simp [Filter.comparesWithNothing, FilterCondition.masked, Json.masked]
    simp only [masked, missing?, List.any_map, Function.comp_def, hnothing]

/-! ### Parts of texts -/

namespace Text

/-- A text that means nothing to the lexer is alike itself. -/
theorem alike_raw {s : String} (h : isRaw s = true) : Alike s s := .refl (neutral_of_raw h)

/-- Two texts that mean nothing to the lexer mean nothing one behind the other. -/
theorem isRaw_append {s t : String} (hs : isRaw s = true) (ht : isRaw t = true) :
    isRaw (s ++ t) = true := by
  rw [isRaw, String.toList_append, List.all_append, Bool.and_eq_true]
  exact ⟨hs, ht⟩

/-- What is alike stays so with a raw text behind it. -/
theorem Alike.append_raw {s s' : String} (h : Alike s s') (t : String) (ht : isRaw t = true) :
    Alike (s ++ t) (s' ++ t) :=
  h.append (alike_raw ht)

theorem Alike.raw_append {s s' : String} (h : Alike s s') (t : String) (ht : isRaw t = true) :
    Alike (t ++ s) (t ++ s') :=
  (alike_raw ht).append h

/-- No character of a number means anything to the lexer, but for the hyphen. -/
theorem isRawChar_of_isNumeralChar {c : Char} (h : isNumeralChar c = true) :
    isRawChar c = true := by
  rw [isRawChar_iff]
  refine ⟨?_, ?_, ?_, ?_⟩ <;> rintro rfl <;> exact absurd h (by decide)

/-- A number leaves the lexer where it was, for its hyphens stand apart from each other. -/
theorem neutral_of_isNumeral {cs : List Char} (h : IsNumeral cs) : Neutral cs := by
  induction h with
  | nil => exact neutral_nil
  | cons hc _ ih => exact ih.cons_raw (isRawChar_of_isNumeralChar hc)
  | hyphen hc _ ih =>
    exact ih.cons_hyphen (isRawChar_of_isNumeralChar (isNumeralChar_of_isDigit hc))

end Text

/-- Parentheses around two texts that are alike leave them alike. -/
theorem alike_derivedTable {text text' name : String} (h : Alike text text')
    (hname : isRaw name = true) : Alike (derivedTable text name) (derivedTable text' name) := by
  rw [derivedTable_eq, derivedTable_eq]
  exact h.setOff.parens.append (Text.alike_raw (Text.isRaw_append rfl hname))

/-- Select lists are alike if their items are, one by one. -/
theorem alike_selectList {items items' : List String} (h : List.Forall₂ Alike items items') :
    Alike (selectList items) (selectList items') := by
  refine .intercalate (Text.neutral_of_raw rfl) ?_
  rw [List.forall₂_map_left_iff, List.forall₂_map_right_iff]
  exact h.imp fun _ _ hitem => hitem.raw_append "    " rfl

theorem forall₂_alike_raw {items : List String} (h : ∀ item ∈ items, isRaw item = true) :
    List.Forall₂ Alike items items :=
  List.forall₂_same.mpr fun item hitem => Text.alike_raw (h item hitem)

/-! ### Literals -/

namespace Query

mutual

/-- A value and its mask are written alike. -/
theorem alike_literal_masked : ∀ v : Json, Alike (literal v) (literal v.masked)
  | .null => Text.alike_raw rfl
  | .bool true => Text.alike_raw rfl
  | .bool false => Text.alike_raw rfl
  | .number n => by
    have hneutral : Neutral (literal (.number n)).toList := by
      simpa [literal, Number.text] using Text.neutral_of_isNumeral n.isSigned_chars.isNumeral
    exact .refl hneutral
  | .string s => by simpa [literal, Json.masked] using Text.alike_quote s ""
  | .object members => by simpa [literal, Json.masked] using Text.alike_quote _ _
  | .array items => by
    have hitems : Alike (", ".intercalate (literals items))
        (", ".intercalate (literals (Json.maskedItems items))) :=
      .intercalate (Text.neutral_of_raw rfl) (alike_literals_masked items)
    simpa only [literal, Json.masked] using hitems.parens

/-- The items of an array are written alike, one by one. -/
theorem alike_literals_masked :
    ∀ vs : List Json, List.Forall₂ Alike (literals vs) (literals (Json.maskedItems vs))
  | [] => by simp [Json.maskedItems]
  | v :: rest => by
    simpa only [literals, Json.maskedItems, List.forall₂_cons] using
      ⟨alike_literal_masked v, alike_literals_masked rest⟩

end

end Query

/-! ### Fragments -/

/-- Two fragments of one kind with texts that are alike. -/
def Fragment.Alike (f f' : Fragment) : Prop := f.kind = f'.kind ∧ Text.Alike f.text f'.text

/-- Two inputs through the same edge, from one node, with fragments that are alike. -/
structure Input.Alike (i i' : Input) : Prop where
  node_eq : i.node = i'.node
  handle_eq : i.handle = i'.handle
  fragment : i.fragment.Alike i'.fragment

/-- The same failure, or fragments that are alike. -/
def AlikeResult : Except NodeFailure Fragment → Except NodeFailure Fragment → Prop
  | .ok f, .ok f' => f.Alike f'
  | .error e, .error e' => e = e'
  | _, _ => False

section Kinds

variable {settings : Settings} {context : Context} {input input' : Input}

/-- An item with a path is alike without it: the path stands in quotes. -/
theorem Event.alike_item (hnames : ∀ name ∈ settings.names, isRaw name = true)
    {f : EventField} (hname : isRaw f.name = true) :
    Alike (item settings f) (item settings f.masked) := by
  obtain ⟨name, source⟩ := f
  cases source with
  | column => exact Text.alike_raw hname
  | parameter path =>
    have hcolumn := hnames settings.parametersColumn (by simp [Settings.names])
    have harguments := (Text.alike_quote (rootedPath path) (rootedPath "")).raw_append
      (settings.parametersColumn ++ ", ") (Text.isRaw_append hcolumn rfl)
    rw [EventField.masked, parameterItem_eq, parameterItem_eq]
    exact (harguments.parens.raw_append "JSON_VALUE" rfl).append_raw _
      (Text.isRaw_append rfl hname)

/-- The condition on the event name is alike for any two names that are not blank. -/
theorem Event.alike_condition (eventName : Option String) :
    Alike (condition eventName) (condition (maskedName eventName)) := by
  cases hname : Text.content? eventName with
  | none =>
    rw [condition, condition, maskedName, hname]
    exact Text.alike_raw rfl
  | some name =>
    -- The mask asks for a name exactly if the event does, as its own name is not blank.
    have hmask : Text.content? (maskedName eventName) = some "name" := by
      rw [maskedName, hname]
      show Text.content? (some "name") = some "name"
      decide +kernel
    rw [condition, condition, hname, hmask]
    exact (Text.alike_quote name "name").raw_append "\nWHERE event_name = " rfl

/-- The selection of an event and that of its mask are alike. -/
theorem Event.alike_fragment (hnames : ∀ name ∈ settings.names, isRaw name = true)
    (hdatabase : isRaw context.database = true) {config : EventConfig}
    (hfields : ∀ f ∈ config.fields, isRaw f.name = true) :
    (fragment settings context config).Alike
      (fragment settings context
        ⟨maskedName config.eventName, config.fields.map EventField.masked⟩) := by
  have hitems : List.Forall₂ Alike (items settings config)
      (items settings
        ⟨maskedName config.eventName, config.fields.map EventField.masked⟩) := by
    rw [items, items, List.isEmpty_map]
    -- Whether there are fields shows in the mask, so both select the same columns to fall back on,
    -- or neither does.
    split
    · exact forall₂_alike_raw fun name hname => hnames name (by simp [Settings.names, hname])
    · rw [List.map_map, List.forall₂_map_left_iff, List.forall₂_map_right_iff, List.forall₂_same]
      exact fun f hf => alike_item hnames (hfields f hf)
  have htable := hnames settings.eventsTable (by simp [Settings.names])
  have hselect := (alike_selectList hitems).raw_append "SELECT\n" rfl
  have hfrom := (((hselect.append_raw "\nFROM " rfl).append_raw _ hdatabase).append_raw "."
    rfl).append_raw _ htable
  exact ⟨rfl, hfrom.append (alike_condition config.eventName)⟩

/-- Blocks of inputs that are alike are alike: the comments above them are the same, and they end on
    their own lines as no id has a line feed. -/
theorem UnionAll.alike_blocks {inputs inputs' : List Input}
    (h : List.Forall₂ Input.Alike inputs inputs')
    (hids : ∀ i ∈ inputs, '\n' ∉ i.node.text.toList) (position : Nat) :
    List.Forall₂ Alike (blocks position inputs) (blocks position inputs') := by
  induction h generalizing position with
  | nil => exact .nil
  | @cons i i' rest rest' hi _ ih =>
    rw [List.forall_mem_cons] at hids
    refine .cons ?_ (ih hids.2 (position + 1))
    -- The comment names the node and the kind, which a mask leaves.
    have hheader : header position i' = header position i := by
      rw [header, header, hi.node_eq, hi.fragment.1]
    have hcomment : Neutral ("--" ++ header position i ++ "\n").toList := by
      simpa using Text.neutral_comment (feed_not_mem_header hids.1 position)
    rw [block_eq, block_eq, hheader]
    exact (Alike.refl hcomment).append hi.fragment.2

/-- Unions of inputs that are alike are alike. -/
theorem UnionAll.alike_fragment {inputs inputs' : List Input}
    (h : List.Forall₂ Input.Alike inputs inputs')
    (hids : ∀ i ∈ inputs, '\n' ∉ i.node.text.toList) :
    (fragment inputs).Alike (fragment inputs') :=
  ⟨rfl, .intercalate (Text.neutral_of_raw rfl) (alike_blocks h hids 1)⟩

theorem Comparison.isRaw_symbol (c : Comparison) : isRaw c.symbol = true := by
  cases c <;> rfl

/-- A join condition of raw names is raw; it quotes nothing. -/
theorem Join.isRaw_condition {c : JoinCondition}
    (h : ∀ name ∈ (if c.operator.isUnary then [c.left] else [c.left, c.right]),
      isRaw name = true) : isRaw (condition c) = true := by
  have hsymbol := c.operator.isRaw_symbol
  by_cases hunary : c.operator.isUnary = true
  · rw [if_pos hunary, List.forall_mem_singleton] at h
    rw [condition, if_pos hunary]
    exact Text.isRaw_append (Text.isRaw_append h rfl) hsymbol
  · rw [if_neg hunary, List.forall_mem_cons, List.forall_mem_singleton] at h
    rw [condition, if_neg hunary]
    exact Text.isRaw_append (Text.isRaw_append (Text.isRaw_append (Text.isRaw_append h.1 rfl)
      hsymbol) rfl) h.2

/-- Joins of inputs that are alike are alike: what stands around these is the same raw text. -/
theorem Join.alike_fragment {left left' right right' : Input} {config : JoinConfig}
    (hnames : ∀ name ∈ settings.names, isRaw name = true)
    (hcontent : ∀ name ∈ (Content.join config).names, isRaw name = true)
    (hleft : left.Alike left') (hright : right.Alike right') :
    (fragment settings config left right).Alike (fragment settings config left' right') := by
  have hkeyword : isRaw (config.joinType.getD .inner).keyword = true := by
    cases config.joinType.getD .inner <;> rfl
  have hconditions : Alike (" AND ".intercalate (config.conditions.map condition))
      (" AND ".intercalate (config.conditions.map condition)) := by
    refine .intercalate (Text.neutral_of_raw rfl) (forall₂_alike_raw fun text htext => ?_)
    obtain ⟨c, hc, rfl⟩ := List.mem_map.mp htext
    exact isRaw_condition fun name hname =>
      hcontent name (List.mem_flatMap.mpr ⟨c, hc, hname⟩)
  -- The text is put together from left to right, up to the right input.
  have hfrom := (alike_derivedTable hleft.fragment.2
    (hnames settings.leftAlias (by simp [Settings.names]))).raw_append "SELECT *\nFROM " rfl
  have hjoin := (((hfrom.append_raw "\n" rfl).append_raw _ hkeyword).append_raw " " rfl).append
    (alike_derivedTable hright.fragment.2
      (hnames settings.rightAlias (by simp [Settings.names])))
  exact ⟨rfl, (hjoin.append_raw "\nON " rfl).append hconditions⟩

/-- The right-hand side of a comparison is alike without the texts in its value. -/
theorem Filter.alike_operand (c : FilterCondition) : Alike (operand c) (operand c.masked) := by
  have hliteral := Query.alike_literal_masked c.value
  obtain ⟨field, operator, value⟩ := c
  rw [FilterCondition.masked]
  cases value with
  -- A list has its parentheses from its literal, and any other value of a set from the operand.
  | array items => exact hliteral
  | null | bool b | number n | string s | object members =>
    cases hset : operator.isSet with
    | false => simpa only [operand, hset, Json.masked] using hliteral
    | true => simpa only [operand, hset, Json.masked] using hliteral.parens

/-- A filter condition is alike without the texts in its value. -/
theorem Filter.alike_condition {c : FilterCondition} (h : isRaw c.field = true) :
    Alike (condition c) (condition c.masked) := by
  have hsymbol := Text.isRaw_append (Text.isRaw_append h (t := " ") rfl) c.operator.isRaw_symbol
  by_cases hunary : c.operator.isUnary = true
  · rw [condition, condition, if_pos hunary, if_pos (show c.masked.operator.isUnary from hunary)]
    exact Text.alike_raw hsymbol
  · rw [condition, condition, if_neg hunary,
      if_neg (show ¬ c.masked.operator.isUnary from hunary)]
    exact (alike_operand c).raw_append _ (Text.isRaw_append hsymbol rfl)

/-- The predicates of a filter and of its mask are alike, as their conditions are one by one. -/
theorem Filter.alike_predicate {config : FilterConfig}
    (h : ∀ c ∈ config.conditions, isRaw c.field = true) :
    Alike (predicate config) (predicate ⟨config.conditions.map FilterCondition.masked⟩) := by
  rw [predicate, predicate, FilterConfig.isPassthrough, FilterConfig.isPassthrough,
    List.isEmpty_map]
  split
  · exact Text.alike_raw rfl
  · refine .intercalate (Text.neutral_of_raw rfl) ?_
    rw [List.map_map, List.forall₂_map_left_iff, List.forall₂_map_right_iff, List.forall₂_same]
    exact fun c hc => alike_condition (h c hc)

/-- Filters of inputs that are alike are alike. -/
theorem Filter.alike_fragment (hnames : ∀ name ∈ settings.names, isRaw name = true)
    {config : FilterConfig} (h : ∀ c ∈ config.conditions, isRaw c.field = true)
    (hinput : input.Alike input') :
    (fragment settings config input).Alike
      (fragment settings ⟨config.conditions.map FilterCondition.masked⟩ input') := by
  have hfrom := (alike_derivedTable hinput.fragment.2
    (hnames settings.subqueryAlias (by simp [Settings.names]))).raw_append "SELECT *\nFROM " rfl
  exact ⟨rfl, (hfrom.append_raw "\nWHERE " rfl).append (alike_predicate h)⟩

/-- An aggregation of raw names is alike itself; it quotes nothing. -/
theorem Aggregate.alike_item {a : Aggregation} (hname : isRaw a.name = true)
    (hfield : ∀ field ∈ field? a, isRaw field = true) : Alike (item a) (item a) := by
  have hcallee : isRaw a.function.callee = true := by cases a.function <;> rfl
  have hqualifier : isRaw a.function.qualifier = true := by cases a.function <;> rfl
  have hargument : isRaw ((field? a).getD "*") = true := by
    cases hsome : field? a with
    | none => rfl
    | some field => exact hfield field hsome
  have hinside := Text.alike_raw (Text.isRaw_append hqualifier hargument)
  rw [item_eq]
  exact (hinside.parens.raw_append _ hcallee).append_raw _ (Text.isRaw_append rfl hname)

/-- Aggregates of inputs that are alike are alike: what stands around these is the same raw text. -/
theorem Aggregate.alike_fragment (hnames : ∀ name ∈ settings.names, isRaw name = true)
    {config : AggregateConfig}
    (hcontent : ∀ name ∈ (Content.aggregate config).names, isRaw name = true)
    (hinput : input.Alike input') :
    (fragment settings config input).Alike (fragment settings config input') := by
  have hgroupBy : ∀ name ∈ config.groupBy, isRaw name = true :=
    fun name hname => hcontent name (List.mem_append_left _ hname)
  have hitem : ∀ a ∈ config.aggregations, Alike (item a) (item a) := by
    intro a ha
    -- An aggregation has its own name and that of its field from the configuration.
    have hmem : ∀ name ∈ a.name :: (field? a).toList, isRaw name = true :=
      fun name hname => hcontent name
        (List.mem_append_right _ (List.mem_flatMap.mpr ⟨a, ha, hname⟩))
    exact alike_item (hmem _ List.mem_cons_self) fun field hfield =>
      hmem field (List.mem_cons_of_mem _ (Option.mem_toList.mpr hfield))
  have hitems : List.Forall₂ Alike (items config) (items config) := by
    refine List.forall₂_same.mpr fun text htext => ?_
    rcases List.mem_append.mp htext with hname | htext
    · exact Text.alike_raw (hgroupBy text hname)
    · obtain ⟨a, ha, rfl⟩ := List.mem_map.mp htext
      exact hitem a ha
  -- Both clauses may be left out, or be lists of raw names.
  have hselection : Alike (selection config) (selection config) := by
    rw [selection]
    split
    · exact Text.alike_raw rfl
    · exact (alike_selectList hitems).raw_append "SELECT\n" rfl
  have hgrouping : Alike (grouping config) (grouping config) := by
    rw [grouping]
    split
    · exact Text.alike_raw rfl
    · exact Alike.raw_append (.intercalate (Text.neutral_of_raw rfl)
        (forall₂_alike_raw hgroupBy)) "\nGROUP BY " rfl
  have htable := alike_derivedTable hinput.fragment.2
    (hnames settings.subqueryAlias (by simp [Settings.names]))
  exact ⟨rfl, ((hselection.append_raw "\nFROM " rfl).append htable).append hgrouping⟩

/-- The namespace of a game is the stem with digits behind it. -/
theorem Settings.isRaw_namespaceFor (h : isRaw settings.namespaceStem = true) (game : UInt64) :
    isRaw (settings.namespaceFor game) = true := by
  refine Text.isRaw_append h ?_
  rw [isRaw, List.all_eq_true]
  intro c hc
  exact Text.isRawChar_of_isNumeralChar (isNumeralChar_of_isDigit (isDigit_of_mem_toString hc))

/-- Views on inputs that are alike are alike. -/
theorem Output.alike_fragment (hstem : isRaw settings.namespaceStem = true) {viewName : String}
    (hname : isRaw viewName = true) (hinput : input.Alike input') :
    (fragment settings context viewName input).Alike
      (fragment settings context viewName input') := by
  have hhead := Text.isRaw_append (Text.isRaw_append (Text.isRaw_append (Text.isRaw_append
    (s := "CREATE OR REPLACE VIEW ") rfl (settings.isRaw_namespaceFor hstem context.game))
    (t := ".") rfl) hname) (t := " AS\n") rfl
  exact ⟨rfl, hinput.fragment.2.raw_append _ hhead⟩

end Kinds

/-! ### Any node -/

namespace Node

variable {settings : Settings} {context : Context} {n : Node} {inputs inputs' : List Input}

/-- What a configuration makes of inputs, its mask makes of inputs that are alike, up to their
    values. -/
theorem exists_yields_masked {f : Fragment} (h : n.content.Yields settings context inputs f)
    (hnames : ∀ name ∈ configuredNames settings context [n], isRaw name = true)
    (hids : ∀ i ∈ inputs, '\n' ∉ i.node.text.toList)
    (hinputs : List.Forall₂ Input.Alike inputs inputs') :
    ∃ f', n.masked.content.Yields settings context inputs' f' ∧ f.Alike f' := by
  have hsettings := names_settings hnames
  have hcontent := names_content hnames n (List.mem_singleton_self n)
  obtain ⟨id, content⟩ := n
  -- A mask keeps the kind and the number of inputs, so the mask yields a fragment of the same
  -- shape; each case is the lemma on that kind.
  cases h with
  | event =>
    -- Without inputs on the one side, there are none on the other.
    obtain rfl := List.forall₂_nil_left_iff.mp hinputs
    exact ⟨_, .event, Event.alike_fragment hsettings (names_database hnames)
      fun f hf => hcontent _ (List.mem_map_of_mem hf)⟩
  | unionAll hcount =>
    exact ⟨_, .unionAll (hinputs.length_eq ▸ hcount), UnionAll.alike_fragment hinputs hids⟩
  | join =>
    obtain ⟨first', second', hfirst, hsecond, rfl⟩ := exists_eq_pair hinputs
    -- The handles are the same on both sides, so the inputs go to the same places.
    obtain ⟨hleft, hright⟩ :=
      Join.related_sides (fun i i' h => h.handle_eq.symm) hfirst hsecond
    exact ⟨_, .join, Join.alike_fragment hsettings hcontent hleft hright⟩
  | filter =>
    obtain ⟨input', hinput, rfl⟩ := exists_eq_singleton hinputs
    exact ⟨_, .filter, Filter.alike_fragment hsettings
      (fun c hc => hcontent _ (List.mem_map_of_mem hc)) hinput⟩
  | aggregate =>
    obtain ⟨input', hinput, rfl⟩ := exists_eq_singleton hinputs
    exact ⟨_, .aggregate, Aggregate.alike_fragment hsettings hcontent hinput⟩
  | @output config name input hname =>
    obtain ⟨input', hinput, rfl⟩ := exists_eq_singleton hinputs
    have hstem := hsettings settings.namespaceStem (by simp [Settings.names])
    have hview := hcontent name (by simp [Content.names, hname])
    exact ⟨_, .output hname, Output.alike_fragment hstem hview hinput⟩

/-- On inputs that are alike, a node and its mask have fragments that are alike, or fail in the
    same way. -/
theorem alike_compile_masked
    (hnames : ∀ name ∈ configuredNames settings context [n], isRaw name = true)
    (hids : ∀ i ∈ inputs, '\n' ∉ i.node.text.toList)
    (hinputs : List.Forall₂ Input.Alike inputs inputs') :
    AlikeResult (n.compile settings context inputs)
      (n.masked.compile settings context inputs') := by
  have harity' : n.masked.kind.arity.accepts inputs'.length
      = n.kind.arity.accepts inputs.length := by rw [masked_kind, hinputs.length_eq]
  have hmissing' : n.masked.content.missing? = n.content.missing? := n.content.missing?_masked
  -- Node and mask come to the same point, as the number of inputs and what is missing are the
  -- same.
  rcases n.compile_cases settings context inputs with
    ⟨harity, hcompile⟩ | ⟨harity, field, hmissing, hcompile⟩ |
      ⟨harity, hmissing, f, hcompile, hyields⟩
  · rw [hcompile, compile_of_not_accepts (harity'.trans harity), miswired, miswired, masked_kind,
      masked_id, hinputs.length_eq]
    rfl
  · rw [hcompile, compile_of_missing (harity'.trans harity) (hmissing'.trans hmissing), lacking,
      lacking, masked_kind, masked_id]
    rfl
  · obtain ⟨f', hyields', halike⟩ := exists_yields_masked hyields hnames hids hinputs
    rw [hcompile, compile_of_yields (hmissing'.trans hmissing) hyields']
    exact halike

end Node

end QueryGraph
