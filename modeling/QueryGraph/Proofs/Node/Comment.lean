import QueryGraph.Proofs.Node.Masked
import QueryGraph.Proofs.Node.Renaming
import QueryGraph.Proofs.Text.Comment

namespace QueryGraph

open Text (Leads Mode SameButComments isRaw)

/-!
# The comments in the query of a node

* `Text.composes_sameButComments`: queries keep their inputs in step.
* `Content.framed_sameButComments`: what a node puts around its inputs leaves the lexer outside of
  literals and comments if the names in it do.
* `UnionAll.sameButComments_header`: the comments above the inputs of a union are in step.
-/

/-- What is in step stays so when queries are put together. -/
theorem Text.composes_sameButComments :
    Text.Composes (SameButComments Mode.IsSettled) (SameButComments Mode.Outside) where
  append hs ht := hs.append ht
  chain hs ht := hs.append ht
  setOff hs := hs.setOff
  unite hs := hs.append_right (.of_all (by decide))

/-- The name leaves the lexer outside of literals and comments. -/
abbrev Text.EndsOutside (name : String) : Prop := Leads Mode.IsSettled Mode.Outside name

open Text (EndsOutside)

section Kinds

variable {settings : Settings} {context : Context}

/-- A select list of names that end outside ends outside. -/
theorem selectList_leads {items : List String} (h : ∀ item ∈ items, EndsOutside item) :
    EndsOutside (selectList items) := by
  refine .intercalate (.of_all (by decide)) fun line hline => ?_
  obtain ⟨item, hitem, rfl⟩ := List.mem_map.mp hline
  exact (Leads.fixed (by decide)).append (h item hitem)

theorem quote_leads (s : String) : Leads Mode.IsSettled Mode.IsSettled (Text.quote s) :=
  .of_neutral (Text.toList_quote s ▸ Text.neutral_quoteChars s.toList)

/-- An alias behind a query in parentheses. -/
theorem alias_leads {name : String} (h : EndsOutside name) : EndsOutside (") AS " ++ name) :=
  (Leads.fixed (by decide)).append h

/-- An item ends outside with its name, whether it is a column or read from a path. -/
theorem Event.item_leads (hcolumn : EndsOutside settings.parametersColumn) {f : EventField}
    (hname : EndsOutside f.name) : EndsOutside (item settings f) := by
  obtain ⟨name, source⟩ := f
  cases source with
  | column => exact hname
  | parameter path =>
    have hcall : Leads Mode.IsSettled Mode.Outside ("JSON_VALUE(" ++ settings.parametersColumn) :=
      (Leads.fixed (by decide)).append hcolumn
    -- The path is quoted, so it does not matter what it says.
    have hpath : Leads Mode.IsSettled Mode.IsSettled
        ("JSON_VALUE(" ++ settings.parametersColumn ++ ", " ++ Text.quote (rootedPath path)) :=
      (hcall.append (.of_all (by decide))).append (quote_leads _)
    exact (hpath.append (.fixed (by decide))).append hname

/-- The condition on the event name leaves the lexer outside, with any name in it. -/
theorem Event.condition_leads (eventName : Option String) :
    Leads Mode.Outside Mode.Outside (condition eventName) := by
  rw [condition]
  cases Text.content? eventName with
  | none => exact .empty
  | some name => exact ((Leads.of_all (by decide)).append (quote_leads name)).outside

/-- The selection of an event ends outside. -/
theorem Event.fragment_leads (hsettings : ∀ name ∈ settings.names, EndsOutside name)
    (hdatabase : EndsOutside context.database) {config : EventConfig}
    (hfields : ∀ f ∈ config.fields, EndsOutside f.name) :
    EndsOutside (fragment settings context config).text := by
  have hitems : ∀ item ∈ items settings config, EndsOutside item := by
    rw [items]
    split
    · exact fun name hname => hsettings name (by simp [Settings.names, hname])
    · intro text htext
      obtain ⟨f, hf, rfl⟩ := List.mem_map.mp htext
      exact item_leads (hsettings _ (by simp [Settings.names])) (hfields f hf)
  have hselect : EndsOutside ("SELECT\n" ++ selectList (items settings config)) :=
    (Leads.fixed (by decide)).append (selectList_leads hitems)
  have hdot : Leads Mode.IsSettled Mode.IsSettled ("SELECT\n" ++
      selectList (items settings config) ++ "\nFROM " ++ context.database ++ ".") :=
    ((hselect.append (.of_all (by decide))).append hdatabase).append (.of_all (by decide))
  exact (hdot.append (hsettings _ (by simp [Settings.names]))).append (condition_leads _)

theorem JoinType.keyword_leads (t : JoinType) :
    Leads Mode.IsSettled Mode.IsSettled t.keyword := by
  cases t <;> exact .fixed (by decide)

theorem Comparison.symbol_leads (c : Comparison) :
    Leads Mode.IsSettled Mode.IsSettled c.symbol := by
  cases c <;> exact .fixed (by decide)

/-- The left-hand side of a comparison with its symbol. -/
theorem Comparison.leads (c : Comparison) {left : String} (h : EndsOutside left) :
    Leads Mode.IsSettled Mode.IsSettled (left ++ " " ++ c.symbol) :=
  (h.append (.of_all (by decide))).append c.symbol_leads

/-- A join condition ends outside with its last name. -/
theorem Join.condition_leads {c : JoinCondition}
    (h : ∀ name ∈ (if c.operator.isUnary then [c.left] else [c.left, c.right]), EndsOutside name) :
    EndsOutside (condition c) := by
  by_cases hunary : c.operator.isUnary = true
  · rw [if_pos hunary, List.forall_mem_singleton] at h
    rw [condition, if_pos hunary]
    exact (c.operator.leads h).outside
  · rw [if_neg hunary, List.forall_mem_cons, List.forall_mem_singleton] at h
    rw [condition, if_neg hunary]
    exact ((c.operator.leads h.1).append (.fixed (by decide))).append h.2

/-- What stands between the inputs of a join leaves the lexer settled for the second one. -/
theorem Join.middle_leads (h : EndsOutside settings.leftAlias) (config : JoinConfig) :
    Leads Mode.IsSettled Mode.IsSettled (middle settings config) := by
  exact (((alias_leads h).append (.of_all (by decide))).append (JoinType.keyword_leads _)).append
    (Leads.fixed (by decide))

/-- What stands behind the inputs of a join ends outside. -/
theorem Join.tail_leads (h : EndsOutside settings.rightAlias) {config : JoinConfig}
    (hconditions : ∀ c ∈ config.conditions, EndsOutside (condition c)) :
    EndsOutside (tail settings config) := by
  refine ((alias_leads h).append (.of_all (by decide))).append ?_
  refine .intercalate (.of_all (by decide)) fun text htext => ?_
  obtain ⟨c, hc, rfl⟩ := List.mem_map.mp htext
  exact hconditions c hc

/-- A filter condition ends outside: whatever its value is, it is written as a literal. -/
theorem Filter.condition_leads {c : FilterCondition} (h : EndsOutside c.field) :
    EndsOutside (condition c) := by
  by_cases hunary : c.operator.isUnary = true
  · rw [condition, if_pos hunary]
    exact (c.operator.leads h).outside
  · rw [condition, if_neg hunary]
    exact (((c.operator.leads h).append (.fixed (by decide))).append
      (.of_neutral (alike_operand c).neutral_left)).outside

/-- What stands behind the input of a filter ends outside. -/
theorem Filter.tail_leads (h : EndsOutside settings.subqueryAlias) {config : FilterConfig}
    (hconditions : ∀ c ∈ config.conditions, EndsOutside c.field) :
    EndsOutside (tail settings config) := by
  refine ((alias_leads h).append (.of_all (by decide))).append ?_
  rw [predicate]
  split
  · exact (Leads.fixed (by decide)).outside
  · refine .intercalate (.of_all (by decide)) fun text htext => ?_
    obtain ⟨c, hc, rfl⟩ := List.mem_map.mp htext
    exact condition_leads (hconditions c hc)

/-- An aggregation ends outside with its name. -/
theorem Aggregate.item_leads {a : Aggregation} (hname : EndsOutside a.name)
    (hfield : ∀ field ∈ field? a, EndsOutside field) : EndsOutside (item a) := by
  have hopening : Leads Mode.IsSettled Mode.IsSettled a.function.opening := by
    cases a.function <;> exact .fixed (by decide)
  have hargument : EndsOutside ((field? a).getD "*") := by
    cases hsome : field? a with
    | none => exact (Leads.fixed (by decide)).outside
    | some field => exact hfield field hsome
  have hcall : Leads Mode.IsSettled Mode.IsSettled (a.function.apply (field? a)) :=
    (hopening.append hargument).append (.of_all (by decide))
  exact (hcall.append (.fixed (by decide))).append hname

/-- The select clause of an aggregate ends outside. -/
theorem Aggregate.selection_leads {config : AggregateConfig}
    (h : ∀ item ∈ items config, EndsOutside item) : EndsOutside (selection config) := by
  rw [selection]
  split
  · exact (Leads.fixed (by decide)).outside
  · exact (Leads.fixed (by decide)).append (selectList_leads h)

/-- What stands behind the input of an aggregate ends outside. -/
theorem Aggregate.tail_leads (h : EndsOutside settings.subqueryAlias) {config : AggregateConfig}
    (hgroupBy : ∀ name ∈ config.groupBy, EndsOutside name) :
    EndsOutside (tail settings config) := by
  refine (alias_leads h).append ?_
  rw [grouping]
  split
  · exact .empty
  · exact (Leads.of_all (by decide)).append (.intercalate (.of_all (by decide)) hgroupBy)

/-- What stands in front of the input of an output leaves the lexer settled for it. -/
theorem Output.head_leads (hstem : EndsOutside settings.namespaceStem) (context : Context)
    {viewName : String} (h : EndsOutside viewName) :
    Leads Mode.IsSettled Mode.IsSettled (head settings context viewName) := by
  have hgame : isRaw (toString context.game.toNat) = true := by
    rw [isRaw, List.all_eq_true]
    intro c hc
    exact Text.isRawChar_of_isNumeralChar (isNumeralChar_of_isDigit (isDigit_of_mem_toString hc))
  have hnamespace : EndsOutside (settings.namespaceFor context.game) := hstem.append (.of_raw hgame)
  have hview : Leads Mode.IsSettled Mode.IsSettled
      ("CREATE OR REPLACE VIEW " ++ settings.namespaceFor context.game ++ ".") :=
    ((Leads.fixed (by decide)).append hnamespace).append (.of_all (by decide))
  exact (hview.append h).append (.of_all (by decide))

end Kinds

/-- What a node puts around its inputs leaves the lexer outside of literals and comments, and
    settled in front of an input, if this holds of every name that it takes over. -/
theorem Content.framed_sameButComments {settings : Settings} {context : Context} {n : Node}
    (hnames : ∀ name ∈ configuredNames settings context [n], EndsOutside name) :
    n.content.Framed (SameButComments Mode.IsSettled) (SameButComments Mode.Outside) settings
      context := by
  have hsettings := names_settings hnames
  have hcontent := names_content hnames n (List.mem_singleton_self n)
  have halias : EndsOutside settings.subqueryAlias := hsettings _ (by simp [Settings.names])
  have hhead : SameButComments Mode.IsSettled selectionHead selectionHead :=
    .refl (.fixed (by decide))
  obtain ⟨id, content⟩ := n
  cases content with
  | event config =>
    exact .refl (Event.fragment_leads hsettings (names_database hnames)
      fun f hf => hcontent _ (List.mem_map_of_mem hf))
  | unionAll => trivial
  | join config =>
    refine ⟨hhead, .refl (Join.middle_leads (hsettings _ (by simp [Settings.names])) config),
      .refl (Join.tail_leads (hsettings _ (by simp [Settings.names])) fun c hc => ?_)⟩
    exact Join.condition_leads fun name hname =>
      hcontent name (List.mem_flatMap.mpr ⟨c, hc, hname⟩)
  | filter config =>
    exact ⟨hhead, .refl (Filter.tail_leads halias
      fun c hc => hcontent _ (List.mem_map_of_mem hc))⟩
  -- Of an aggregate, every item of the select list has to end outside as well.
  | aggregate config =>
    have hgroupBy : ∀ name ∈ config.groupBy, EndsOutside name :=
      fun name hname => hcontent name (List.mem_append_left _ hname)
    have hitems : ∀ item ∈ Aggregate.items config, EndsOutside item := by
      intro text htext
      rcases List.mem_append.mp htext with hname | htext
      · exact hgroupBy text hname
      · obtain ⟨a, ha, rfl⟩ := List.mem_map.mp htext
        have hmem : ∀ name ∈ a.name :: (Aggregate.field? a).toList, EndsOutside name :=
          fun name hname => hcontent name
            (List.mem_append_right _ (List.mem_flatMap.mpr ⟨a, ha, hname⟩))
        exact Aggregate.item_leads (hmem _ List.mem_cons_self) fun field hfield =>
          hmem field (List.mem_cons_of_mem _ (Option.mem_toList.mpr hfield))
    exact ⟨.refl ((Aggregate.selection_leads hitems).append (.of_all (by decide))),
      .refl (Aggregate.tail_leads halias hgroupBy)⟩
  | output config =>
    intro name hname
    exact .refl (Output.head_leads (hsettings _ (by simp [Settings.names])) context
      (hcontent name (by simpa [Content.names] using hname)))

/-- The comments above an input and above the renamed input, if both names are on one line. -/
theorem UnionAll.sameButComments_header {input input' : Input}
    (h : '\n' ∉ input.node.text.toList) (h' : '\n' ∉ input'.node.text.toList) (position : Nat) :
    SameButComments Mode.IsSettled ("--" ++ header position input ++ "\n")
      ("--" ++ header position input' ++ "\n") :=
  .comment (feed_not_mem_header h position) (feed_not_mem_header h' position)

end QueryGraph
