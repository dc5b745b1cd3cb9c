import QueryGraph.Proofs.Node.Complete
import QueryGraph.Proofs.Text.Indent

namespace QueryGraph

open scoped List

/-!
# Literals in the fragment of a node

* `Content.Quotes`: a configuration puts a text into the query as a literal.
* `Kind.indents`: the kinds whose nodes put their inputs into parentheses, on lines of their own.
* `Node.quote_infix`: the fragment of a node holds the literals of its configuration.
* `Node.input_infix`: it holds what stands between quotes in its inputs, too, and nothing but an
  indentation may have moved the lines of this.
-/

/-! ### Parts of texts -/

namespace Text

/-- A part of a text stays one when something follows. -/
theorem infix_append_left {piece : List Char} {s : String} (h : piece <:+: s.toList)
    (t : String) : piece <:+: (s ++ t).toList := by
  rw [String.toList_append]
  exact h.trans (List.prefix_append _ _).isInfix

/-- A part of a text stays one when something comes before. -/
theorem infix_append_right {piece : List Char} {t : String} (h : piece <:+: t.toList)
    (s : String) : piece <:+: (s ++ t).toList := by
  rw [String.toList_append]
  exact h.trans (List.suffix_append _ _).isInfix

/-- A part of an item is one of what is joined from the items. -/
theorem infix_intercalate {piece : List Char} {t : String} {items : List String}
    (h : piece <:+: t.toList) (ht : t ∈ items) (separator : String) :
    piece <:+: (separator.intercalate items).toList := by
  induction items with
  | nil => simp at ht
  | cons s rest ih =>
    cases rest with
    | nil =>
      obtain rfl := List.mem_singleton.mp ht
      simpa using h
    | cons s' rest =>
      rw [String.intercalate_cons_cons]
      rcases List.mem_cons.mp ht with rfl | ht
      · exact infix_append_left (infix_append_left h separator) _
      · exact infix_append_right (ih ht) _

theorem enclosed_quote (s : String) : Enclosed '\'' (quote s).toList :=
  ⟨doubleQuotes s.toList, by rw [toList_quote, quoteChars]⟩

/-- A literal without line feeds is not moved. -/
theorem feed_not_mem_quote {s : String} (h : '\n' ∉ s.toList) : '\n' ∉ (quote s).toList := by
  rw [toList_quote, quoteChars, List.mem_cons, List.mem_append, doubleQuotes, List.mem_flatMap]
  rintro (heq | ⟨c, hc, hmem⟩ | hmem)
  · exact absurd heq (by decide)
  · split at hmem
    · simp at hmem
    · obtain rfl := List.mem_singleton.mp hmem
      exact h hc
  · simp at hmem

end Text

/-- A table in parentheses holds what is quoted in its text, with the lines inside indented. -/
theorem infix_derivedTable {piece : List Char} {text : String} (name : String)
    (hpiece : Text.Enclosed '\'' piece) (h : piece <:+: text.toList) :
    Text.indentInside piece <:+: (derivedTable text name).toList := by
  have hindent : Text.indentInside piece <:+: (Text.indent text).toList := by
    rw [Text.toList_indent]
    exact Text.infix_indentChars Text.isSolid_quote hpiece h
  exact Text.infix_append_left
    (Text.infix_append_left (Text.infix_append_right hindent _) _) name

/-! ### Literals of a node -/

/-- The configuration compares a field with a text, or asks for events with a name. -/
def Content.Quotes : Content → String → Prop
  | .filter config, s =>
    ∃ c ∈ config.conditions, c.operator.isUnary = false ∧ c.value = .string s
  | .event config, s => Text.content? config.eventName = some s
  | _, _ => False

/-- Nodes of the kind have their inputs in parentheses, indented. -/
def Kind.indents : Kind → Bool
  | .join | .filter | .aggregate => true
  | .event | .unionAll | .output => false

namespace Filter

/-- The text of a condition is quoted, in parentheses of its own if it stands for a set. -/
theorem infix_condition {c : FilterCondition} {s : String} (hunary : c.operator.isUnary = false)
    (hvalue : c.value = .string s) : (Text.quote s).toList <:+: (condition c).toList := by
  have hoperand : (Text.quote s).toList <:+: (operand c).toList := by
    cases hset : c.operator.isSet with
    | false => simp [operand, hvalue, hset, Query.literal]
    | true =>
      have hparens : operand c = "(" ++ Text.quote s ++ ")" := by
        simp [operand, hvalue, hset, Query.literal]
      rw [hparens]
      exact Text.infix_append_left (Text.infix_append_right List.infix_rfl _) _
  rw [condition, hunary]
  exact Text.infix_append_right hoperand _

/-- A predicate holds what any of its conditions holds. -/
theorem infix_predicate {config : FilterConfig} {c : FilterCondition} {piece : List Char}
    (hc : c ∈ config.conditions) (h : piece <:+: (condition c).toList) :
    piece <:+: (predicate config).toList := by
  have hsome : config.isPassthrough = false := by
    rw [FilterConfig.isPassthrough, List.isEmpty_eq_false_iff]
    exact List.ne_nil_of_mem hc
  rw [predicate, hsome]
  exact Text.infix_intercalate h (List.mem_map_of_mem hc) _

end Filter

namespace UnionAll

/-- Every input is in one of the blocks. -/
theorem exists_mem_blocks {piece : List Char} {i : Input} {inputs : List Input}
    (hi : i ∈ inputs) (h : piece <:+: i.text.toList) (position : Nat) :
    ∃ b ∈ blocks position inputs, piece <:+: b.toList := by
  induction inputs generalizing position with
  | nil => simp at hi
  | cons j rest ih =>
    rcases List.mem_cons.mp hi with rfl | hi
    · exact ⟨block position i, List.mem_cons_self, Text.infix_append_right h _⟩
    · obtain ⟨b, hb, hpiece⟩ := ih hi (position + 1)
      exact ⟨b, List.mem_cons_of_mem _ hb, hpiece⟩

end UnionAll

namespace Join

/-- Whichever way the handles go, each input is on one of the sides. -/
theorem sides_cases (first second : Input) :
    sides first second = (first, second) ∨ sides first second = (second, first) := by
  rw [sides_eq]
  split
  · exact Or.inr rfl
  · exact Or.inl rfl

/-- Both sides are in the fragment, each in parentheses. -/
theorem infix_fragment {piece : List Char} (settings : Settings) (config : JoinConfig)
    {left right i : Input} (hi : i = left ∨ i = right) (hpiece : Text.Enclosed '\'' piece)
    (h : piece <:+: i.text.toList) :
    Text.indentInside piece <:+: (fragment settings config left right).text.toList := by
  have htable := fun name => infix_derivedTable name hpiece h
  refine Text.infix_append_left (Text.infix_append_left ?_ _) _
  rcases hi with rfl | rfl
  · have hleft := Text.infix_append_right (htable settings.leftAlias) "SELECT *\nFROM "
    exact Text.infix_append_left (Text.infix_append_left (Text.infix_append_left
      (Text.infix_append_left hleft _) _) _) _
  · exact Text.infix_append_right (htable settings.rightAlias) _

end Join

namespace Node

variable {settings : Settings} {context : Context} {n : Node} {inputs : List Input}
  {f : Fragment}

/-- The literals of a configuration are in the fragment of its node. -/
theorem quote_infix {s : String} (h : n.compile settings context inputs = .ok f)
    (hquotes : n.content.Quotes s) : (Text.quote s).toList <:+: f.text.toList := by
  obtain ⟨id, content⟩ := n
  have hyields : content.Yields settings context inputs f := yields_of_compile h
  cases hyields with
  | @event config =>
    -- Of an event it is the name, in the last clause.
    have hcondition : Event.condition config.eventName
        = "\nWHERE event_name = " ++ Text.quote s := by
      rw [Event.condition, show Text.content? config.eventName = some s from hquotes]
    show _ <:+: (_ ++ Event.condition config.eventName).toList
    rw [hcondition]
    exact Text.infix_append_right (Text.infix_append_right List.infix_rfl _) _
  | filter =>
    -- Of a filter it is a value, in one of the conditions.
    obtain ⟨c, hc, hunary, hvalue⟩ := hquotes
    exact Text.infix_append_right
      (Filter.infix_predicate hc (Filter.infix_condition hunary hvalue)) _
  | unionAll | join | aggregate | output => exact hquotes.elim

/-- What is enclosed in quotes in an input is in the fragment of the node, with its lines moved
    if the kind indents its inputs. -/
theorem input_infix {i : Input} {piece : List Char}
    (h : n.compile settings context inputs = .ok f) (hi : i ∈ inputs)
    (hpiece : Text.Enclosed '\'' piece) (hin : piece <:+: i.text.toList) :
    (if n.kind.indents then Text.indentInside piece else piece) <:+: f.text.toList := by
  obtain ⟨id, content⟩ := n
  have hyields : content.Yields settings context inputs f := yields_of_compile h
  cases hyields with
  | event => simp at hi
  | unionAll =>
    -- A union takes its inputs over as they are.
    obtain ⟨b, hb, hblock⟩ := UnionAll.exists_mem_blocks hi hin 1
    exact Text.infix_intercalate hblock hb _
  | @join config first second =>
    -- Either input of a join is on one of its sides.
    refine Join.infix_fragment settings config ?_ hpiece hin
    have hmem : i = first ∨ i = second := by simpa using hi
    rcases Join.sides_cases first second with heq | heq
    · simpa [heq] using hmem
    · simpa [heq] using hmem.symm
  | filter =>
    obtain rfl := List.mem_singleton.mp hi
    have htable := infix_derivedTable settings.subqueryAlias hpiece hin
    exact Text.infix_append_left (Text.infix_append_left (Text.infix_append_right htable _) _) _
  | aggregate =>
    obtain rfl := List.mem_singleton.mp hi
    have htable := infix_derivedTable settings.subqueryAlias hpiece hin
    exact Text.infix_append_left (Text.infix_append_right htable _) _
  | output =>
    obtain rfl := List.mem_singleton.mp hi
    exact Text.infix_append_right hin _

end Node

end QueryGraph
