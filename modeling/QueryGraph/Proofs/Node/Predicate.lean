import QueryGraph.Node.Compile
import QueryGraph.Proofs.Query.Literal

namespace QueryGraph

open Text (Ends Determined)

/-!
# Predicates tell their conditions

* `FilterCondition.normal`: a condition without what its text cannot tell: the value of a unary
  comparison, and whether a single value of a set comparison stood in a list.
* `FilterCondition.IsPlain`: the field is a name, and there is no object in the value.
* `Comparison.determined_symbol`: the symbol of a comparison tells the comparison.
* `Filter.determined_condition`: the text of a plain condition tells its normal form.
* `Filter.predicate_eq_iff`: two filters with plain conditions have the same predicate exactly if
  their conditions have the same normal forms, in the same order.
-/

/-! ### Comparisons -/

namespace Comparison

/-- A symbol that another one goes on from is followed by an equals sign there. -/
theorem eq_or_head_drop (o o' : Comparison) (h : o.symbol.toList <+: o'.symbol.toList) :
    o = o' ∨ (o'.symbol.toList.drop o.symbol.toList.length).head? = some '=' := by
  revert h
  cases o <;> cases o' <;> decide

/-- No symbol begins another one that could go on behind it, so the end of a symbol is where it
    seems to be. -/
theorem determined_symbol (o : Comparison) : Determined symbol id (fun _ => True) o := by
  -- A symbol that ends does not go on to another one, for it would with an equals sign.
  have hsame : ∀ {o o' : Comparison} {between rest : List Char}, Ends (between ++ rest) →
      o'.symbol.toList = o.symbol.toList ++ between → o = o' := by
    intro o o' between rest hends h
    rcases eq_or_head_drop o o' ⟨between, h.symm⟩ with heq | hhead
    · exact heq
    · rw [h, List.drop_left] at hhead
      exact absurd (by rw [List.head?_append, hhead]; rfl) (hends.head_ne (c := '=') (by decide))
  intro o' rest rest' _ hrest hrest' h
  have heq : o = o' := by
    -- One of the two symbols is as long as the other, or longer by what stands between.
    rcases List.append_eq_append_iff.mp h with ⟨between, hsymbol, rfl⟩ | ⟨between, hsymbol, rfl⟩
    · exact hsame hrest hsymbol
    · exact (hsame hrest' hsymbol).symm
  subst heq
  exact ⟨rfl, List.append_cancel_left h⟩

end Comparison

/-! ### Conditions -/

/-- A value as a list, of which it is the only item unless it is a list itself. -/
def Json.asArray : Json → Json
  | .array items => .array items
  | v => .array [v]

@[simp] theorem Json.asArray_asArray (v : Json) : v.asArray.asArray = v.asArray := by
  cases v <;> rfl

/-- A list of a value has no more objects than the value. -/
theorem Json.ObjectFree.asArray {v : Json} (h : v.ObjectFree) : v.asArray.ObjectFree := by
  cases h with
  | array h => exact .array h
  | null => exact .array (by simpa using .null)
  | bool b => exact .array (by simpa using .bool b)
  | number n => exact .array (by simpa using .number n)
  | string s => exact .array (by simpa using .string s)

namespace FilterCondition

/-- The condition with as much of its value as its text tells. -/
def normal (c : FilterCondition) : FilterCondition where
  field := c.field
  operator := c.operator
  value :=
    if c.operator.isUnary then .null
    else if c.operator.isSet then c.value.asArray
    else c.value

/-- The normal form has nothing left that its text does not tell. -/
@[simp] theorem normal_normal (c : FilterCondition) : c.normal.normal = c.normal := by
  simp only [normal]
  split
  · rfl
  · split <;> simp

/-- The field is a name, which has no blanks and does not start with a digit, and the value has
    no objects. -/
structure IsPlain (c : FilterCondition) : Prop where
  field : ' ' ∉ c.field.toList
  head : c.field.toList.head?.any Char.isDigit = false
  value : c.value.ObjectFree

/-- A plain condition stays without objects in its normal form. -/
theorem IsPlain.objectFree_normal {c : FilterCondition} (h : c.IsPlain) :
    c.normal.value.ObjectFree := by
  simp only [normal]
  split
  · exact .null
  · split
    · exact h.value.asArray
    · exact h.value

end FilterCondition

namespace Filter

/-- The operand is the literal of the normal value. -/
theorem operand_eq_literal {c : FilterCondition} (h : c.operator.isUnary = false) :
    operand c = Query.literal c.normal.value := by
  have hsingle : ∀ v, "(" ++ Query.literal v ++ ")" = Query.literal (.array [v]) := by
    intro v
    rw [Query.literal_array]
    simp
  cases hvalue : c.value <;> cases hset : c.operator.isSet <;>
    simp [operand, FilterCondition.normal, Json.asArray, h, hvalue, hset, hsingle]

/-- What stands behind the symbol of a comparison. -/
def behindSymbol (c : FilterCondition) : List Char :=
  if c.operator.isUnary then [] else ' ' :: (Query.literal c.normal.value).toList

/-- A condition as its field, its symbol and what stands behind. -/
theorem toList_condition (c : FilterCondition) :
    (condition c).toList
      = c.field.toList ++ ' ' :: (c.operator.symbol.toList ++ behindSymbol c) := by
  have hspace : (" " : String).toList = [' '] := rfl
  rw [condition, behindSymbol]
  cases h : c.operator.isUnary with
  | true => simp [hspace]
  | false => simp [hspace, operand_eq_literal h]

/-- A symbol ends, for a blank or the end of the condition follows. -/
theorem ends_behindSymbol {c : FilterCondition} {rest : List Char} (h : Ends rest) :
    Ends (behindSymbol c ++ rest) := by
  rw [behindSymbol]
  split
  · exact h
  · exact Text.ends_cons (by decide) _

/-- The text of a plain condition tells its normal form, and where it ends. -/
theorem determined_condition {c : FilterCondition} (h : c.IsPlain) :
    Determined condition FilterCondition.normal FilterCondition.IsPlain c := by
  intro c' rest rest' h' hrest hrest' heq
  rw [toList_condition, toList_condition] at heq
  simp only [List.append_assoc, List.cons_append] at heq
  -- A field ends at the first space.
  have hblank : ∀ {cs : List Char}, ' ' ∉ cs → ∀ ch ∈ cs, decide (ch ≠ ' ') = true := by
    intro cs hcs ch hch
    exact decide_eq_true fun hspace => hcs (hspace ▸ hch)
  obtain ⟨hfield, hbehind⟩ := Text.append_inj_of_all (hblank h.field) (hblank h'.field)
    (by simp) (by simp) heq
  obtain ⟨hoperator, htail⟩ := c.operator.determined_symbol trivial (ends_behindSymbol hrest)
    (ends_behindSymbol hrest') (List.tail_eq_of_cons_eq hbehind)
  have hoperator : c.operator = c'.operator := hoperator
  -- With one operator, either both conditions have a value behind it or none has.
  have hvalue : c.normal.value = c'.normal.value ∧ rest = rest' := by
    rw [behindSymbol, behindSymbol, ← hoperator] at htail
    cases hunary : c.operator.isUnary with
    | true => simpa [FilterCondition.normal, ← hoperator, hunary] using htail
    | false =>
      simp only [hunary, Bool.false_eq_true, if_false, List.cons_append, List.cons.injEq,
        true_and] at htail
      exact Query.determined_literal h.objectFree_normal h'.objectFree_normal hrest hrest' htail
  refine ⟨?_, hvalue.2⟩
  rw [FilterCondition.mk.injEq]
  exact ⟨String.toList_inj.mp hfield, hoperator, hvalue.1⟩

/-- Nothing of the text is lost in the normal form. -/
theorem condition_normal (c : FilterCondition) : condition c.normal = condition c := by
  rw [← String.toList_inj, toList_condition, toList_condition, behindSymbol,
    behindSymbol, FilterCondition.normal_normal]
  rfl

/-! ### Predicates -/

theorem isSeparator_and : Text.IsSeparator " AND " ' ' := ⟨by decide, by decide⟩

/-- A plain condition does not start with a digit. -/
theorem exists_head_condition {c : FilterCondition} (h : c.IsPlain) :
    ∃ ch, (condition c).toList.head? = some ch ∧ ch.isDigit = false := by
  rw [toList_condition]
  cases hfield : c.field.toList with
  | nil => exact ⟨' ', rfl, by decide⟩
  | cons ch chs => exact ⟨ch, rfl, by simpa [hfield] using h.head⟩

/-- The predicate of an empty filter starts with a digit, which no condition does. -/
theorem passthrough_ne_conditions {c : FilterCondition} (h : c.IsPlain)
    (cs : List FilterCondition) :
    "1 = 1" ≠ " AND ".intercalate ((c :: cs).map condition) := by
  obtain ⟨ch, hch, hdigit⟩ := exists_head_condition h
  obtain ⟨behind, hbehind⟩ := Text.prefix_intercalate " AND " (condition c) (cs.map condition)
  intro heq
  have hheads := congrArg (fun s : String => s.toList.head?) heq
  rw [List.map_cons] at hheads
  simp only [← hbehind, List.head?_append, hch] at hheads
  obtain rfl : '1' = ch := Option.some.inj hheads
  exact absurd hdigit (by decide)

/-- To normalise conditions does not change their texts. -/
theorem map_condition_normal (cs : List FilterCondition) :
    (cs.map FilterCondition.normal).map condition = cs.map condition := by
  rw [List.map_map]
  exact List.map_congr_left fun c _ => condition_normal c

/-- The texts of conditions between their separators tell all normal forms. -/
theorem map_normal_eq_of_conditions {c c' : FilterCondition} {cs cs' : List FilterCondition}
    (h : ∀ d ∈ c :: cs, d.IsPlain) (h' : ∀ d ∈ c' :: cs', d.IsPlain)
    (heq : " AND ".intercalate ((c :: cs).map condition)
      = " AND ".intercalate ((c' :: cs').map condition)) :
    (c :: cs).map FilterCondition.normal = (c' :: cs').map FilterCondition.normal := by
  have hlists := congrArg (fun s : String => s.toList ++ []) heq
  exact (Determined.intercalate isSeparator_and (List.cons_ne_nil c cs) (List.cons_ne_nil c' cs')
    (fun d hd => determined_condition (h d hd)) h' Text.ends_nil Text.ends_nil (by simp) (by simp)
    hlists).1

/-- **The predicate of a filter tells its conditions.**  Two filters whose fields are names and
whose values have no objects have the same predicate exactly if their conditions agree one by one,
up to the value of a unary comparison and the parentheses around a single value of a set
comparison.  So no value imitates another one, or a further condition. -/
theorem predicate_eq_iff {config config' : FilterConfig}
    (h : ∀ c ∈ config.conditions, c.IsPlain) (h' : ∀ c ∈ config'.conditions, c.IsPlain) :
    predicate config = predicate config' ↔
      config.conditions.map FilterCondition.normal
        = config'.conditions.map FilterCondition.normal := by
  obtain ⟨conditions⟩ := config
  obtain ⟨conditions'⟩ := config'
  constructor
  · intro heq
    -- An empty filter has a predicate of its own, which no list of conditions has.
    cases conditions with
    | nil =>
      cases conditions' with
      | nil => rfl
      | cons c' cs' => exact absurd heq (passthrough_ne_conditions (h' c' List.mem_cons_self) cs')
    | cons c cs =>
      cases conditions' with
      | nil => exact absurd heq.symm (passthrough_ne_conditions (h c List.mem_cons_self) cs)
      | cons c' cs' => exact map_normal_eq_of_conditions h h' heq
  · intro heq
    -- Conversely, the texts are those of the normal forms.
    have htexts : conditions.map condition = conditions'.map condition := by
      rw [← map_condition_normal conditions, heq, map_condition_normal]
    have hempty : conditions.isEmpty = conditions'.isEmpty := by
      rw [← List.isEmpty_map (f := condition), htexts, List.isEmpty_map]
    have hpassthrough : FilterConfig.isPassthrough ⟨conditions⟩
        = FilterConfig.isPassthrough ⟨conditions'⟩ := hempty
    rw [predicate, predicate, hpassthrough, htexts]

/-- A value that looks like a further condition is none; a single value of a set stands for a list,
    and what a unary comparison is given does not matter. -/
theorem predicate_eq_iff_imitation :
    predicate ⟨[⟨"name", .eq, .string "x' AND state = 'on"⟩]⟩
        ≠ predicate ⟨[⟨"name", .eq, .string "x"⟩, ⟨"state", .eq, .string "on"⟩]⟩
      ∧ predicate ⟨[⟨"level", .inSet, .bool true⟩, ⟨"gone", .isNull, .string "x"⟩]⟩
        = predicate ⟨[⟨"level", .inSet, .array [.bool true]⟩, ⟨"gone", .isNull, .null⟩]⟩ := by
  have hname : (⟨"name", .eq, .string "x"⟩ : FilterCondition).IsPlain :=
    ⟨by decide, by decide, .string _⟩
  have hstate : (⟨"state", .eq, .string "on"⟩ : FilterCondition).IsPlain :=
    ⟨by decide, by decide, .string _⟩
  have himitation :
      (⟨"name", .eq, .string "x' AND state = 'on"⟩ : FilterCondition).IsPlain :=
    ⟨by decide, by decide, .string _⟩
  have hlevel : (⟨"level", .inSet, .bool true⟩ : FilterCondition).IsPlain :=
    ⟨by decide, by decide, .bool _⟩
  have hlevels : (⟨"level", .inSet, .array [.bool true]⟩ : FilterCondition).IsPlain :=
    ⟨by decide, by decide, .array (by simpa using .bool true)⟩
  have hgone : (⟨"gone", .isNull, .string "x"⟩ : FilterCondition).IsPlain :=
    ⟨by decide, by decide, .string _⟩
  have hgone' : (⟨"gone", .isNull, .null⟩ : FilterCondition).IsPlain :=
    ⟨by decide, by decide, .null⟩
  constructor
  · intro heq
    have hnormal :=
      (predicate_eq_iff (by simpa using himitation) (by simpa using ⟨hname, hstate⟩)).mp heq
    exact absurd (congrArg List.length hnormal) (by decide)
  · exact (predicate_eq_iff (by simpa using ⟨hlevel, hgone⟩)
      (by simpa using ⟨hlevels, hgone'⟩)).mpr rfl

end Filter

end QueryGraph
