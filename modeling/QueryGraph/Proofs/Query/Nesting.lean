import QueryGraph.Proofs.Text.Outdent
import QueryGraph.Query.Fragment

namespace QueryGraph

open Text (Tidy IsFrame dropReturn indentChars indentEnded)

/-!
# Derived tables inside each other

* `nestedTable`: a query as a derived table, this one as a derived table, and so on.
* `Holds depth query`: a query with a given text in it, which was indented once and then `depth`
  times with what stands around it; `holds_nestedTable`.
* `nested_tables_determine_text`: indentation can be undone, and nested tables tell the text that
  they are made from, but for returns at its end.
* `second_table_drops_return`: those they do not tell.
-/

/-- A query as a derived table, which is made a derived table again, under one name after the
    other. -/
def nestedTable (names : List String) (text : String) : String := names.foldl derivedTable text

/-- The query has the text that it is made from in it, indented once as a whole, and then `depth`
    times with what stands around it. -/
def Holds (depth : Nat) (query : String → String) : Prop :=
  ∃ front back, IsFrame front back ∧ ∀ text,
    (query text).toList = front ++ indentEnded^[depth] (indentChars text.toList) ++ back

/-- The characters of a derived table: the text is indented as a whole. -/
theorem toList_derivedTable (text name : String) :
    (derivedTable text name).toList
      = ['(', '\n'] ++ (indentChars text.toList ++ ('\n' :: (") AS " ++ name).toList)) := by
  simp [derivedTable]

/-- A derived table has its text in it, indented once. -/
theorem holds_derivedTable (name : String) : Holds 0 fun text => derivedTable text name := by
  refine ⟨['(', '\n'], '\n' :: (") AS " ++ name).toList, ⟨⟨['('], rfl⟩, _, rfl, ')', ?_⟩,
    fun text => ?_⟩
  · rw [String.toList_append]
    exact ⟨List.mem_append_left _ (by decide), by constructor <;> decide⟩
  · rw [toList_derivedTable]
    exact (List.append_assoc ..).symm

/-- One more table around a query indents what the query holds once more. -/
theorem Holds.derivedTable {depth : Nat} {query : String → String} (h : Holds depth query)
    (name : String) : Holds (depth + 1) fun text => derivedTable (query text) name := by
  obtain ⟨front, back, hframe, hquery⟩ := h
  obtain ⟨front', back', hframe', hindent⟩ := hframe.exists_indentChars
  refine ⟨['(', '\n'] ++ front', back' ++ '\n' :: (") AS " ++ name).toList,
    hframe'.append _ _, fun text => ?_⟩
  rw [toList_derivedTable, hquery, hindent, Function.iterate_succ_apply']
  simp

/-- Each table around the first one indents its text once more. -/
theorem holds_nestedTable (name : String) (names : List String) :
    Holds names.length (nestedTable (name :: names)) := by
  -- The last name is that of the outermost table.
  induction names using List.reverseRecOn with
  | nil => exact holds_derivedTable name
  | append_singleton names outer ih =>
    have htables : nestedTable (name :: (names ++ [outer]))
        = fun text => derivedTable (nestedTable (name :: names) text) outer :=
      funext fun text => List.foldl_append (l := name :: names)
    -- The outermost table indents everything the inner ones have written.
    rw [htables, List.length_append, List.length_singleton]
    exact ih.derivedTable outer

/-- What a query tells of the text that it holds. -/
theorem Holds.eq_iff {depth : Nat} {query : String → String} (h : Holds depth query)
    {s t : String} (hs : Tidy s.toList) (ht : Tidy t.toList) :
    query s = query t
      ↔ (s = "" ↔ t = "") ∧ dropReturn^[depth] s.toList = dropReturn^[depth] t.toList := by
  obtain ⟨front, back, -, hquery⟩ := h
  rw [← String.toList_inj, hquery, hquery, List.append_cancel_right_eq,
    List.append_cancel_left_eq, Text.iterate_indentEnded_eq_iff hs ht, String.toList_eq_nil_iff,
    String.toList_eq_nil_iff]

/-- **Nested tables tell the text inside.**  The indentation of a tidy text can be undone and
    keeps the number of its lines, so a derived table tells the text that it is made from.  Tables
    inside each other tell it as well, but for returns at its end: one of them stands directly in
    front of the feed that the table puts behind the text, and the next indentation drops it. -/
theorem nested_tables_determine_text (name : String) (names : List String) {s t : String}
    (hs : Tidy s.toList) (ht : Tidy t.toList) :
    Text.outdent (Text.indent s) = s ∧
      (Text.lines (Text.indent s).toList).length = (Text.lines s.toList).length ∧
      (derivedTable s name = derivedTable t name ↔ s = t) ∧
      (nestedTable (name :: names) s = nestedTable (name :: names) t ↔
        (s = "" ↔ t = "") ∧
          dropReturn^[names.length] s.toList = dropReturn^[names.length] t.toList) ∧
      (s.toList.getLast? ≠ some '\r' → t.toList.getLast? ≠ some '\r' →
        (nestedTable (name :: names) s = nestedTable (name :: names) t ↔ s = t)) := by
  have hnested := (holds_nestedTable name names).eq_iff hs ht
  refine ⟨?_, ?_, ?_, hnested, fun hs' ht' => ?_⟩
  · rw [Text.outdent, Text.toList_indent, Text.outdentChars_indentChars hs, String.ofList_toList]
  · rw [Text.toList_indent, Text.lines_indentChars hs, List.length_map]
  · -- One table indents the text only as a whole, which drops no return.
    refine ⟨fun h => ?_, fun h => h ▸ rfl⟩
    exact String.toList_inj.mp (((holds_derivedTable name).eq_iff hs ht).mp h).2
  · refine ⟨fun h => ?_, fun h => h ▸ rfl⟩
    have hkept := (hnested.mp h).2
    rw [Function.iterate_fixed (Text.dropReturn_of_ne hs'),
      Function.iterate_fixed (Text.dropReturn_of_ne ht')] at hkept
    exact String.toList_inj.mp hkept

/-- Three tables around texts with an empty line, with a return within a line, and with one and
    two returns at the end, which one table alone tells apart.  A text of one return is not taken
    for the empty text, for its line has a margin. -/
theorem nested_tables_determine_text_returns :
    let plain := "a\n\n  b\rc"
    let once := "a\n\n  b\rc\r"
    let twice := "a\n\n  b\rc\r\r"
    Tidy plain.toList ∧ Tidy once.toList ∧ Tidy twice.toList ∧ Tidy "\r".toList ∧ Tidy "".toList ∧
      Text.outdent (Text.indent once) = once ∧
      (Text.lines (Text.indent once).toList).length = (Text.lines once.toList).length ∧
      derivedTable once "x" ≠ derivedTable twice "x" ∧
      nestedTable ["x", "y", "z"] once = nestedTable ["x", "y", "z"] twice ∧
      nestedTable ["x", "y", "z"] "\r" ≠ nestedTable ["x", "y", "z"] "" ∧
      nestedTable ["x", "y", "z"] plain ≠ nestedTable ["x", "y", "z"] "" := by
  intro plain once twice
  have hplain : Tidy plain.toList := ⟨by decide, by decide⟩
  have honce : Tidy once.toList := ⟨by decide, by decide⟩
  have htwice : Tidy twice.toList := ⟨by decide, by decide⟩
  have hreturn : Tidy "\r".toList := ⟨by decide, by decide⟩
  have hempty : Tidy "".toList := ⟨by decide, by decide⟩
  obtain ⟨hundone, hlines, htable, hnested, -⟩ :=
    nested_tables_determine_text "x" ["y", "z"] honce htwice
  obtain ⟨-, -, -, hmargin, -⟩ := nested_tables_determine_text "x" ["y", "z"] hreturn hempty
  obtain ⟨-, -, -, -, hkept⟩ := nested_tables_determine_text "x" ["y", "z"] hplain hempty
  refine ⟨hplain, honce, htwice, hreturn, hempty, hundone, hlines, ?_, ?_, ?_, ?_⟩
  · exact fun h => absurd (htable.mp h) (by decide)
  · exact hnested.mpr ⟨by decide, by decide⟩
  · exact fun h => absurd (hmargin.mp h).1 (by decide)
  · exact fun h => absurd ((hkept (by decide) (by decide)).mp h) (by decide)

/-- A return at the end of a text is lost in a table inside a table. -/
theorem second_table_drops_return :
    let s := "x\r"
    let t := "x"
    Tidy s.toList ∧ Tidy t.toList ∧ nestedTable ["a", "b"] s = nestedTable ["a", "b"] t ∧
      s ≠ t := by
  intro s t
  exact ⟨⟨by decide, by decide⟩, ⟨by decide, by decide⟩, by decide +kernel, by decide⟩

end QueryGraph
