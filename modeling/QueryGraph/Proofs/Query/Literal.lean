import QueryGraph.Proofs.Number.Reading
import QueryGraph.Proofs.Number.Text
import QueryGraph.Proofs.Text.Determined
import QueryGraph.Query.Literal

namespace QueryGraph

open Text (Ends Determined)

/-!
# Literals tell their values

* `Json.ObjectFree`: the values without an object anywhere inside.
* `Json.mark`: what the first character of a literal tells of its value.
* `Query.determined_literal`: the literal of a value without objects is the literal of no other
  such value, whatever stands behind it.
-/

/-! ### Numbers -/

/-- A number text has no other characters than those of numbers and hyphens. -/
theorem IsNumeral.all_mem {cs : List Char} (h : IsNumeral cs) :
    ∀ c ∈ cs, (isNumeralChar c || c = '-') = true := by
  induction h with
  | nil => simp
  | cons hc _ ih => simpa [hc] using ih
  | hyphen _ _ ih => simpa using ih

/-- Nothing that ends a text is a part of a number. -/
theorem Text.Ends.head_not_numeral {rest : List Char} (h : Ends rest) :
    ∀ c ∈ rest.head?, (isNumeralChar c || c = '-') = false := by
  intro c hc
  rcases h c hc with rfl | rfl | rfl <;> decide

/-- A number is told by its text, since it is read back from it. -/
theorem Number.chars_append_inj {n n' : Number} {rest rest' : List Char} (hrest : Ends rest)
    (hrest' : Ends rest') (h : n.chars ++ rest = n'.chars ++ rest') : n = n' ∧ rest = rest' := by
  -- Both texts end where the characters of numbers do.
  obtain ⟨hchars, hrests⟩ := Text.append_inj_of_all n.isSigned_chars.isNumeral.all_mem
    n'.isSigned_chars.isNumeral.all_mem hrest.head_not_numeral hrest'.head_not_numeral h
  have hread := n.ofChars?_chars
  rw [hchars, n'.ofChars?_chars] at hread
  exact ⟨(Option.some.inj hread).symm, hrests⟩

/-! ### Values -/

/-- There is no object in the value. -/
inductive Json.ObjectFree : Json → Prop
  | null : ObjectFree .null
  | bool (value : Bool) : ObjectFree (.bool value)
  | number (value : Number) : ObjectFree (.number value)
  | string (value : String) : ObjectFree (.string value)
  | array {items : List Json} (h : ∀ v ∈ items, ObjectFree v) : ObjectFree (.array items)

/-- The first character of a literal, with one for all numbers and one for both truth values. -/
def Json.mark : Json → Char
  | .null => 'N'
  | .bool _ => 't'
  | .number _ => '0'
  | .array _ => '('
  | .string _ | .object _ => '\''

/-- The mark that a character stands for. -/
def Text.markOf (c : Char) : Char :=
  if c.isDigit || c = '-' then '0' else if c = 'f' then 't' else c

namespace Query

theorem literal_array (items : List Json) :
    literal (.array items) = "(" ++ ", ".intercalate (items.map literal) ++ ")" := by
  rw [literal, literals_eq_map]

theorem toList_literal_number (n : Number) : (literal (.number n)).toList = n.chars := by
  rw [literal, Number.text, String.toList_ofList]

/-- The first character of a literal tells of what kind its value is. -/
theorem exists_head_literal (v : Json) :
    ∃ c, (literal v).toList.head? = some c ∧ Text.markOf c = v.mark := by
  cases v with
  | null => exact ⟨'N', by simp [literal], by decide⟩
  | bool b =>
    cases b with
    | false => exact ⟨'f', by simp [literal], by decide⟩
    | true => exact ⟨'t', by simp [literal], by decide⟩
  | number n =>
    rw [toList_literal_number]
    generalize hchars : n.chars = cs
    cases hchars ▸ n.isSigned_chars with
    | plus h =>
      obtain ⟨c, cs, rfl, hc⟩ := h.head
      exact ⟨c, rfl, by simp [Text.markOf, hc, Json.mark]⟩
    | minus => exact ⟨'-', rfl, by rw [Json.mark]; decide⟩
  | string s => exact ⟨'\'', by simp [literal, Text.quoteChars], by rw [Json.mark]; decide⟩
  | array items => exact ⟨'(', by simp [literal], by rw [Json.mark]; decide⟩
  | object members => exact ⟨'\'', by simp [literal, Text.quoteChars], by rw [Json.mark]; decide⟩

/-- Literals that begin the same text are those of values of one kind. -/
theorem mark_eq_of_append {v v' : Json} {rest rest' : List Char}
    (h : (literal v).toList ++ rest = (literal v').toList ++ rest') : v.mark = v'.mark := by
  obtain ⟨c, hc, hmark⟩ := exists_head_literal v
  obtain ⟨c', hc', hmark'⟩ := exists_head_literal v'
  have hheads := congrArg List.head? h
  rw [List.head?_append, List.head?_append, hc, hc'] at hheads
  obtain rfl : c = c' := Option.some.inj hheads
  exact hmark.symm.trans hmark'

/-- The literals of a list begin with the first of them, which is no closing parenthesis. -/
theorem close_ne_literals {items : List Json} {rest rest' : List Char} (h : items ≠ []) :
    ')' :: rest ≠ (", ".intercalate (items.map literal)).toList ++ rest' := by
  obtain ⟨v, vs, rfl⟩ := List.exists_cons_of_ne_nil h
  obtain ⟨c, hc, hmark⟩ := exists_head_literal v
  obtain ⟨behind, hbehind⟩ := Text.prefix_intercalate ", " (literal v) (vs.map literal)
  intro heq
  have hheads := congrArg List.head? heq
  rw [List.map_cons, ← hbehind, List.append_assoc, List.head?_append, hc] at hheads
  obtain rfl : ')' = c := Option.some.inj hheads
  cases v <;> exact absurd hmark (by rw [Json.mark]; decide)

theorem isSeparator_comma : Text.IsSeparator ", " ',' := ⟨by decide, by decide⟩

/-- The literal of a value tells the value, and where it ends. -/
theorem determined_literal {v : Json} (hv : v.ObjectFree) :
    Determined literal id Json.ObjectFree v := by
  -- The first character tells the kind of the other value, which leaves one case each.
  induction hv with
  | null =>
    intro v' rest rest' hv' _ _ h
    have hmark := mark_eq_of_append h
    cases hv' with
    | null => exact ⟨rfl, List.append_cancel_left h⟩
    | _ => simp [Json.mark] at hmark
  | bool b =>
    intro v' rest rest' hv' _ _ h
    have hmark := mark_eq_of_append h
    cases hv' with
    | bool b' => cases b <;> cases b' <;> simp_all [literal]
    | _ => simp [Json.mark] at hmark
  | number n =>
    intro v' rest rest' hv' hrest hrest' h
    have hmark := mark_eq_of_append h
    cases hv' with
    | number n' =>
      rw [toList_literal_number, toList_literal_number] at h
      obtain ⟨rfl, hrests⟩ := Number.chars_append_inj hrest hrest' h
      exact ⟨rfl, hrests⟩
    | _ => simp [Json.mark] at hmark
  | string s =>
    intro v' rest rest' hv' hrest hrest' h
    have hmark := mark_eq_of_append h
    cases hv' with
    | string s' =>
      rw [literal, literal, Text.toList_quote, Text.toList_quote] at h
      obtain ⟨hchars, hrests⟩ :=
        Text.quoteChars_append_inj (hrest.head_ne (by decide)) (hrest'.head_ne (by decide)) h
      exact ⟨congrArg Json.string (String.toList_inj.mp hchars), hrests⟩
    | _ => simp [Json.mark] at hmark
  | @array items _ ih =>
    intro v' rest rest' hv' hrest hrest' h
    have hmark := mark_eq_of_append h
    cases hv' with
    | @array items' hitems' =>
      have hclose : ∀ r : List Char, (")" : String).toList ++ r = ')' :: r := fun r => rfl
      simp only [literal_array, String.toList_append, List.append_assoc,
        List.append_cancel_left_eq, hclose] at h
      -- A closing parenthesis follows the opening one at once only if there are no items.
      by_cases hne : items = [] <;> by_cases hne' : items' = []
      · subst hne hne'
        exact ⟨rfl, by simpa using h⟩
      · subst hne
        exact absurd h (close_ne_literals hne')
      · subst hne'
        exact absurd h.symm (close_ne_literals hne)
      · obtain ⟨hvalues, hrests⟩ := Determined.intercalate isSeparator_comma hne hne' ih hitems'
          (Text.ends_cons (by decide) _) (Text.ends_cons (by decide) _) (by simp) (by simp) h
        rw [List.map_id, List.map_id] at hvalues
        exact ⟨congrArg Json.array hvalues, List.tail_eq_of_cons_eq hrests⟩
    | _ => simp [Json.mark] at hmark

end Query

end QueryGraph
