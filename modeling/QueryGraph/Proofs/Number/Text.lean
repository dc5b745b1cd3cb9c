import Mathlib.Data.List.Basic
import QueryGraph.Number.Printer

namespace QueryGraph

/-!
# The characters of number texts

* `IsNumeral`: digits, points, exponent marks and signs, with hyphens in front of digits only.
* `IsUnsigned`: such a text that begins with a digit, and `IsSigned`: one that may have a hyphen
  in front of it.
* `Number.isSigned_chars`: every number is written like this.
-/

/-- Characters of number texts, hyphens apart. -/
def isNumeralChar (c : Char) : Bool := c.isDigit || c = '.' || c = 'e' || c = '+'

/-- Texts of such characters, and of hyphens with a digit behind them. -/
inductive IsNumeral : List Char → Prop
  | nil : IsNumeral []
  | cons {c : Char} {cs : List Char} (hc : isNumeralChar c = true) (h : IsNumeral cs) :
      IsNumeral (c :: cs)
  | hyphen {c : Char} {cs : List Char} (hc : c.isDigit = true) (h : IsNumeral (c :: cs)) :
      IsNumeral ('-' :: c :: cs)

/-- A number text that begins with a digit. -/
structure IsUnsigned (cs : List Char) : Prop where
  isNumeral : IsNumeral cs
  head : ∃ c rest, cs = c :: rest ∧ c.isDigit = true

/-- Digits, at least one. -/
structure IsDigits (cs : List Char) : Prop where
  ne_nil : cs ≠ []
  all : ∀ c ∈ cs, c.isDigit = true

theorem isNumeralChar_of_isDigit {c : Char} (h : c.isDigit = true) : isNumeralChar c = true := by
  simp [isNumeralChar, h]

/-- Two number texts, one after the other, are one. -/
theorem IsNumeral.append {a b : List Char} (ha : IsNumeral a) (hb : IsNumeral b) :
    IsNumeral (a ++ b) := by
  induction ha with
  | nil => exact hb
  | cons hc _ ih => exact .cons hc ih
  | hyphen hc _ ih => exact .hyphen hc ih

/-- Digits alone are a number text, also when there are none. -/
theorem isNumeral_of_all {cs : List Char} (h : ∀ c ∈ cs, c.isDigit = true) : IsNumeral cs := by
  induction cs with
  | nil => exact .nil
  | cons c cs ih =>
    rw [List.forall_mem_cons] at h
    exact .cons (isNumeralChar_of_isDigit h.1) (ih h.2)

theorem IsDigits.isUnsigned {cs : List Char} (h : IsDigits cs) : IsUnsigned cs := by
  obtain ⟨c, rest, rfl⟩ := List.exists_cons_of_ne_nil h.ne_nil
  exact ⟨isNumeral_of_all h.all, c, rest, rfl, h.all c List.mem_cons_self⟩

/-- What begins with a digit still does with more behind it. -/
theorem IsUnsigned.append {a b : List Char} (ha : IsUnsigned a) (hb : IsNumeral b) :
    IsUnsigned (a ++ b) := by
  obtain ⟨c, rest, rfl, hc⟩ := ha.head
  exact ⟨ha.isNumeral.append hb, c, rest ++ b, rfl, hc⟩

/-- A sign may stand in front of an unsigned text. -/
theorem IsUnsigned.hyphen {cs : List Char} (h : IsUnsigned cs) : IsNumeral ('-' :: cs) := by
  obtain ⟨c, rest, rfl, hc⟩ := h.head
  exact .hyphen hc h.isNumeral

/-- A number text with or without a sign. -/
inductive IsSigned : List Char → Prop
  | plus {cs : List Char} (h : IsUnsigned cs) : IsSigned cs
  | minus {cs : List Char} (h : IsUnsigned cs) : IsSigned ('-' :: cs)

/-- A sign in front of a digit keeps a number text one. -/
theorem IsSigned.isNumeral {cs : List Char} (h : IsSigned cs) : IsNumeral cs := by
  cases h with
  | plus h => exact h.isNumeral
  | minus h => exact h.hyphen

/-- A number is never written as the empty text. -/
theorem IsSigned.ne_nil {cs : List Char} (h : IsSigned cs) : cs ≠ [] := by
  cases h with
  | plus h =>
    obtain ⟨c, rest, rfl, -⟩ := h.head
    simp
  | minus h => simp

/-! ### Integers -/

/-- A natural number is written with digits only, and with at least one. -/
theorem isDigits_decimalChars (n : Nat) : IsDigits (decimalChars n) :=
  ⟨Nat.toDigits_ne_nil, fun _ => Nat.isDigit_of_mem_toDigits (by decide) (by decide)⟩

/-- An integer is written as digits, with a hyphen in front if it is negative. -/
theorem isSigned_intChars (n : Int) : IsSigned (intChars n) := by
  have hdigits := (isDigits_decimalChars n.natAbs).isUnsigned
  rw [intChars]
  split
  · exact .minus hdigits
  · exact .plus hdigits

/-! ### Doubles -/

namespace Double

/-- Dropping the zeros at the end leaves digits, a zero if there were no others. -/
theorem isDigits_significant {ds : List Char} (h : ∀ c ∈ ds, c.isDigit = true) :
    IsDigits (significant ds) := by
  -- What is kept is a part of the digits.
  have hkept : ∀ c ∈ (ds.reverse.dropWhile (· = '0')).reverse, c.isDigit = true := by
    intro c hc
    have hsuffix := List.dropWhile_suffix (fun c => decide (c = '0')) (l := ds.reverse)
    exact h c (List.mem_reverse.mp (hsuffix.subset (List.mem_reverse.mp hc)))
  unfold significant
  split
  · exact ⟨by simp, by simp⟩
  next d rest heq => exact ⟨List.cons_ne_nil d rest, heq ▸ hkept⟩

/-- A point among or behind the digits makes an unsigned number text. -/
theorem isUnsigned_pointAfter {ds : List Char} (h : IsDigits ds) (k : Nat) :
    IsUnsigned (pointAfter ds k) := by
  obtain ⟨d, rest, rfl⟩ := List.exists_cons_of_ne_nil h.ne_nil
  -- In front of the point stand digits, filled up with zeros.
  have hwhole : IsDigits ((d :: rest).take (k + 1)
      ++ List.replicate (k + 1 - (d :: rest).length) '0') := by
    refine ⟨by simp, fun c hc => ?_⟩
    rcases List.mem_append.mp hc with hc | hc
    · exact h.all c (List.mem_of_mem_take hc)
    · rw [List.eq_of_mem_replicate hc]
      decide
  refine hwhole.isUnsigned.append (.cons (by decide) (isNumeral_of_all fun c hc => ?_))
  split at hc
  · rw [List.mem_singleton.mp hc]
    decide
  · exact h.all c (List.mem_of_mem_drop hc)

/-- With a zero and a point in front of them, digits are an unsigned number text. -/
theorem isUnsigned_pointBefore {ds : List Char} (h : IsDigits ds) (k : Nat) :
    IsUnsigned (pointBefore ds k) := by
  have hfraction : IsNumeral (List.replicate k '0' ++ ds) := by
    refine isNumeral_of_all fun c hc => ?_
    rcases List.mem_append.mp hc with hc | hc
    · rw [List.eq_of_mem_replicate hc]
      decide
    · exact h.all c hc
  exact ⟨.cons (by decide) (.cons (by decide) hfraction), '0', _, rfl, by decide⟩

/-- Digits with an exponent behind them are an unsigned number text. -/
theorem isUnsigned_withExponent {ds : List Char} (h : IsDigits ds) (k : Int) :
    IsUnsigned (withExponent ds k) := by
  obtain ⟨d, rest, rfl⟩ := List.exists_cons_of_ne_nil h.ne_nil
  -- One digit, the others behind a point if there are any, and the exponent with its sign.
  have hlead : IsDigits ((d :: rest).take 1) :=
    ⟨by simp, fun c hc => h.all c (List.mem_of_mem_take hc)⟩
  have hfraction : IsNumeral
      (if ((d :: rest).drop 1).isEmpty then [] else '.' :: (d :: rest).drop 1) := by
    split
    · exact .nil
    · exact .cons (by decide) (isNumeral_of_all fun c hc => h.all c (List.mem_of_mem_drop hc))
  have hexponent : IsNumeral ((if k < 0 then '-' else '+') :: decimalChars k.natAbs) := by
    have hdigits := (isDigits_decimalChars k.natAbs).isUnsigned
    split
    · exact hdigits.hyphen
    · exact .cons (by decide) hdigits.isNumeral
  exact (hlead.isUnsigned.append hfraction).append (.cons (by decide) hexponent)

/-- In every layout, digits and an exponent are a signed number text. -/
theorem isSigned_layout (negative : Bool) (digits : Nat) (exponent : Int) :
    IsSigned (layout negative digits exponent) := by
  have hdigits := isDigits_significant (isDigits_decimalChars digits).all
  -- Only the sign in front depends on the sign of the number.
  have hsigned : ∀ {body : List Char}, IsUnsigned body →
      IsSigned (if negative then '-' :: body else body) := by
    intro body hbody
    split
    · exact .minus hbody
    · exact .plus hbody
  refine hsigned ?_
  -- Zero has a text of its own; the other layouts depend on the size of the exponent.
  split
  · exact ⟨.cons (by decide) (.cons (by decide) (.cons (by decide) .nil)), '0', _, rfl, by decide⟩
  · split
    · exact isUnsigned_withExponent hdigits _
    · split
      · exact isUnsigned_pointBefore hdigits _
      · exact isUnsigned_pointAfter hdigits _

/-- All digits of a double with the smallest exponent are a signed number text. -/
theorem isSigned_exactChars (x : Double) : IsSigned x.exactChars := by
  have hexponent : IsNumeral ['e', '-', '1', '0', '7', '4'] :=
    .cons (by decide) (.hyphen (by decide) (isNumeral_of_all (List.all_eq_true.mp rfl)))
  -- The digits are too many to be looked at.
  have hbody : ∀ ds, IsDigits ds →
      IsSigned ((if x.negative then ['-'] else []) ++ ds ++ ['e', '-', '1', '0', '7', '4']) := by
    intro ds hds
    have hunsigned := hds.isUnsigned.append hexponent
    split
    · exact .minus hunsigned
    · exact .plus hunsigned
  exact hbody _ (isDigits_decimalChars _)

/-- A double is written as a signed number text. -/
theorem isSigned_chars (x : Double) : IsSigned x.chars := by
  rw [chars]
  split
  · exact isSigned_layout x.negative 0 0
  · -- Every candidate is a layout of some digits.
    cases hfind : x.candidates.find? fun t => Number.ofChars? t = some (.double x) with
    | none => exact isSigned_exactChars x
    | some t =>
      obtain ⟨n, -, hmem⟩ := List.mem_flatMap.mp (List.mem_of_find?_eq_some hfind)
      obtain ⟨digits, -, rfl⟩ := List.mem_map.mp hmem
      exact isSigned_layout _ _ _

end Double

/-- Every number is written in digits, points, exponent marks and signs, and no hyphen stands in
    front of anything but a digit. -/
theorem Number.isSigned_chars (n : Number) : IsSigned n.chars := by
  cases n with
  | int n _ => exact isSigned_intChars n
  | double x => exact x.isSigned_chars

end QueryGraph
