import QueryGraph.Number.Numeral

namespace QueryGraph.Toml

/-!
# Numbers, truth values and dates in TOML

* `isInteger`, `isFloat`, `isDateTime`: the texts of numbers and dates.  Nothing is done with
  their values here, but a text out of range is no number.
* `scanScalar`: take such a text off the front.
-/

/-- Digits in groups with single underscores between them; the flag says that a digit stands
    in front. -/
def isGrouped (isDigit : Char → Bool) : Bool → List Char → Bool
  | afterDigit, [] => afterDigit
  | afterDigit, c :: cs =>
    if isDigit c then isGrouped isDigit true cs
    else if c = '_' && afterDigit then isGrouped isDigit false cs
    else false

/-- Drop a sign. -/
def unsigned : List Char → List Char
  | '+' :: cs => cs
  | '-' :: cs => cs
  | cs => cs

/-- Whether a text has a minus sign. -/
def isNegative (cs : List Char) : Bool := cs.head? = some '-'

/-- Decimal digits in groups, without a leading zero. -/
def isDecimal (cs : List Char) : Bool :=
  cs = ['0'] || (isGrouped Char.isDigit false cs && cs.head? ≠ some '0')

/-- The value of digits in groups. -/
def groupedValue (base : Nat) (cs : List Char) : Nat :=
  cs.foldl (fun n c =>
    if c = '_' then n
    else base * n + (if c.isDigit then c.toNat - 48
      else if c.toNat < 97 then c.toNat - 55
      else c.toNat - 87)) 0

/-- A hexadecimal digit. -/
def isHexDigit (c : Char) : Bool :=
  c.isDigit || ('a' ≤ c && c ≤ 'f') || ('A' ≤ c && c ≤ 'F')

/-- Integers lie below two to the power of 63. -/
def integerBound : Nat := 9223372036854775808

/-- The text of an integer that fits a signed 64-bit word. -/
def isInteger (cs : List Char) : Bool :=
  match cs with
  | '0' :: 'x' :: ds => isGrouped isHexDigit false ds && groupedValue 16 ds < integerBound
  | '0' :: 'o' :: ds =>
    isGrouped (fun c => '0' ≤ c && c ≤ '7') false ds && groupedValue 8 ds < integerBound
  | '0' :: 'b' :: ds =>
    isGrouped (fun c => c = '0' || c = '1') false ds && groupedValue 2 ds < integerBound
  | cs =>
    isDecimal (unsigned cs) &&
      groupedValue 10 (unsigned cs) < integerBound + (if isNegative cs then 1 else 0)

/-- Whether a character opens an exponent. -/
def isExponentMark (c : Char) : Bool := c = 'e' || c = 'E'

/-- An exponent with its mark. -/
def isExponent : List Char → Bool
  | c :: cs => isExponentMark c && isGrouped Char.isDigit false (unsigned cs)
  | [] => false

/-- The text of a floating point number; one beyond the doubles is none. -/
def isFloat (cs : List Char) : Bool :=
  let body := unsigned cs
  if body = ['i', 'n', 'f'] ∨ body = ['n', 'a', 'n'] then true
  else
    let whole := body.takeWhile fun c => c ≠ '.' && !isExponentMark c
    let tail := body.dropWhile fun c => c ≠ '.' && !isExponentMark c
    let fraction := (tail.drop 1).takeWhile fun c => !isExponentMark c
    let exponent :=
      if tail.head? = some '.' then (tail.drop 1).dropWhile fun c => !isExponentMark c else tail
    let size : Int := groupedValue 10 (unsigned (exponent.drop 1))
    let digits := whole ++ if tail.head? = some '.' then fraction else []
    let places := if tail.head? = some '.' then fraction.countP Char.isDigit else 0
    isDecimal whole && !tail.isEmpty &&
      (tail.head? ≠ some '.' || isGrouped Char.isDigit false fraction) &&
      (exponent.isEmpty || isExponent exponent) &&
      (isNegative cs ||
        (Double.ofDecimal? false (groupedValue 10 digits)
          ((if isNegative (exponent.drop 1) then -size else size) - places)).isSome)

/-- Two digits for a number within bounds. -/
def isTwoDigits (low high : Nat) : List Char → Bool
  | [a, b] => a.isDigit && b.isDigit && low ≤ digitsValue [a, b] && digitsValue [a, b] ≤ high
  | _ => false

/-- The number of days of a month. -/
def daysIn (year month : Nat) : Nat :=
  if month = 2 then
    if year % 4 = 0 ∧ (year % 100 ≠ 0 ∨ year % 400 = 0) then 29 else 28
  else if month = 4 ∨ month = 6 ∨ month = 9 ∨ month = 11 then 30
  else 31

/-- A date, `YYYY-MM-DD`. -/
def isDate : List Char → Bool
  | [y₁, y₂, y₃, y₄, '-', m₁, m₂, '-', d₁, d₂] =>
    [y₁, y₂, y₃, y₄].all Char.isDigit && isTwoDigits 1 12 [m₁, m₂] &&
      isTwoDigits 1 (daysIn (digitsValue [y₁, y₂, y₃, y₄]) (digitsValue [m₁, m₂])) [d₁, d₂]
  | _ => false

/-- An offset from universal time, or none. -/
def isOffset : List Char → Bool
  | [] => true
  | ['Z'] => true
  | ['z'] => true
  | [s, h₁, h₂, ':', m₁, m₂] =>
    (s = '+' || s = '-') && isTwoDigits 0 23 [h₁, h₂] && isTwoDigits 0 59 [m₁, m₂]
  | _ => false

/-- A fraction of a second, or none, with what may follow it. -/
def isFraction (rest : List Char → Bool) : List Char → Bool
  | '.' :: cs =>
    !(cs.takeWhile Char.isDigit).isEmpty && rest (cs.dropWhile Char.isDigit)
  | cs => rest cs

/-- A time, `hh:mm:ss` with an optional fraction, and what may follow it. -/
def isTime (rest : List Char → Bool) : List Char → Bool
  | h₁ :: h₂ :: ':' :: m₁ :: m₂ :: ':' :: s₁ :: s₂ :: cs =>
    isTwoDigits 0 23 [h₁, h₂] && isTwoDigits 0 59 [m₁, m₂] && isTwoDigits 0 60 [s₁, s₂] &&
      isFraction rest cs
  | _ => false

/-- A date, a time, or both with an optional offset. -/
def isDateTime (cs : List Char) : Bool :=
  isDate cs || isTime List.isEmpty cs ||
    (isDate (cs.take 10) &&
      match cs.drop 10 with
      | d :: time => (d = 'T' || d = 't') && isTime isOffset time
      | [] => false)

/-- Whether a text is a number, a truth value or a date. -/
def isScalar (cs : List Char) : Bool :=
  cs = ['t', 'r', 'u', 'e'] || cs = ['f', 'a', 'l', 's', 'e'] || isInteger cs || isFloat cs ||
    isDateTime cs

/-- Characters of numbers, words and dates. -/
def isScalarChar (c : Char) : Bool :=
  c.isAlphanum || c = '+' || c = '-' || c = '.' || c = ':' || c = '_'

/-- Take a number, a truth value or a date off the front.  Between a date and its time a space
    may stand in place of the letter. -/
def scanScalar (cs : List Char) : Option (List Char) :=
  let word := cs.takeWhile isScalarChar
  let rest := cs.dropWhile isScalarChar
  if isDate word ∧ rest.head? = some ' ' ∧ ((rest.drop 1).head?.any Char.isDigit) then
    if isTime isOffset ((rest.drop 1).takeWhile isScalarChar) then
      some ((rest.drop 1).dropWhile isScalarChar)
    else none
  else if isScalar word then some rest
  else none

end QueryGraph.Toml
