import QueryGraph.Number.Double

namespace QueryGraph

/-!
# Number texts

* `Number`: a number as JSON and TOML documents hold it, a machine integer or a double.
* `Numeral`: a number text taken apart, and `Numeral.scan`, which takes the longest number text
  off the front of a list of characters.
* `Numeral.value?`: the number a text stands for.  A text without point and exponent that fits
  a signed or an unsigned 64-bit word is an integer; everything else, `-0` included, is a
  double; a double beyond the finite ones is nothing.
-/

/-- An integer that fits a signed or an unsigned 64-bit word, or a finite double. -/
inductive Number where
  | int (value : Int) 
    (fits : -9223372036854775808 ≤ value ∧ value < 18446744073709551616)
  | double (value : Double)
deriving DecidableEq

instance : Inhabited Number := ⟨.int 0 (by decide)⟩

/-- The natural number a list of decimal digits stands for. -/
def digitsValue (ds : List Char) : Nat := ds.foldl (fun n d => 10 * n + (d.toNat - 48)) 0

/-- A number text in its parts, digits as characters. -/
structure Numeral where
  negative : Bool
  whole : List Char
  fraction : List Char
  exponentNegative : Bool
  exponent : List Char
deriving DecidableEq

namespace Numeral

/-- The part before the point: a lone zero, or digits that do not start with one. -/
def scanWhole : List Char → Option (List Char × List Char)
  | [] => none
  | c :: cs =>
    if c = '0' then
      match cs with
      | d :: _ => if d.isDigit then none else some (['0'], cs)
      | [] => some (['0'], [])
    else if c.isDigit then some ((c :: cs).takeWhile Char.isDigit, (c :: cs).dropWhile Char.isDigit)
    else none

/-- The part after a point, which needs a digit; nothing is taken where no point stands. -/
def scanFraction : List Char → Option (List Char × List Char)
  | '.' :: cs =>
    if (cs.takeWhile Char.isDigit).isEmpty then none
    else some (cs.takeWhile Char.isDigit, cs.dropWhile Char.isDigit)
  | cs => some ([], cs)

/-- The digits of an exponent, of which there is at least one. -/
def scanExponentDigits (cs : List Char) : Option (List Char × List Char) :=
  if (cs.takeWhile Char.isDigit).isEmpty then none
  else some (cs.takeWhile Char.isDigit, cs.dropWhile Char.isDigit)

/-- An optional exponent with an optional sign; the flag says that it is negative. -/
def scanExponent : List Char → Option (Bool × List Char × List Char)
  | c :: cs =>
    if c = 'e' || c = 'E' then
      match cs with
      | '+' :: ds => (scanExponentDigits ds).map fun p => (false, p.1, p.2)
      | '-' :: ds => (scanExponentDigits ds).map fun p => (true, p.1, p.2)
      | ds => (scanExponentDigits ds).map fun p => (false, p.1, p.2)
    else some (false, [], c :: cs)
  | [] => some (false, [], [])

/-- The longest number text at the front, and what follows it; nothing if the text breaks off
    or breaks the grammar on the way. -/
def scan (cs : List Char) : Option (Numeral × List Char) :=
  let negative := cs.head? = some '-'
  match scanWhole (if negative then cs.drop 1 else cs) with
  | none => none
  | some (whole, cs₁) =>
    match scanFraction cs₁ with
    | none => none
    | some (fraction, cs₂) =>
      match scanExponent cs₂ with
      | none => none
      | some (exponentNegative, exponent, cs₃) =>
        some (⟨negative, whole, fraction, exponentNegative, exponent⟩, cs₃)

/-- The double nearest to a number text; nothing if it is infinite. -/
def double? (n : Numeral) : Option Double :=
  let size : Int := digitsValue n.exponent
  Double.ofDecimal? n.negative (digitsValue (n.whole ++ n.fraction))
    ((if n.exponentNegative then -size else size) - n.fraction.length)

/-- The integer a text stands for, if it has neither point nor exponent and fits. -/
def int? (n : Numeral) : Option Number :=
  if n.fraction.isEmpty && n.exponent.isEmpty then
    let size : Int := digitsValue n.whole
    let value := if n.negative then -size else size
    if h : (-9223372036854775808 ≤ value ∧ value < 18446744073709551616) ∧
        (n.negative = true → value ≠ 0) then
      some (.int value h.1)
    else none
  else none

/-- The number a text stands for; nothing if it is an infinite double. -/
def value? (n : Numeral) : Option Number :=
  match n.int? with
  | some i => some i
  | none => n.double?.map .double

end Numeral

/-- The number a whole text stands for. -/
def Number.ofChars? (cs : List Char) : Option Number :=
  match Numeral.scan cs with
  | some (n, []) => n.value?
  | _ => none

end QueryGraph
