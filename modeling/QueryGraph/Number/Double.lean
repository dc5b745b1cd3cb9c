namespace QueryGraph

/-!
# Finite doubles, exactly

* `Double`: a finite binary64 number as sign, mantissa and scale, one value for each bit
  pattern.
* `roundQuotient num den`: a quotient of naturals to the nearest natural, halves to even.
* `Double.ofRatio?`: the double nearest to a quotient, unless it is too large.
* `Double.ofDecimal?`: the double nearest to `digits * 10 ^ exponent`.

All arithmetic is on naturals, so nothing here depends on the floating point unit.
-/

/-- A finite binary64 number: `mantissa * 2 ^ scale / 2 ^ 1074`, with a sign of its own.  The
    mantissa is below `2 ^ 53`, and not below `2 ^ 52` unless the scale is zero, which makes the
    representation unique. -/
structure Double where
  negative : Bool
  mantissa : Nat
  scale : Nat
  mantissa_lt : mantissa < 9007199254740992
  normal : scale = 0 ∨ 4503599627370496 ≤ mantissa
  scale_le : scale ≤ 2045
deriving DecidableEq

/-- Nearest natural to `num / den`; a half goes to the even neighbour. -/
def roundQuotient (num den : Nat) : Nat :=
  let q := num / den
  let r := num % den
  if 2 * r < den then q
  else if den < 2 * r then q + 1
  else if q % 2 = 0 then q
  else q + 1

/-- A power of ten. -/
def tenTo (n : Nat) : Nat := Nat.pow 10 n

namespace Double

/-- Zero with a sign. -/
def zero (negative : Bool) : Double where
  negative := negative
  mantissa := 0
  scale := 0
  mantissa_lt := by decide
  normal := Or.inl rfl
  scale_le := by decide

instance : Inhabited Double := ⟨zero false⟩

/-- The double of these parts, if they are those of a finite one. -/
def ofParts? (negative : Bool) (mantissa scale : Nat) : Option Double :=
  if h : mantissa < 9007199254740992 ∧ (scale = 0 ∨ 4503599627370496 ≤ mantissa) ∧
      scale ≤ 2045 then
    some ⟨negative, mantissa, scale, h.1, h.2.1, h.2.2⟩
  else none

/-- The double nearest to `num / den`, ties to even; nothing if it is out of range. -/
def ofRatio? (negative : Bool) (num den : Nat) : Option Double :=
  let scaled := num <<< 1074
  let scale := Nat.log2 (scaled / den) - 52
  let mantissa := roundQuotient scaled (den <<< scale)
  if mantissa = 9007199254740992 then ofParts? negative 4503599627370496 (scale + 1)
  else ofParts? negative mantissa scale

/-- The double nearest to `digits * 10 ^ exponent`; nothing if it is out of range.  The two
    bounds keep the powers small: beyond them the answer is known. -/
def ofDecimal? (negative : Bool) (digits : Nat) (exponent : Int) : Option Double :=
  if digits = 0 then some (zero negative)
  else if 310 < exponent then none
  else if exponent < -(400 + (Nat.log2 digits : Int)) then some (zero negative)
  else if 0 ≤ exponent then ofRatio? negative (digits * tenTo exponent.toNat) 1
  else ofRatio? negative digits (tenTo (-exponent).toNat)

end Double

end QueryGraph
