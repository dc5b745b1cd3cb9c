import QueryGraph.Number.Numeral

namespace QueryGraph

/-!
# Printing numbers

* `Double.layout`: a sign, digits and an exponent as text.  Exponents of the leading digit
  from -5 to 15 are written positionally with at least one decimal, all others with a signed
  exponent.
* `Double.chars`: the fewest digits that read back, and of those the nearest.
* `Number.text`: integers in decimal, doubles as above.
-/

/-- The decimal digits of a natural number. -/
def decimalChars (n : Nat) : List Char := Nat.toDigits 10 n

namespace Double

/-- Decimal digits without the zeros at their end; zero keeps one. -/
def significant (ds : List Char) : List Char :=
  match (ds.reverse.dropWhile (· = '0')).reverse with
  | [] => ['0']
  | d :: rest => d :: rest

/-- Digits with the point after the first `k + 1` of them, zeros filled in where needed. -/
def pointAfter (ds : List Char) (k : Nat) : List Char :=
  let whole := ds.take (k + 1) ++ List.replicate (k + 1 - ds.length) '0'
  let fraction := ds.drop (k + 1)
  whole ++ '.' :: (if fraction.isEmpty then ['0'] else fraction)

/-- Digits behind a point and `k` zeros. -/
def pointBefore (ds : List Char) (k : Nat) : List Char :=
  '0' :: '.' :: (List.replicate k '0' ++ ds)

/-- Digits with a point after the first and a signed exponent. -/
def withExponent (ds : List Char) (k : Int) : List Char :=
  let fraction := ds.drop 1
  ds.take 1 ++ (if fraction.isEmpty then [] else '.' :: fraction) ++
    'e' :: (if k < 0 then '-' else '+') :: decimalChars k.natAbs

/-- The text of `digits * 10 ^ exponent`. -/
def layout (negative : Bool) (digits : Nat) (exponent : Int) : List Char :=
  let all := decimalChars digits
  let ds := significant all
  let k := exponent + all.length - 1
  let body :=
    if digits = 0 then ['0', '.', '0']
    else if k < -5 ∨ 15 < k then withExponent ds k
    else if k < 0 then pointBefore ds (-k - 1).toNat
    else pointAfter ds k.toNat
  if negative then '-' :: body else body

/-- The magnitude of a double in multiples of `1 / 2 ^ 1074`. -/
def size (x : Double) : Nat := x.mantissa <<< x.scale

/-- The exponent of the leading decimal digit of a magnitude other than zero.  The factor
    `10 ^ 400` brings the smallest magnitude above one. -/
def leadingExponent (x : Double) : Int :=
  (decimalChars ((x.size * tenTo 400) >>> 1074)).length - 401

/-- The two neighbours of the magnitude among the multiples of `10 ^ unit`, the nearer one
    first; of two equally near ones the even one is first. -/
def neighbours (x : Double) (unit : Int) : List Nat :=
  let num := x.size * tenTo (-unit).toNat
  let den := tenTo unit.toNat <<< 1074
  let below := num / den
  if roundQuotient num den = below then [below, below + 1] else [below + 1, below]

/-- The texts tried for a double: for each number of digits from one to seventeen the two
    neighbours on that decimal grid. -/
def candidates (x : Double) : List (List Char) :=
  let k := x.leadingExponent
  (List.range 17).flatMap fun (n : Nat) =>
    (x.neighbours (k - n)).map fun digits => layout x.negative digits (k - n)

/-- All digits of a double: an integer over a power of two is an integer over a power of ten. -/
def exactChars (x : Double) : List Char :=
  (if x.negative then ['-'] else []) ++
    decimalChars (x.size * Nat.pow 5 1074) ++ ['e', '-', '1', '0', '7', '4']

/-- The shortest candidate that reads back as the same double. -/
def chars (x : Double) : List Char :=
  if x.mantissa = 0 then layout x.negative 0 0
  else (x.candidates.find? fun t => Number.ofChars? t = some (.double x)).getD x.exactChars

end Double

/-- The characters of an integer. -/
def intChars (n : Int) : List Char :=
  if n < 0 then '-' :: decimalChars n.natAbs else decimalChars n.natAbs

/-- The characters of a number. -/
def Number.chars : Number → List Char
  | .int n _ => intChars n
  | .double x => x.chars

/-- The text of a number. -/
def Number.text (n : Number) : String := String.ofList n.chars

end QueryGraph
