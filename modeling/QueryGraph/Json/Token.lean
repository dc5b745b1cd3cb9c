import QueryGraph.Number.Numeral

namespace QueryGraph.Json

/-!
# JSON tokens

* `Token`: a lexeme of JSON text.  A string whose escapes name half of a surrogate pair and a
  number beyond the doubles are lexemes, although no value can be read from them.
* `Token.scanString`: the characters up to the closing quote, with escapes resolved.
* `tokens cs`: the lexemes of a text.  A text that breaks off ends in `Token.bad`, and nothing
  after that point is looked at.
-/

/-- A lexeme of JSON text. -/
inductive Token where
  | openBrace
  | closeBrace
  | openBracket
  | closeBracket
  | comma
  | colon
  | null
  | bool (value : Bool)
  | number (value : Option Number)
  | string (value : Option String)
  | bad
deriving DecidableEq

/-- Part of a JSON string: a character, or a 16-bit unit given by an escape. -/
inductive Piece where
  | char (c : Char)
  | unit (n : Nat)
deriving DecidableEq

/-- The value of a hexadecimal digit. -/
def hexValue? (c : Char) : Option Nat :=
  if c.isDigit then some (c.toNat - 48)
  else if 'a' ≤ c && c ≤ 'f' then some (c.toNat - 87)
  else if 'A' ≤ c && c ≤ 'F' then some (c.toNat - 55)
  else none

/-- The character that a one-letter escape stands for. -/
def escaped? (c : Char) : Option Char :=
  if c = '"' ∨ c = '\\' ∨ c = '/' then some c
  else if c = 'b' then some (Char.ofNat 8)
  else if c = 'f' then some (Char.ofNat 12)
  else if c = 'n' then some '\n'
  else if c = 'r' then some '\r'
  else if c = 't' then some '\t'
  else none

/-- Where a scan stands inside a string: in plain text, behind a backslash, or with some
    hexadecimal digits still to come and a value collected so far. -/
inductive StringPlace where
  | plain
  | escape
  | hex (left : Nat) (value : Nat)

/-- The pieces up to the closing quote and what follows it; nothing if the string does not end
    or holds a control character or a broken escape. -/
def scanString : StringPlace → List Char → Option (List Piece × List Char)
  | _, [] => none
  | .plain, c :: cs =>
    if c = '"' then some ([], cs)
    else if c = '\\' then scanString .escape cs
    else if c.toNat < 32 then none
    else (scanString .plain cs).map fun r => (.char c :: r.1, r.2)
  | .escape, c :: cs =>
    if c = 'u' then scanString (.hex 3 0) cs
    else
      match escaped? c with
      | none => none
      | some d => (scanString .plain cs).map fun r => (.char d :: r.1, r.2)
  | .hex left value, c :: cs =>
    match hexValue? c with
    | none => none
    | some d =>
      match left with
      | 0 => (scanString .plain cs).map fun r => (.unit (16 * value + d) :: r.1, r.2)
      | n + 1 => scanString (.hex n (16 * value + d)) cs

/-- The pieces as characters.  A high and a low surrogate next to each other make one
    character; a surrogate without its partner makes the string unreadable. -/
def joinPieces : List Piece → Option (List Char)
  | [] => some []
  | .char c :: ps => (joinPieces ps).map (c :: ·)
  | .unit n :: ps =>
    if 0xD800 ≤ n ∧ n < 0xDC00 then
      match ps with
      | .unit m :: rest =>
        if 0xDC00 ≤ m ∧ m < 0xE000 then
          (joinPieces rest).map
            (Char.ofNat (0x10000 + (n - 0xD800) * 0x400 + (m - 0xDC00)) :: ·)
        else none
      | _ => none
    else if 0xDC00 ≤ n ∧ n < 0xE000 then none
    else (joinPieces ps).map (Char.ofNat n :: ·)

/-- White space between lexemes. -/
def isSpace (c : Char) : Bool := c = ' ' || c = '\t' || c = '\n' || c = '\r'

/-- What stands behind a word, if the text starts with it. -/
def dropWord : List Char → List Char → Option (List Char)
  | [], cs => some cs
  | _ :: _, [] => none
  | w :: ws, c :: cs => if w = c then dropWord ws cs else none

/-- The first lexeme of a text without leading white space, and what follows it. -/
def scanToken : List Char → Option (Token × List Char)
  | [] => none
  | c :: cs =>
    if c = '{' then some (.openBrace, cs)
    else if c = '}' then some (.closeBrace, cs)
    else if c = '[' then some (.openBracket, cs)
    else if c = ']' then some (.closeBracket, cs)
    else if c = ',' then some (.comma, cs)
    else if c = ':' then some (.colon, cs)
    else if c = '"' then
      (scanString .plain cs).map fun r =>
        (.string ((joinPieces r.1).map String.ofList), r.2)
    else if c = 'n' then (dropWord ['u', 'l', 'l'] cs).map fun r => (.null, r)
    else if c = 't' then (dropWord ['r', 'u', 'e'] cs).map fun r => (.bool true, r)
    else if c = 'f' then (dropWord ['a', 'l', 's', 'e'] cs).map fun r => (.bool false, r)
    else (Numeral.scan (c :: cs)).map fun r => (.number r.1.value?, r.2)

/-- The lexemes of a text, at most a given number of them. -/
def tokensUpTo : Nat → List Char → List Token
  | 0, _ => []
  | n + 1, cs =>
    match cs.dropWhile isSpace with
    | [] => []
    | d :: ds =>
      match scanToken (d :: ds) with
      | none => [.bad]
      | some (t, rest) => t :: tokensUpTo n rest

/-- The lexemes of a text.  Each takes a character, so their number is bounded by its
    length. -/
def tokens (cs : List Char) : List Token := tokensUpTo cs.length cs

end QueryGraph.Json
