namespace QueryGraph.Toml

/-!
# TOML strings

* `Form`: the four ways to write a string: with double or single quotes, on one line or on
  several.  Only those with double quotes have escapes.
* `Form.step`: what one more character of a string does; `Form.scan` reads up to the closing
  quotes.
* `scanString`: a string in any form, from its opening quotes on.
-/

/-- A way to write a string. -/
structure Form where
  quote : Char
  escapes : Bool
  multiline : Bool
deriving DecidableEq

/-- Where a scan stands inside a string: in plain text; behind a carriage return; behind some
    quotes that may be closing ones; behind a backslash; with hexadecimal digits still to come;
    behind a backslash and blanks that must end the line, or behind their carriage return; or in
    the blank text that follows such a line end, or behind a carriage return in it. -/
inductive Place where
  | plain
  | afterReturn
  | quotes (count : Nat)
  | escape
  | hex (left : Nat) (value : Nat)
  | lineEnd
  | lineEndReturn
  | skip
  | skipReturn
deriving DecidableEq

/-- What a character does: it goes on, adding to the string; it ends the string, adding to it,
    and may itself stand behind it; or it does not fit. -/
inductive Effect where
  | go (added : List Char) (place : Place)
  | stop (added : List Char) (remains : Bool)
  | fail
deriving DecidableEq

/-- Characters that may stand in a string as they are. -/
def isPlain (c : Char) : Bool := c = '\t' || (32 ≤ c.toNat && c.toNat ≠ 127)

/-- A blank inside a line. -/
def isBlank (c : Char) : Bool := c = ' ' || c = '\t'

/-- The value of a hexadecimal digit. -/
def hexValue? (c : Char) : Option Nat :=
  if c.isDigit then some (c.toNat - 48)
  else if 'a' ≤ c && c ≤ 'f' then some (c.toNat - 87)
  else if 'A' ≤ c && c ≤ 'F' then some (c.toNat - 55)
  else none

/-- The character that a one-letter escape stands for. -/
def escaped? (c : Char) : Option Char :=
  if c = '"' ∨ c = '\\' then some c
  else if c = 'b' then some (Char.ofNat 8)
  else if c = 't' then some '\t'
  else if c = 'n' then some '\n'
  else if c = 'f' then some (Char.ofNat 12)
  else if c = 'r' then some '\r'
  else none

/-- Whether a number is that of a character. -/
def isScalarValue (n : Nat) : Bool := n < 0xD800 || (0xE000 ≤ n && n < 0x110000)

namespace Form

/-- A character in plain text. -/
def plainStep (f : Form) (c : Char) : Effect :=
  if c = f.quote then if f.multiline then .go [] (.quotes 1) else .stop [] false
  else if c = '\\' ∧ f.escapes then .go [] .escape
  else if c = '\n' then if f.multiline then .go ['\n'] .plain else .fail
  else if c = '\r' then if f.multiline then .go [] .afterReturn else .fail
  else if isPlain c then .go [c] .plain
  else .fail

/-- The same effect with some characters in front of what it adds. -/
def withFront (front : List Char) : Effect → Effect
  | .go added place => .go (front ++ added) place
  | .stop added remains => .stop (front ++ added) remains
  | .fail => .fail

/-- A character behind a backslash. -/
def escapeStep (f : Form) (c : Char) : Effect :=
  match escaped? c with
  | some d => .go [d] .plain
  | none =>
    if c = 'u' then .go [] (.hex 3 0)
    else if c = 'U' then .go [] (.hex 7 0)
    else if f.multiline then
      if isBlank c then .go [] .lineEnd
      else if c = '\n' then .go [] .skip
      else if c = '\r' then .go [] .lineEndReturn
      else .fail
    else .fail

/-- A hexadecimal digit; the last one completes the number of a character. -/
def hexStep (left value : Nat) (c : Char) : Effect :=
  match hexValue? c, left with
  | none, _ => .fail
  | some d, 0 =>
    if isScalarValue (16 * value + d) then .go [Char.ofNat (16 * value + d)] .plain else .fail
  | some d, n + 1 => .go [] (.hex n (16 * value + d))

/-- What one more character does. -/
def step (f : Form) (place : Place) (c : Char) : Effect :=
  match place with
  | .plain => f.plainStep c
  | .afterReturn => if c = '\n' then .go ['\n'] .plain else .fail
  | .quotes n =>
    if c = f.quote then
      if n < 5 then .go [] (.quotes (n + 1)) else .stop (List.replicate 2 f.quote) true
    else if 3 ≤ n then .stop (List.replicate (n - 3) f.quote) true
    else withFront (List.replicate n f.quote) (f.plainStep c)
  | .escape => f.escapeStep c
  | .hex left value => hexStep left value c
  | .lineEnd =>
    if isBlank c then .go [] .lineEnd
    else if c = '\n' then .go [] .skip
    else if c = '\r' then .go [] .lineEndReturn
    else .fail
  | .lineEndReturn => if c = '\n' then .go [] .skip else .fail
  | .skip =>
    if isBlank c || c = '\n' then .go [] .skip
    else if c = '\r' then .go [] .skipReturn
    else f.plainStep c
  | .skipReturn => if c = '\n' then .go [] .skip else .fail

/-- What the end of the text does: it ends a string whose closing quotes are complete. -/
def finish (f : Form) : Place → Option (List Char)
  | .quotes n => if 3 ≤ n then some (List.replicate (n - 3) f.quote) else none
  | _ => none

/-- The characters of a string up to its closing quotes, and what follows them. -/
def scan (f : Form) (place : Place) : List Char → Option (List Char × List Char)
  | [] => (f.finish place).map fun added => (added, [])
  | c :: cs =>
    match f.step place c with
    | .go added next => (f.scan next cs).map fun r => (added ++ r.1, r.2)
    | .stop added remains => some (added, if remains then c :: cs else cs)
    | .fail => none

end Form

/-- Double quotes on one line. -/
def basic : Form := ⟨'"', true, false⟩

/-- Double quotes on several lines. -/
def multilineBasic : Form := ⟨'"', true, true⟩

/-- Single quotes on one line. -/
def literal : Form := ⟨'\'', false, false⟩

/-- Single quotes on several lines. -/
def multilineLiteral : Form := ⟨'\'', false, true⟩

/-- A line end directly behind the opening quotes does not count. -/
def dropLineEnd : List Char → List Char
  | '\n' :: cs => cs
  | '\r' :: '\n' :: cs => cs
  | cs => cs

/-- A string on one line. -/
def scanLineString : List Char → Option (List Char × List Char)
  | '"' :: cs => basic.scan .plain cs
  | '\'' :: cs => literal.scan .plain cs
  | _ => none

/-- A string in any form. -/
def scanString : List Char → Option (List Char × List Char)
  | '"' :: '"' :: '"' :: cs => multilineBasic.scan .plain (dropLineEnd cs)
  | '\'' :: '\'' :: '\'' :: cs => multilineLiteral.scan .plain (dropLineEnd cs)
  | cs => scanLineString cs

end QueryGraph.Toml
