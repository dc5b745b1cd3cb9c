import QueryGraph.Json.Basic
import QueryGraph.Number.Printer

namespace QueryGraph.Json

/-!
# Printing JSON

* `stringChars s`: a text between double quotes.  Only quotes, backslashes and the controls
  below the space are escaped.
* `compact v`: a value without any white space.
* `pretty v`: one member or item a line, two spaces deeper at each level; empty containers stay
  closed.
-/

/-- A hexadecimal digit in lower case. -/
def hexDigit (n : Nat) : Char := Nat.digitChar n

/-- One character inside a JSON string. -/
def escapeChar (c : Char) : List Char :=
  if c = '"' then ['\\', '"']
  else if c = '\\' then ['\\', '\\']
  else if c = '\n' then ['\\', 'n']
  else if c = '\r' then ['\\', 'r']
  else if c = '\t' then ['\\', 't']
  else if c.toNat = 8 then ['\\', 'b']
  else if c.toNat = 12 then ['\\', 'f']
  else if c.toNat < 32 then
    ['\\', 'u', '0', '0', hexDigit (c.toNat / 16), hexDigit (c.toNat % 16)]
  else [c]

/-- A JSON string. -/
def stringChars (s : String) : List Char := '"' :: (s.toList.flatMap escapeChar ++ ['"'])

mutual

/-- The characters of a value, without white space. -/
def compactChars : Json → List Char
  | .null => ['n', 'u', 'l', 'l']
  | .bool true => ['t', 'r', 'u', 'e']
  | .bool false => ['f', 'a', 'l', 's', 'e']
  | .number n => n.chars
  | .string s => stringChars s
  | .array items => '[' :: (compactItems items ++ [']'])
  | .object members => '{' :: (compactMembers members ++ ['}'])

/-- The items of an array between their commas. -/
def compactItems : List Json → List Char
  | [] => []
  | v :: rest => compactChars v ++ (if rest.isEmpty then [] else ',' :: compactItems rest)

/-- The members of an object between their commas. -/
def compactMembers : List (String × Json) → List Char
  | [] => []
  | (k, v) :: rest =>
    stringChars k ++ ':' :: (compactChars v ++
      (if rest.isEmpty then [] else ',' :: compactMembers rest))

end

/-- A value on one line, without white space. -/
def compact (v : Json) : String := String.ofList (compactChars v)

/-- A new line at a depth. -/
def newline (depth : Nat) : List Char := '\n' :: List.replicate (2 * depth) ' '

mutual

/-- The characters of a value whose first line stands at a depth. -/
def prettyChars (depth : Nat) : Json → List Char
  | .null => ['n', 'u', 'l', 'l']
  | .bool true => ['t', 'r', 'u', 'e']
  | .bool false => ['f', 'a', 'l', 's', 'e']
  | .number n => n.chars
  | .string s => stringChars s
  | .array items =>
    if items.isEmpty then ['[', ']']
    else '[' :: (prettyItems (depth + 1) items ++ (newline depth ++ [']']))
  | .object members =>
    if members.isEmpty then ['{', '}']
    else '{' :: (prettyMembers (depth + 1) members ++ (newline depth ++ ['}']))

/-- The items of an array, each on lines of its own. -/
def prettyItems (depth : Nat) : List Json → List Char
  | [] => []
  | v :: rest =>
    newline depth ++ (prettyChars depth v ++
      (if rest.isEmpty then [] else ',' :: prettyItems depth rest))

/-- The members of an object, each on lines of its own. -/
def prettyMembers (depth : Nat) : List (String × Json) → List Char
  | [] => []
  | (k, v) :: rest =>
    newline depth ++ (stringChars k ++ ':' :: ' ' :: (prettyChars depth v ++
      (if rest.isEmpty then [] else ',' :: prettyMembers depth rest)))

end

/-- A value over several lines. -/
def pretty (v : Json) : String := String.ofList (prettyChars 0 v)

end QueryGraph.Json
