import QueryGraph.Toml.Item
import QueryGraph.Toml.Scalar
import QueryGraph.Toml.Text

namespace QueryGraph.Toml

/-!
# Reading TOML

* `scanKey`: a key, as the list of its dotted parts.
* `readValue`: a value of any type.
* `read`: a document, as the entries of its outermost table.
-/

/-- Arrays and tables between braces nest less deep than this, and keys have fewer parts. -/
def maxDepth : Nat := 80

/-! ### Blanks and line ends -/

/-- Drop the blanks at the front. -/
def skipBlanks (cs : List Char) : List Char := cs.dropWhile isBlank

/-- Drop blanks, line ends and comments at the front; the flag says that a comment is open.  A
    character that may not stand in a comment stops it, and nothing can begin with such a
    character. -/
def skipLines : Bool → List Char → List Char
  | _, [] => []
  | true, c :: cs =>
    if c = '\n' then skipLines false cs
    else if c = '\r' then
      match cs with
      | '\n' :: rest => skipLines false rest
      | _ => c :: cs
    else if isPlain c then skipLines true cs
    else c :: cs
  | false, c :: cs =>
    if isBlank c || c = '\n' then skipLines false cs
    else if c = '\r' then
      match cs with
      | '\n' :: rest => skipLines false rest
      | _ => c :: cs
    else if c = '#' then skipLines true cs
    else c :: cs

/-- What follows the end of a line, which may have blanks and a comment in front of it. -/
def endLine (cs : List Char) : Option (List Char) :=
  let rest :=
    match skipBlanks cs with
    | '#' :: comment => comment.dropWhile isPlain
    | other => other
  match rest with
  | [] => some []
  | '\n' :: next => some next
  | '\r' :: '\n' :: next => some next
  | _ => none

/-! ### Keys -/

/-- Characters of keys without quotes. -/
def isKeyChar (c : Char) : Bool := c.isAlphanum || c = '_' || c = '-'

/-- One part of a key. -/
def scanKeyPart (cs : List Char) : Option (String × List Char) :=
  match scanLineString cs with
  | some (part, rest) => some (String.ofList part, rest)
  | none =>
    if (cs.takeWhile isKeyChar).isEmpty then none
    else some (String.ofList (cs.takeWhile isKeyChar), cs.dropWhile isKeyChar)

/-- The parts of a key, with a bound on their number, and what follows the blanks behind it. -/
def scanKeyParts : Nat → List Char → Option (List String × List Char)
  | 0, _ => none
  | n + 1, cs =>
    match scanKeyPart (skipBlanks cs) with
    | none => none
    | some (part, rest) =>
      match skipBlanks rest with
      | '.' :: more => (scanKeyParts n more).map fun r => (part :: r.1, r.2)
      | other => some ([part], other)

/-- A key: its path and its last part. -/
def scanKey (cs : List Char) : Option ((List String × String) × List Char) :=
  match scanKeyParts (maxDepth - 1) cs with
  | none => none
  | some (parts, rest) => parts.getLast?.map fun last => ((parts.dropLast, last), rest)

/-! ### Values -/

mutual

/-- A value, and what follows it.  The first number bounds the length of the text, the second
    one counts the containers around the value. -/
def readValue : Nat → Nat → List Char → Option (Item × List Char)
  | 0, _, _ => none
  | fuel + 1, depth, cs =>
    match cs with
    | '[' :: rest =>
      if depth + 1 < maxDepth then
        (readItems fuel (depth + 1) (skipLines false rest)).map fun r => (.array r.1, r.2)
      else none
    | '\x7b' :: rest =>
      if depth + 1 < maxDepth then
        match skipBlanks rest with
        | '\x7d' :: rest => some (.table .braces [], rest)
        | rest =>
          (readPairs fuel (depth + 1) rest []).map fun r => (.table .braces r.1, r.2)
      else none
    | cs =>
      match scanString cs with
      | some (s, rest) => some (.string (String.ofList s), rest)
      | none => (scanScalar cs).map fun rest => (.scalar, rest)

/-- The items of an array up to its closing bracket. -/
def readItems : Nat → Nat → List Char → Option (List Item × List Char)
  | 0, _, _ => none
  | _ + 1, _, ']' :: rest => some ([], rest)
  | fuel + 1, depth, cs =>
    match readValue fuel depth cs with
    | none => none
    | some (item, rest) =>
      match skipLines false rest with
      | ',' :: more =>
        (readItems fuel depth (skipLines false more)).map fun r => (item :: r.1, r.2)
      | ']' :: more => some ([item], more)
      | _ => none

/-- The entries of a table between braces up to the closing one. -/
def readPairs : Nat → Nat → List Char → Entries → Option (Entries × List Char)
  | 0, _, _, _ => none
  | fuel + 1, depth, cs, entries =>
    match scanKey cs with
    | some ((path, key), '=' :: rest) =>
      match readValue fuel depth (skipBlanks rest) with
      | none => none
      | some (item, rest) =>
        match define path key item .braces entries with
        | none => none
        | some entries =>
          match skipBlanks rest with
          | ',' :: more => readPairs fuel depth more entries
          | '\x7d' :: more => some (entries, more)
          | _ => none
    | _ => none

end

/-! ### Documents -/

/-- A document in progress: the outermost table, and the path of the table that the last header
    opened. -/
structure Draft where
  entries : Entries
  current : List String

/-- Add an entry to the table that the last header opened. -/
def Draft.define (d : Draft) (path : List String) (key : String) (item : Item) : Option Draft :=
  (modifyAt false (Toml.define path key item) d.current .header d.entries).map fun entries =>
    { d with entries := entries }

/-- Open a table, or an element of an array of tables. -/
def Draft.openHeader (d : Draft) (element : Bool) (path : List String) (key : String) :
    Option Draft :=
  (if element then openElement path key d.entries else openTable path key d.entries).map
    fun entries => ⟨entries, path ++ [key]⟩

/-- A header from its second character on, and what follows its line. -/
def readHeader (d : Draft) (cs : List Char) : Option (Draft × List Char) :=
  match cs with
  | '[' :: cs =>
    match scanKey cs with
    | some ((path, key), ']' :: ']' :: rest) =>
      (endLine rest).bind fun next => (d.openHeader true path key).map fun d => (d, next)
    | _ => none
  | cs =>
    match scanKey cs with
    | some ((path, key), ']' :: rest) =>
      (endLine rest).bind fun next => (d.openHeader false path key).map fun d => (d, next)
    | _ => none

/-- A line `key = value`, and what follows it. -/
def readPair (d : Draft) (cs : List Char) : Option (Draft × List Char) :=
  match scanKey cs with
  | some ((path, key), '=' :: rest) =>
    match readValue (cs.length + 1) 0 (skipBlanks rest) with
    | none => none
    | some (item, rest) =>
      (endLine rest).bind fun next => (d.define path key item).map fun d => (d, next)
  | _ => none

/-- All lines, at most a given number of them. -/
def readLines : Nat → Draft → List Char → Option Entries
  | 0, _, _ => none
  | fuel + 1, d, cs =>
    match skipLines false cs with
    | [] => some d.entries
    | '[' :: rest =>
      match readHeader d rest with
      | none => none
      | some (d, next) => readLines fuel d next
    | cs =>
      match readPair d cs with
      | none => none
      | some (d, next) => readLines fuel d next

/-- A document; a byte order mark at its front does not count. -/
def read (text : String) : Option Entries :=
  let cs :=
    match text.toList with
    | '\uFEFF' :: cs => cs
    | cs => cs
  readLines (cs.length + 1) ⟨[], []⟩ cs

end QueryGraph.Toml
