import QueryGraph.Json.Basic
import QueryGraph.Json.Token

namespace QueryGraph.Json

/-!
# JSON documents as far as they can be read

* `Tree`: a JSON value as it stands in a text, with everything that was written: repeated keys,
  unreadable strings and numbers, and the place where a text breaks off.  Readers decide which
  parts of it they need, so a value of a wrong shape is reported before a fault further on.
* `parse cs`: the tree of a text, and whether something follows it.
* `Tree.ofJson v`: the tree of a value written without faults.
* `Tree.toJson? t`: the value of a tree, if every part of it can be read.
-/

/-- What a value looks like from outside. -/
inductive Shape where
  | null
  | bool (value : Bool)
  | number (value : Number)
  | string (value : String)
  | sequence
  | map
deriving DecidableEq

/-- A key of an object, or a text from which none can be read. -/
inductive Key where
  | text (name : String)
  | unreadable
deriving DecidableEq

/-- How a container ends: with its bracket, before it, or with it but deeper in the text than
    readers descend. -/
inductive Ending where
  | closed
  | broken
  | tooDeep
deriving DecidableEq

/-- A JSON value as it stands in a text. -/
inductive Tree where
  | null
  | bool (value : Bool)
  | number (value : Option Number)
  | string (value : Option String)
  | array (items : List Tree) (ending : Ending)
  | object (members : List (Key × Tree)) (ending : Ending)
  | malformed

namespace Tree

instance : Inhabited Tree := ⟨.malformed⟩

/-- The outer look of a value; nothing if not even that can be read. -/
def shape? : Tree → Option Shape
  | .null => some .null
  | .bool b => some (.bool b)
  | .number n => n.map .number
  | .string s => s.map .string
  | .array _ _ => some .sequence
  | .object _ _ => some .map
  | .malformed => none

/-- Whether the text of a value is complete.  Containers break off together with what stands
    in them, so the outermost ending tells. -/
def isComplete : Tree → Bool
  | .array _ ending => ending ≠ .broken
  | .object _ ending => ending ≠ .broken
  | .malformed => false
  | _ => true

mutual

/-- The tree of a value. -/
def ofJson : Json → Tree
  | .null => .null
  | .bool b => .bool b
  | .number n => .number (some n)
  | .string s => .string (some s)
  | .array items => .array (ofItems items) .closed
  | .object members => .object (ofMembers members) .closed

/-- The trees of the items of an array. -/
def ofItems : List Json → List Tree
  | [] => []
  | v :: rest => ofJson v :: ofItems rest

/-- The trees of the members of an object. -/
def ofMembers : List (String × Json) → List (Key × Tree)
  | [] => []
  | (k, v) :: rest => (.text k, ofJson v) :: ofMembers rest

end

mutual

/-- The value of a tree, if every part of it can be read.  The members of objects are sorted
    by key, and of equal keys the last one counts. -/
def toJson? : Tree → Option Json
  | .null => some .null
  | .bool b => some (.bool b)
  | .number n => n.map .number
  | .string s => s.map .string
  | .array items ending =>
    if ending = .closed then (toItems? items).map .array else none
  | .object members ending =>
    if ending = .closed then (toMembers? members).map fun ms => .object (sortMembers ms)
    else none
  | .malformed => none

/-- The values of all items. -/
def toItems? : List Tree → Option (List Json)
  | [] => some []
  | t :: rest =>
    match toJson? t, toItems? rest with
    | some v, some vs => some (v :: vs)
    | _, _ => none

/-- The members of an object, as they are written. -/
def toMembers? : List (Key × Tree) → Option (List (String × Json))
  | [] => some []
  | (key, t) :: rest =>
    match key, toJson? t, toMembers? rest with
    | .text k, some v, some ms => some ((k, v) :: ms)
    | _, _, _ => none

end

/-- Whether every part of a tree can be read. -/
def isReadable (t : Tree) : Bool := t.toJson?.isSome

end Tree

/-! ### Reading a text -/

/-- An open container: what it holds so far, newest first, and for an object the key whose
    value comes next. -/
inductive Frame where
  | array (items : List Tree)
  | object (members : List (Key × Tree)) (key : Option Key)

/-- What may come next. -/
inductive Expected where
  | value
  | valueOrClose
  | key
  | keyOrClose
  | colon
  | commaOrClose
  | nothing
deriving DecidableEq

/-- The reader between two lexemes: the open containers, innermost first, what may come next,
    and the outermost value once it is complete. -/
structure Parser where
  stack : List Frame
  expected : Expected
  result : Option Tree

/-- Containers may nest this deep. -/
def maxDepth : Nat := 127

/-- The container of a frame with as many containers around it as the list holds frames. -/
def Frame.close (outer : List Frame) : Frame → Tree
  | .array items =>
    if outer.length < maxDepth then .array items.reverse .closed else .array [] .tooDeep
  | .object members _ =>
    if outer.length < maxDepth then .object members.reverse .closed else .object [] .tooDeep

/-- The container of a frame whose text breaks off; `hole` is the value it was about to take,
    as far as that was read.  A key without a value still counts as a member. -/
def Frame.break (outer : List Frame) (hole : Option Tree) : Frame → Tree
  | .array items =>
    if outer.length < maxDepth then
      .array (match hole with
        | none => items.reverse
        | some t => (t :: items).reverse) .broken
    else .array [] .broken
  | .object members key =>
    if outer.length < maxDepth then
      .object (match key with
        | none => members.reverse
        | some k => ((k, hole.getD .malformed) :: members).reverse) .broken
    else .object [] .broken

namespace Parser

/-- Before the first lexeme. -/
def start : Parser := ⟨[], .value, none⟩

/-- Take a complete value. -/
def put (t : Tree) (stack : List Frame) : Parser :=
  match stack with
  | [] => ⟨[], .nothing, some t⟩
  | .array items :: rest => ⟨.array (t :: items) :: rest, .commaOrClose, none⟩
  | .object members (some key) :: rest =>
    ⟨.object ((key, t) :: members) none :: rest, .commaOrClose, none⟩
  | .object members none :: rest => ⟨.object members none :: rest, .commaOrClose, none⟩

/-- Close all open containers as broken. -/
def unwind (hole : Option Tree) : List Frame → Tree
  | [] => hole.getD .malformed
  | f :: rest => unwind (some (f.break rest hole)) rest

/-- The value that a lexeme is on its own. -/
def scalar? : Token → Option Tree
  | .null => some .null
  | .bool b => some (.bool b)
  | .number n => some (.number n)
  | .string s => some (.string s)
  | _ => none

/-- Take a lexeme where a value may start. -/
def stepValue (stack : List Frame) (t : Token) : Option Parser :=
  match t with
  | .openBracket => some ⟨.array [] :: stack, .valueOrClose, none⟩
  | .openBrace => some ⟨.object [] none :: stack, .keyOrClose, none⟩
  | t => (scalar? t).map fun v => put v stack

/-- Take a lexeme where a key may stand. -/
def stepKey (stack : List Frame) (t : Token) : Option Parser :=
  match t, stack with
  | .string s, .object members _ :: rest =>
    let key := match s with
      | some name => Key.text name
      | none => .unreadable
    some ⟨.object members (some key) :: rest, .colon, none⟩
  | _, _ => none

/-- Take a closing bracket. -/
def stepClose (stack : List Frame) (t : Token) : Option Parser :=
  match t, stack with
  | .closeBracket, .array items :: rest => some (put ((Frame.array items).close rest) rest)
  | .closeBrace, .object members key :: rest =>
    some (put ((Frame.object members key).close rest) rest)
  | _, _ => none

/-- Take a comma. -/
def stepComma (stack : List Frame) (t : Token) : Option Parser :=
  match t, stack with
  | .comma, .array items :: rest => some ⟨.array items :: rest, .value, none⟩
  | .comma, .object members key :: rest => some ⟨.object members key :: rest, .key, none⟩
  | _, _ => none

/-- Take one lexeme; nothing if it does not fit. -/
def step (p : Parser) (t : Token) : Option Parser :=
  match p.expected with
  | .value => stepValue p.stack t
  | .valueOrClose => (stepClose p.stack t).or (stepValue p.stack t)
  | .key => stepKey p.stack t
  | .keyOrClose => (stepClose p.stack t).or (stepKey p.stack t)
  | .colon => if t = .colon then some ⟨p.stack, .value, none⟩ else none
  | .commaOrClose => (stepClose p.stack t).or (stepComma p.stack t)
  | .nothing => none

/-- Read all lexemes.  The flag says that the text ends with the value. -/
def run (p : Parser) : List Token → Tree × Bool
  | [] =>
    match p.result with
    | some t => (t, true)
    | none => (unwind none p.stack, false)
  | t :: ts =>
    match p.result with
    | some v => (v, false)
    | none =>
      match p.step t with
      | some q => q.run ts
      | none => (unwind none p.stack, false)

end Parser

/-- The tree of a text, and whether nothing follows it. -/
def parse (cs : List Char) : Tree × Bool := Parser.start.run (tokens cs)

end QueryGraph.Json
