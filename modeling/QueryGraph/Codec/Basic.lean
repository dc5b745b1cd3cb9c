import QueryGraph.Codec.Error
import QueryGraph.Json.Printer

namespace QueryGraph

/-!
# Codecs

* `Codec α`: how values of `α` are written as JSON and read from a document.
* `Codec.string`, `Codec.bool`, `Codec.word`, `Codec.count`, `Codec.value`: the scalars, and
  free JSON values.
* `Codec.optional`, `Codec.list`, `Codec.dictionary`: absent values, lists and ordered maps.
-/

open Json (Shape Tree Ending Key)

/-- How a value is read: directly from the text, or from a part of it that was read as a whole
    before its meaning was known.  The second way finds no more faults in the text, and words
    some of the remaining faults in its own way. -/
inductive Reading where
  | direct
  | buffered
deriving DecidableEq

/-- How values are written as JSON and read from a document. -/
structure Codec (α : Type) where
  encode : α → Json
  decode : Reading → Tree → Except DecodeError α

namespace Codec

/-- Read a value that was set aside as a whole: every part of it must be readable. -/
def setAside (reading : Reading) (t : Tree) : Except DecodeError Tree :=
  if reading = .direct ∧ t.isReadable = false then .error .malformed else .ok t

/-- Read the whole document: nothing may follow the value. -/
def decodeText (c : Codec α) (text : String) : Except DecodeError α :=
  match Json.parse text.toList with
  | (t, ended) =>
    match c.decode .direct t with
    | .error e => .error e
    | .ok a => if ended then .ok a else .error .malformed

/-- The compact text of a value. -/
def encodeText (c : Codec α) (a : α) : String := (c.encode a).compact

/-! ### Scalars -/

/-- Texts. -/
def string : Codec String where
  encode s := .string s
  decode _ t :=
    match t with
    | .string (some s) => .ok s
    | t => .error (DecodeError.mismatch t "a string")

/-- Truth values. -/
def bool : Codec Bool where
  encode b := .bool b
  decode _ t :=
    match t with
    | .bool b => .ok b
    | t => .error (DecodeError.mismatch t "a boolean")

/-- Read an integer that is not negative. -/
def natural (expected : String) (t : Tree) :
    Except DecodeError { n : Nat // n < UInt64.size } :=
  match t with
  | .number (some (.int n h)) =>
    if h₀ : 0 ≤ n then .ok ⟨n.toNat, by have : UInt64.size = 18446744073709551616 := rfl; omega⟩
    else .error (.invalidValue (.number (.int n h)) expected)
  | t => .error (DecodeError.mismatch t expected)

/-- Words of 64 bits. -/
def word : Codec UInt64 where
  encode n := .ofWord n
  decode _ t := (natural "u64" t).map fun n => UInt64.ofNatLT n.1 n.2

/-- Counts, which are read up to the largest word. -/
def count : Codec Nat where
  encode n := .ofNat n
  decode _ t := (natural "usize" t).map Subtype.val

/-- Free JSON values, read with the members of objects sorted by key. -/
def value : Codec Json where
  encode v := v
  decode _ t :=
    match t.toJson? with
    | some v => .ok v
    | none => .error .malformed

/-- A codec through a one-to-one correspondence. -/
def convert (c : Codec α) (forth : β → α) (back : α → β) : Codec β where
  encode b := c.encode (forth b)
  decode reading t := (c.decode reading t).map back

/-! ### Containers -/

/-- A value or `null`. -/
def optional (c : Codec α) : Codec (Option α) where
  encode a :=
    match a with
    | none => .null
    | some a => c.encode a
  decode reading t :=
    match t with
    | .null => .ok none
    | t => (c.decode reading t).map some

/-- Read all items of an array in their order. -/
def decodeItems (c : Codec α) (reading : Reading) : List Tree → Except DecodeError (List α)
  | [] => .ok []
  | t :: rest =>
    match c.decode reading t with
    | .error e => .error e
    | .ok a => (decodeItems c reading rest).map (a :: ·)

/-- Lists as arrays. -/
def list (c : Codec α) : Codec (List α) where
  encode as := .array (as.map c.encode)
  decode reading t :=
    match t with
    | .array items ending =>
      if ending = .tooDeep then .error .malformed
      else
        match decodeItems c reading items with
        | .error e => .error e
        | .ok as => if ending = .closed then .ok as else .error .malformed
    | t => .error (DecodeError.mismatch t "a sequence")

/-- Put a value at a key; a key that is already there keeps its place. -/
def putEntry [DecidableEq κ] (k : κ) (a : α) : List (κ × α) → List (κ × α)
  | [] => [(k, a)]
  | e :: es => if e.1 = k then (k, a) :: es else e :: putEntry k a es

/-- Read the members of an object as entries of a map. -/
def decodeEntries [DecidableEq κ] (ofKey : String → κ) (c : Codec α) (reading : Reading) :
    List (Key × Tree) → List (κ × α) → Except DecodeError (List (κ × α))
  | [], entries => .ok entries
  | (.text k, t) :: rest, entries =>
    match c.decode reading t with
    | .error e => .error e
    | .ok a => decodeEntries ofKey c reading rest (putEntry (ofKey k) a entries)
  | _ :: _, _ => .error .malformed

/-- Maps with an order, as objects. -/
def dictionary [DecidableEq κ] (toKey : κ → String) (ofKey : String → κ) (c : Codec α) :
    Codec (List (κ × α)) where
  encode entries := .object (entries.map fun e => (toKey e.1, c.encode e.2))
  decode reading t :=
    match t with
    | .object members ending =>
      if ending = .tooDeep then .error .malformed
      else
        match decodeEntries ofKey c reading members [] with
        | .error e => .error e
        | .ok entries => if ending = .closed then .ok entries else .error .malformed
    | t => .error (DecodeError.mismatch t "a map")

end Codec

end QueryGraph
