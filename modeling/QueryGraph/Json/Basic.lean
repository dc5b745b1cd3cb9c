import QueryGraph.Number.Numeral

namespace QueryGraph

/-!
# JSON values

* `Json`: a JSON value.  Objects keep their members in the order in which they are written.
* `Json.insertMember`: a member put into a list that is sorted by key; a member of the same key
  is replaced.
* `Json.sortedObject`: an object whose members are sorted by key, the last of equal keys kept.
-/

/-- A JSON value. -/
inductive Json where
  | null
  | bool (value : Bool)
  | number (value : Number)
  | string (value : String)
  | array (items : List Json)
  | object (members : List (String × Json))

namespace Json

instance : Inhabited Json := ⟨.null⟩

/-- A natural number as a JSON integer.  Counts are far below the bound; a larger one would be
    written as the largest word. -/
def ofNat (n : Nat) : Json :=
  if h : n < 18446744073709551616 then .number (.int n (by omega))
  else .number (.int 18446744073709551615 (by decide))

/-- A word as a JSON integer. -/
def ofWord (n : UInt64) : Json :=
  .number (.int n.toNat (by have := n.toNat_lt; omega))

/-- A text, or `null` if there is none. -/
def ofOption (s : Option String) : Json :=
  match s with
  | none => .null
  | some t => .string t

/-- Insert a member into a list sorted by key, in place of one with the same key. -/
def insertMember (key : String) (value : Json) : List (String × Json) → List (String × Json)
  | [] => [(key, value)]
  | m :: ms =>
    if key = m.1 then (key, value) :: ms
    else if key < m.1 then (key, value) :: m :: ms
    else m :: insertMember key value ms

/-- Members sorted by key in code point order; of equal keys the last one counts. -/
def sortMembers (members : List (String × Json)) : List (String × Json) :=
  members.foldl (fun sorted m => insertMember m.1 m.2 sorted) []

/-- The member of a key. -/
def member? (key : String) : Json → Option Json
  | .object members => members.lookup key
  | _ => none

end Json

end QueryGraph
