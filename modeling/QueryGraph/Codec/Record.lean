import QueryGraph.Codec.Basic

namespace QueryGraph

/-!
# Records

* `Field σ`: one field of a record type: its name and other accepted names, how it is read and
  written, and what holds when a document leaves it out.
* `Record σ`: a record type as a list of fields.
* `Record.codec`: records are written as objects with their fields in declaration order, and
  read from objects in any order or from arrays in declaration order.
-/

open Json (Tree Ending Key)

/-- What a document may do about a field: it must have it; it may leave it out of an object;
    it may leave it out of objects and off the end of arrays. -/
inductive Presence where
  | required
  | optional
  | defaulted
deriving DecidableEq

/-- A field of the record type `σ`. -/
structure Field (σ : Type) where
  name : String
  aliases : List String
  presence : Presence
  decode : Reading → Tree → Except DecodeError (σ → σ)
  encode : σ → Option Json

/-- A record type: its name in messages, a record with the default fields, and the fields. -/
structure Record (σ : Type) where
  label : String
  blank : σ
  fields : List (Field σ)

namespace Codec

/-- A field that is read and written through a codec. -/
def field (c : Codec α) (name : String) (get : σ → α) (set : α → σ → σ) : Field σ where
  name := name
  aliases := []
  presence := .required
  decode reading t := (c.decode reading t).map set
  encode r := some (c.encode (get r))

end Codec

namespace Field

/-- The field may be left out of objects. -/
def orAbsent (f : Field σ) : Field σ := { f with presence := .optional }

/-- The field may be left out of objects and off the end of arrays. -/
def orDefault (f : Field σ) : Field σ := { f with presence := .defaulted }

/-- The field has another name that is accepted too. -/
def orNamed (f : Field σ) (name : String) : Field σ := { f with aliases := f.aliases ++ [name] }

/-- The field is not written where it would be `null`. -/
def hidingNull (f : Field σ) : Field σ :=
  { f with encode := fun r =>
      match f.encode r with
      | some .null => none
      | v => v }

/-- Whether a key names the field. -/
def isNamed (f : Field σ) (key : String) : Bool := f.name = key || f.aliases.contains key

end Field

/-- A number of elements in words. -/
def elements (n : Nat) : String :=
  toString n ++ if n = 1 then " element" else " elements"

namespace Record

/-- Read the members of an object: each changes the record, and its field must not have been
    read before.  Members of other names are skipped; directly from the text, they must be
    complete. -/
def decodeMembers (fields : List (Field σ)) (reading : Reading) :
    List (Key × Tree) → List String → σ → Except DecodeError (List String × σ)
  | [], seen, r => .ok (seen, r)
  | (.text key, t) :: rest, seen, r =>
    match fields.find? (Field.isNamed · key) with
    | some f =>
      if f.name ∈ seen then .error (.duplicateField f.name)
      else
        match f.decode reading t with
        | .error e => .error e
        | .ok update => decodeMembers fields reading rest (f.name :: seen) (update r)
    | none =>
      if reading = .direct ∧ t.isComplete = false then .error .malformed
      else decodeMembers fields reading rest seen r
  | _ :: _, _, _ => .error .malformed

/-- The first field that an object must have and does not. -/
def firstMissing (fields : List (Field σ)) (seen : List String) : Option (Field σ) :=
  fields.find? fun f => f.presence = .required ∧ f.name ∉ seen

/-- Read the items of an array as fields in declaration order; `index` counts the fields
    before.  Items that are left over are not looked at. -/
def decodeItems (expected : String) (reading : Reading) (ending : Ending) :
    List (Field σ) → Nat → List Tree → σ → Except DecodeError σ
  | [], _, _, r => .ok r
  | f :: fields, index, [], r =>
    if ending ≠ .closed then .error .malformed
    else if f.presence = .defaulted then
      decodeItems expected reading ending fields (index + 1) [] r
    else .error (.invalidLength index expected)
  | f :: fields, index, t :: items, r =>
    match f.decode reading t with
    | .error e => .error e
    | .ok update => decodeItems expected reading ending fields (index + 1) items (update r)

/-- What is right to find after the last item that was read. -/
def afterItems (reading : Reading) (ending : Ending) (taken total : Nat) (a : α) :
    Except DecodeError α :=
  if total ≤ taken then if ending = .closed then .ok a else .error .malformed
  else if reading = .direct then .error .malformed
  else .error (.invalidLength total (elements taken ++ " in sequence"))

/-- Read a record from the members of an object. -/
def decodeObject (d : Record σ) (reading : Reading) (members : List (Key × Tree))
    (ending : Ending) : Except DecodeError σ :=
  match decodeMembers d.fields reading members [] d.blank with
  | .error e => .error e
  | .ok (seen, r) =>
    if ending ≠ .closed then .error .malformed
    else
      match firstMissing d.fields seen with
      | some f => .error (.missingField f.name)
      | none => .ok r

/-- Read a record from the items of an array. -/
def decodeArray (d : Record σ) (reading : Reading) (items : List Tree) (ending : Ending) :
    Except DecodeError σ :=
  match decodeItems (d.label ++ " with " ++ elements d.fields.length) reading ending d.fields 0
      items d.blank with
  | .error e => .error e
  | .ok r => afterItems reading ending d.fields.length items.length r

/-- Read a record. -/
def decode (d : Record σ) (reading : Reading) (t : Tree) : Except DecodeError σ :=
  match t with
  | .object members ending =>
    if ending = .tooDeep then .error .malformed else d.decodeObject reading members ending
  | .array items ending =>
    if ending = .tooDeep then .error .malformed else d.decodeArray reading items ending
  | t => .error (DecodeError.mismatch t d.label)

/-- The members a record is written with. -/
def encodeMembers (d : Record σ) (r : σ) : List (String × Json) :=
  d.fields.filterMap fun f => (f.encode r).map fun v => (f.name, v)

/-- Records as objects. -/
def codec (d : Record σ) : Codec σ where
  encode r := .object (d.encodeMembers r)
  decode := d.decode

end Record

end QueryGraph
