import QueryGraph.Codec.Record

namespace QueryGraph

/-!
# Enumerations and tagged unions

* `Codec.names`: enumerations, written as names.
* `Codec.untagged`: unions whose alternative is the only key of an object.
* `Codec.internallyTagged`: unions of records with the alternative among the fields.
* `Codec.adjacentlyTagged`: unions with the alternative and its content side by side, and
  `Adjacent`, the reader behind it, which takes the two in either order.
-/

open Json (Shape Tree Ending Key)

namespace Codec

/-! ### Names -/

/-- A variant as a document gives it: its name, what is written with it, and whether the
    object around the two ends behind them. -/
structure Mention where
  name : String
  payload : Option Tree
  closes : Bool

/-- Read the mention of a variant: a text, or an object whose only key is the name. -/
def mention (reading : Reading) (t : Tree) : Except DecodeError Mention :=
  match reading, t with
  | _, .string (some s) => .ok ⟨s, none, true⟩
  | .direct, .object members ending =>
    if ending = .tooDeep then .error .malformed
    else
      match members with
      | (.text k, v) :: rest => .ok ⟨k, some v, rest.isEmpty && ending = .closed⟩
      | _ => .error .malformed
  | .direct, _ => .error .malformed
  | .buffered, .object [(.text k, v)] _ => .ok ⟨k, some v, true⟩
  | .buffered, .object _ _ => .error (.invalidValue .map "map with a single key")
  | .buffered, t => .error (DecodeError.mismatch t "string or map")

/-- What a name may have with it: nothing, or `null`; in a part that was read before, also an
    object without members. -/
def decodeUnit (reading : Reading) (payload : Option Tree) : Except DecodeError Unit :=
  match reading, payload with
  | _, none | _, some .null => .ok ()
  | .buffered, some (.object [] _) => .ok ()
  | _, some t => .error (DecodeError.mismatch t "unit")

/-- The value of a name among the accepted ones. -/
def ofName (values : List α) (accepted : α → List String) (name : String) :
    Except DecodeError α :=
  match values.find? fun v => (accepted v).contains name with
  | some v => .ok v
  | none => .error (.unknownVariant name (values.flatMap accepted))

/-- Enumerations: written under one name, read under all accepted ones. -/
def names (values : List α) (name : α → String) (accepted : α → List String) : Codec α where
  encode v := .string (name v)
  decode reading t :=
    match mention reading t with
    | .error e => .error e
    | .ok m =>
      match ofName values accepted m.name with
      | .error e => .error e
      | .ok v =>
        match decodeUnit reading m.payload with
        | .error e => .error e
        | .ok _ => if m.closes then .ok v else .error .malformed

/-! ### Records under a key -/

/-- One alternative of a union: its name and how its content is read. -/
structure Alternative (σ : Type) where
  name : String
  decode : Reading → Option Tree → Except DecodeError σ

/-- The alternative of a name. -/
def Alternative.ofName (alternatives : List (Alternative σ)) (name : String) :
    Except DecodeError (Alternative σ) :=
  Codec.ofName alternatives (fun a => [a.name]) name

/-- An alternative whose content is read by a codec and must be there. -/
def alternative (c : Codec α) (name : String) (absent : DecodeError) (make : α → σ) :
    Alternative σ where
  name := name
  decode reading t :=
    match t with
    | none => .error absent
    | some t => (c.decode reading t).map make

/-- Unions written as an object with the alternative as its only key. -/
def untagged (alternatives : List (Alternative σ)) (parts : σ → String × Json) : Codec σ where
  encode v := .object [parts v]
  decode reading t :=
    match mention reading t with
    | .error e => .error e
    | .ok m =>
      match Alternative.ofName alternatives m.name with
      | .error e => .error e
      | .ok a =>
        match a.decode reading m.payload with
        | .error e => .error e
        | .ok v => if m.closes then .ok v else .error .malformed

/-! ### A tag among the fields -/

/-- The position of a number among the alternatives. -/
def atIndex (alternatives : List (Alternative σ)) (n : Int) (found : Shape) :
    Except DecodeError (Alternative σ) :=
  match alternatives[n.toNat]? with
  | some a => .ok a
  | none =>
    .error (.invalidValue found ("variant index 0 <= i < " ++ toString alternatives.length))

/-- Read a tag: a name, or, in a part that was read before, also the position of a name. -/
def decodeTag (alternatives : List (Alternative σ)) (reading : Reading) (t : Tree) :
    Except DecodeError (Alternative σ) :=
  match reading, t with
  | _, .string (some s) => Alternative.ofName alternatives s
  | .buffered, .number (some (.int n h)) =>
    if 0 ≤ n then atIndex alternatives n (.number (.int n h))
    else .error (DecodeError.mismatch t "variant identifier")
  | _, t => .error (DecodeError.mismatch t "variant identifier")

/-- Take the value of a key out of the members of an object; the others are set aside in their
    order. -/
def takeMember (key : String) (decode : Reading → Tree → Except DecodeError β)
    (reading : Reading) :
    List (Key × Tree) → Option β → Except DecodeError (Option β × List (Key × Tree))
  | [], found => .ok (found, [])
  | (.text k, t) :: rest, found =>
    if k = key then
      if found.isSome then .error (.duplicateField key)
      else
        match decode reading t with
        | .error e => .error e
        | .ok b => takeMember key decode reading rest (some b)
    else
      match setAside reading t with
      | .error e => .error e
      | .ok t => (takeMember key decode reading rest found).map fun r =>
          (r.1, (.text k, t) :: r.2)
  | _ :: _, _ => .error .malformed

/-- Set all items of an array aside. -/
def setAsideAll (reading : Reading) : List Tree → Except DecodeError Unit
  | [] => .ok ()
  | t :: rest =>
    match setAside reading t with
    | .error e => .error e
    | .ok _ => setAsideAll reading rest

/-- Split a value into its alternative and the rest of it. -/
def splitTag (label tag : String) (alternatives : List (Alternative σ)) (reading : Reading)
    (t : Tree) : Except DecodeError (Alternative σ × Tree) :=
  match t with
  | .object members ending =>
    if ending = .tooDeep then .error .malformed
    else
      match takeMember tag (decodeTag alternatives) reading members none with
      | .error e => .error e
      | .ok (found, rest) =>
        if ending ≠ .closed then .error .malformed
        else
          match found with
          | none => .error (.missingField tag)
          | some a => .ok (a, .object rest .closed)
  | .array items ending =>
    match ending, items with
    | .tooDeep, _ => .error .malformed
    | .closed, [] => .error (.missingField tag)
    | .broken, [] => .error .malformed
    | ending, first :: rest =>
      match decodeTag alternatives reading first with
      | .error e => .error e
      | .ok a =>
        match setAsideAll reading rest with
        | .error e => .error e
        | .ok _ => if ending = .closed then .ok (a, .array rest .closed) else .error .malformed
  | t => .error (DecodeError.mismatch t ("internally tagged enum " ++ label))

/-- Unions of records with the alternative as one of the fields, written first. -/
def internallyTagged (label tag : String) (alternatives : List (Alternative σ))
    (parts : σ → String × List (String × Json)) : Codec σ where
  encode v := .object ((tag, .string (parts v).1) :: (parts v).2)
  decode reading t :=
    match splitTag label tag alternatives reading t with
    | .error e => .error e
    | .ok (a, rest) => a.decode .buffered (some rest)

/-- An alternative with the fields of a record. -/
def recordAlternative (d : Record α) (name : String) (make : α → σ) : Alternative σ where
  name := name
  decode reading t :=
    match t with
    | none => .error .malformed
    | some t => (d.decode reading t).map make

/-- An alternative without fields.  Other members of an object do no harm. -/
def bareAlternative (name : String) (v : σ) : Alternative σ where
  name := name
  decode _ t :=
    match t with
    | some (.array (i :: items) _) =>
      .error (.invalidLength (i :: items).length (elements 0 ++ " in sequence"))
    | _ => .ok v

/-! ### A tag beside the content -/

/-- How far the reading of a tagged content is: nothing seen, the tag seen, the content seen
    and set aside, or both. -/
inductive Adjacent (σ : Type) where
  | start
  | tagged (a : Alternative σ)
  | held (content : Tree)
  | done (v : σ)

namespace Adjacent

/-- Take the tag. -/
def takeTag (tag : String) (alternatives : List (Alternative σ)) (reading : Reading) (t : Tree) :
    Adjacent σ → Except DecodeError (Adjacent σ)
  | .start =>
    ((names alternatives Alternative.name fun a => [a.name]).decode reading t).map .tagged
  | .held content =>
    match (names alternatives Alternative.name fun a => [a.name]).decode reading t with
    | .error e => .error e
    | .ok a => (a.decode .buffered (some content)).map .done
  | .tagged _ | .done _ => .error (.duplicateField tag)

/-- Take the content. -/
def takeContent (content : String) (reading : Reading) (t : Tree) :
    Adjacent σ → Except DecodeError (Adjacent σ)
  | .start => (setAside reading t).map .held
  | .tagged a => (a.decode reading (some t)).map .done
  | .held _ | .done _ => .error (.duplicateField content)

/-- What there is after the last member. -/
def finish (tag : String) : Adjacent σ → Except DecodeError σ
  | .start | .held _ => .error (.missingField tag)
  | .tagged a => a.decode .buffered none
  | .done v => .ok v

/-- Take the members of an object; members of other names are skipped. -/
def takeMembers (tag content : String) (alternatives : List (Alternative σ))
    (reading : Reading) : List (Key × Tree) → Adjacent σ → Except DecodeError (Adjacent σ)
  | [], s => .ok s
  | (.text k, t) :: rest, s =>
    if k = tag then
      match s.takeTag tag alternatives reading t with
      | .error e => .error e
      | .ok s => takeMembers tag content alternatives reading rest s
    else if k = content then
      match s.takeContent content reading t with
      | .error e => .error e
      | .ok s => takeMembers tag content alternatives reading rest s
    else if reading = .direct ∧ t.isComplete = false then .error .malformed
    else takeMembers tag content alternatives reading rest s
  | _ :: _, _ => .error .malformed

/-- Read a tagged content from the members of an object. -/
def decodeMembers (tag content : String) (alternatives : List (Alternative σ))
    (reading : Reading) (members : List (Key × Tree)) (ending : Ending) :
    Except DecodeError σ :=
  match takeMembers tag content alternatives reading members .start with
  | .error e => .error e
  | .ok s => if ending = .closed then s.finish tag else .error .malformed

/-- Read a tagged content from an array of the two.  Here the tag is read as one among fields
    is. -/
def decodeArray (label : String) (alternatives : List (Alternative σ)) (reading : Reading)
    (items : List Tree) (ending : Ending) : Except DecodeError σ :=
  let short (n : Nat) : Except DecodeError σ :=
    if ending = .closed then .error (.invalidLength n label) else .error .malformed
  match items with
  | [] => short 0
  | t :: rest =>
    match decodeTag alternatives reading t with
    | .error e => .error e
    | .ok a =>
      match rest with
      | [] => short 1
      | c :: _ =>
        match a.decode reading (some c) with
        | .error e => .error e
        | .ok v => Record.afterItems reading ending 2 items.length v

end Adjacent

/-- Unions written as an object of the alternative and its content. -/
def adjacentlyTagged (label tag content : String) (alternatives : List (Alternative σ))
    (parts : σ → String × Json) : Codec σ where
  encode v := .object [(tag, .string (parts v).1), (content, (parts v).2)]
  decode reading t :=
    match t with
    | .object members ending =>
      if ending = .tooDeep then .error .malformed
      else Adjacent.decodeMembers tag content alternatives reading members ending
    | .array items ending =>
      if ending = .tooDeep then .error .malformed
      else
        Adjacent.decodeArray ("adjacently tagged enum " ++ label) alternatives reading items ending
    | t => .error (DecodeError.mismatch t ("adjacently tagged enum " ++ label))

end Codec

end QueryGraph
