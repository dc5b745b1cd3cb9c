import QueryGraph.Json.Tree
import QueryGraph.Number.Printer
import QueryGraph.Text.Escaped

namespace QueryGraph

/-!
# Why a value cannot be decoded

* `DecodeError`: the cause.  Faults of the text itself have one constructor; all other causes
  say what was found and what would have been right.
* `DecodeError.message`: the words of a cause.
-/

open Json (Shape)

/-- Why a JSON text does not decode. -/
inductive DecodeError where
  | malformed
  | invalidType (found : Shape) (expected : String)
  | invalidValue (found : Shape) (expected : String)
  | bareVariant
  | invalidLength (length : Nat) (expected : String)
  | missingField (name : String)
  | duplicateField (name : String)
  | unknownVariant (name : String) (names : List String)
deriving DecidableEq

/-- What stands in a document, in the words of messages. -/
def Json.Shape.describe : Shape → String
  | .null => "null"
  | .bool true => "boolean `true`"
  | .bool false => "boolean `false`"
  | .number (.int n h) => "integer `" ++ (Number.int n h).text ++ "`"
  | .number (.double x) => "floating point `" ++ (Number.double x).text ++ "`"
  | .string s => "string " ++ Text.escaped s
  | .sequence => "sequence"
  | .map => "map"

namespace DecodeError

/-- A name between backquotes. -/
def ticked (name : String) : String := "`" ++ name ++ "`"

/-- The names that would have been right, one or two of them without a list. -/
def oneOf (names : List String) : String :=
  match names with
  | [a] => ticked a
  | [a, b] => ticked a ++ " or " ++ ticked b
  | names => "one of " ++ ", ".intercalate (names.map ticked)

/-- The words of a cause. -/
def message : DecodeError → String
  | .malformed => "malformed JSON"
  | .invalidType found expected => "invalid type: " ++ found.describe ++ ", expected " ++ expected
  | .invalidValue found expected =>
    "invalid value: " ++ found.describe ++ ", expected " ++ expected
  | .bareVariant => "invalid type: unit variant, expected struct variant"
  | .invalidLength length expected =>
    "invalid length " ++ toString length ++ ", expected " ++ expected
  | .missingField name => "missing field " ++ ticked name
  | .duplicateField name => "duplicate field " ++ ticked name
  | .unknownVariant name names =>
    "unknown variant " ++ ticked name ++ ", expected " ++ oneOf names

/-- The error for a value of a wrong shape; if not even its shape can be read, the text is at
    fault. -/
def mismatch (t : Json.Tree) (expected : String) : DecodeError :=
  match t.shape? with
  | some s => .invalidType s expected
  | none => .malformed

end DecodeError

end QueryGraph
