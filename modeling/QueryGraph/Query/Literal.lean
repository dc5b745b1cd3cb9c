import QueryGraph.Json.Printer
import QueryGraph.Text.Quoted

namespace QueryGraph.Query

/-!
# Literals

* `literal v`: a JSON value as a query literal.  Texts are quoted, arrays become lists in
  parentheses, and objects are quoted as their compact JSON.
-/

mutual

/-- A JSON value as a query literal. -/
def literal : Json → String
  | .null => "NULL"
  | .bool true => "true"
  | .bool false => "false"
  | .number n => n.text
  | .string s => Text.quote s
  | .array items => "(" ++ ", ".intercalate (literals items) ++ ")"
  | .object members => Text.quote (Json.compact (.object members))

/-- The literals of a list of values. -/
def literals : List Json → List String
  | [] => []
  | v :: rest => literal v :: literals rest

end

/-- The literals of several values are those of each of them. -/
@[simp] theorem literals_eq_map (vs : List Json) : literals vs = vs.map literal := by
  induction vs with
  | nil => simp [literals]
  | cons v vs ih => simp [literals, ih]

end QueryGraph.Query
