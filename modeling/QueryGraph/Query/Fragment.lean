import QueryGraph.Node.Basic
import QueryGraph.Text.Lines

namespace QueryGraph

/-!
# Fragments

* `Metadata`, `Fragment`: the query text of one node and facts about it.
* `Input`: a fragment as the node behind an edge sees it.
* `derivedTable`: a fragment in parentheses under an alias.
-/

/-- Facts about the fragment of a node. -/
inductive Metadata where
  | event (eventName : Option String) (fieldCount : Nat) (fallback : Bool)
  | unionAll (inputCount : Nat)
  | join (joinType : JoinType) (conditionCount : Nat)
  | filter (conditionCount : Nat)
  | aggregate (groupBy : List String) (aggregateCount : Nat)
  | output (viewName : String) (targetNamespace : String)
deriving DecidableEq

/-- The kind of node that facts are about. -/
def Metadata.kind : Metadata → Kind
  | .event _ _ _ => .event
  | .unionAll _ => .unionAll
  | .join _ _ => .join
  | .filter _ => .filter
  | .aggregate _ _ => .aggregate
  | .output _ _ => .output

/-- The query text of a node. -/
structure Fragment where
  kind : Kind
  text : String
  metadata : Metadata
deriving DecidableEq

/-- The fragment of a node, with the handle of the edge it comes through. -/
structure Input where
  node : NodeId
  handle : Option String
  fragment : Fragment
deriving DecidableEq

/-- The text of an input. -/
def Input.text (i : Input) : String := i.fragment.text

/-- A query as a table with a name. -/
def derivedTable (text name : String) : String :=
  "(\n" ++ Text.indent text ++ "\n) AS " ++ name

/-- The lines of a select list, indented and separated by commas. -/
def selectList (items : List String) : String :=
  ",\n".intercalate (items.map fun item => "    " ++ item)

end QueryGraph
