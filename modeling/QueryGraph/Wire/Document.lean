import QueryGraph.Failure
import QueryGraph.Json.Printer
import QueryGraph.Wire.Node

namespace QueryGraph

/-!
# Graph documents

* `Document`: a graph snapshot with its surroundings.
* `Document.ofText`, `Document.text`: a document read from JSON and written as pretty JSON.
-/

/-- A graph snapshot with its surroundings. -/
structure Document where
  nodes : List Node
  edges : List Edge
  context : Context

namespace Document

/-- What there is to a document. -/
def record : Record Document where
  label := "struct GraphDocument"
  blank := ⟨[], [], ⟨"", 0⟩⟩
  fields :=
    [(Wire.node.list.field "nodes" Document.nodes fun v r => { r with nodes := v }).orDefault,
      (Wire.edge.list.field "edges" Document.edges fun v r => { r with edges := v }).orDefault,
      Wire.context.field "context" Document.context fun v r => { r with context := v }]

/-- Documents as JSON. -/
def codec : Codec Document := record.codec

/-- The failure of a document that does not decode. -/
def failure (e : DecodeError) : Failure := .document e.message

/-- Read a document. -/
def ofText (text : String) : Except DecodeError Document := codec.decodeText text

/-- Write a document. -/
def text (d : Document) : String := (codec.encode d).pretty

end Document

end QueryGraph
