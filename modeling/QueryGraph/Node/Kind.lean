namespace QueryGraph

/-!
# Kinds of nodes

* `Kind`: the closed set of node kinds, `Kind.all` in their usual order.
* `Arity`: how many inputs a kind takes.
* `Socket`: a named connection point; a kind without an input socket is a source, one without an
  output socket is a sink.
-/

/-- A kind of node. -/
inductive Kind where
  | event
  | unionAll
  | join
  | filter
  | aggregate
  | output
deriving DecidableEq

/-- How many inputs a node takes. -/
inductive Arity where
  | exactly (count : Nat)
  | atLeast (count : Nat)
deriving DecidableEq

namespace Arity

/-- Whether a number of inputs is right. -/
def accepts : Arity → Nat → Bool
  | .exactly n, found => found = n
  | .atLeast n, found => n ≤ found

/-- The arity in words. -/
def describe : Arity → String
  | .exactly n => "exactly " ++ toString n
  | .atLeast n => "at least " ++ toString n

end Arity

/-- Which way data passes through a socket. -/
inductive Direction where
  | input
  | output
deriving DecidableEq

/-- A named connection point of a node. -/
structure Socket where
  name : String
  direction : Direction
deriving DecidableEq

/-- The handle of the left input of a join. -/
def leftHandle : String := "left"

/-- The handle of the right input of a join. -/
def rightHandle : String := "right"

/-- An input that came through one handle did not come through the other. -/
@[simp] theorem leftHandle_ne_rightHandle : leftHandle ≠ rightHandle := by decide

namespace Kind

/-- All kinds. -/
def all : List Kind := [.event, .unionAll, .join, .filter, .aggregate, .output]

theorem mem_all (k : Kind) : k ∈ all := by cases k <;> decide

/-- The kind in documents. -/
def name : Kind → String
  | .event => "event"
  | .unionAll => "union_all"
  | .join => "join"
  | .filter => "filter"
  | .aggregate => "aggregate"
  | .output => "output"

/-- The kind in messages and comments. -/
def displayName : Kind → String
  | .event => "Event"
  | .unionAll => "Union All"
  | .join => "Join"
  | .filter => "Filter"
  | .aggregate => "Aggregate"
  | .output => "Output"

/-- How many inputs a node of the kind takes. -/
def arity : Kind → Arity
  | .event => .exactly 0
  | .unionAll => .atLeast 2
  | .join => .exactly 2
  | .filter | .aggregate | .output => .exactly 1

/-- The sockets of a node of the kind. -/
def sockets : Kind → List Socket
  | .event => [⟨"out", .output⟩]
  | .unionAll | .filter | .aggregate => [⟨"in", .input⟩, ⟨"out", .output⟩]
  | .join => [⟨leftHandle, .input⟩, ⟨rightHandle, .input⟩, ⟨"out", .output⟩]
  | .output => [⟨"in", .input⟩]

/-- A source has no input socket. -/
def isSource (k : Kind) : Bool := !k.sockets.any fun p => p.direction = .input

/-- A sink has no output socket. -/
def isSink (k : Kind) : Bool := !k.sockets.any fun p => p.direction = .output

/-- A transform has sockets of both directions. -/
def isTransform (k : Kind) : Bool := !k.isSource && !k.isSink

theorem isSource_iff (k : Kind) : k.isSource = true ↔ k = .event := by cases k <;> decide

theorem isSink_iff (k : Kind) : k.isSink = true ↔ k = .output := by cases k <;> decide

end Kind

end QueryGraph
