import QueryGraph.Node.Basic

namespace QueryGraph

/-!
# Requests

* `Verb`, `Command`, `Request`: what a command line asks for.
* `UsageError`: why a command line is no request.  Asking for help or for the version is among
  the reasons.
-/

/-- The commands. -/
inductive Verb where
  | compile
  | cascade
deriving DecidableEq

/-- The word for a command. -/
def Verb.word : Verb → String
  | .compile => "compile"
  | .cascade => "cascade"

/-- The command for a word. -/
def Verb.ofWord? (w : String) : Option Verb := [Verb.compile, .cascade].find? fun v => v.word = w

@[simp] theorem Verb.ofWord?_word (v : Verb) : ofWord? v.word = some v := by
  cases v <;> decide

/-- A command with its arguments: the file that holds the graph, and the choices made. -/
inductive Command where
  | compile (graph : String) (json : Bool)
  | cascade (graph : String) (ids : List NodeId) (dryRun : Bool)
deriving DecidableEq

/-- A command and the settings file, if one is named. -/
structure Request where
  config : Option String
  command : Command
deriving DecidableEq

/-- Why a command line is no request. -/
inductive UsageError where
  | help (about : Option Verb)
  | version
  | nothingGiven
  | missingCommand
  | missingArgument
  | unknownArgument
  | unknownCommand
  | repeated
  | surplusValue
  | badValue
deriving DecidableEq

end QueryGraph
