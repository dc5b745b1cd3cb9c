import QueryGraph.Node.Failure

namespace QueryGraph

/-!
# Failures of the program

* `Failure`: why a request is not answered: a cause, with any number of contexts around it.
* `Failure.message`: all contexts and the cause, outermost first.
* `Failure.chain`: the messages of the failure and of everything inside it.
-/

/-- Why a request is not answered. -/
inductive Failure where
  | config (message : String)
  | graph (cause : GraphFailure)
  | io (message : String)
  | document (message : String)
  | inContext (context : String) (cause : Failure)

namespace Failure

/-- The failure in words. -/
def message : Failure → String
  | .config m => "Configuration error: " ++ m
  | .graph cause => "Pipeline error: " ++ cause.message
  | .io m => "IO error: " ++ m
  | .document m => "Serialization error: " ++ m
  | .inContext context cause => context ++ ": " ++ cause.message

/-- The message of the failure, then those of what it is made of. -/
def chain (f : Failure) : List String :=
  f.message ::
    match f with
    | .graph cause => [cause.message]
    | .io m => [m]
    | .inContext _ cause => cause.chain
    | .config _ | .document _ => []

/-- Put contexts around a failure, the first one innermost. -/
def within (f : Failure) (contexts : List String) : Failure :=
  contexts.foldl (fun cause context => .inContext context cause) f

end Failure

end QueryGraph
