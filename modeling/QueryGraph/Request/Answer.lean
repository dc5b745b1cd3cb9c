import QueryGraph.Plan.Compile
import QueryGraph.Request.Arguments
import QueryGraph.Toml.Settings
import QueryGraph.Wire.Document
import QueryGraph.Wire.Plan

namespace QueryGraph

/-!
# Answers to requests

* `Answer`: what the program writes, and the code with which it ends.
* `report`: the text for a failure and its causes.
* `Request.answer`: the answer to a request, given the contents of files.
* `answerArguments`: the answer to a command line.
-/

/-- The texts written as output and as messages, and the code at the end. -/
structure Answer where
  output : String
  messages : String
  exitCode : UInt8
deriving DecidableEq

/-! ### Reports -/

/-- A cause in a report, with a label in front of it; its further lines are moved right. -/
def causeText (label margin cause : String) : String :=
  label ++
    String.ofList (cause.toList.flatMap fun c => if c = '\n' then '\n' :: margin.toList else [c])

/-- The label of one of several causes, its number moved right. -/
def causeLabel (n : Nat) : String :=
  String.ofList (List.replicate (5 - (toString n).length) ' ') ++ toString n ++ ": "

/-- The causes in a report, numbered if there are several. -/
def causesText : List String → String
  | [] => ""
  | [cause] => "\nCaused by:\n" ++ causeText "    " "    " cause ++ "\n"
  | causes =>
    "\nCaused by:\n" ++
      String.join (causes.mapIdx fun n c => causeText (causeLabel n) "       " c ++ "\n")

/-- The report of a failure: its message, then the causes in it. -/
def report (message : String) (causes : List String) : String :=
  "Error: " ++ message ++ "\n" ++ causesText causes

/-! ### Commands -/

/-- The contents of files by path, or the reason why a file cannot be read. -/
abbrev Files := String → Except String String

/-- Read the document in a file. -/
def Document.ofFile (files : Files) (path : String) : Except Failure Document :=
  match files path with
  | .error reason => .error (.inContext ("Failed to read graph " ++ Text.escaped path) (.io reason))
  | .ok text =>
    match Document.ofText text with
    | .error e => .error (.inContext ("Failed to load graph " ++ Text.escaped path) (failure e))
    | .ok d => .ok d

/-- The settings for a request: from the file that it names, or else from the usual place. -/
def Request.settings (files : Files) (usual : Option String) (r : Request) : Settings :=
  Settings.ofFileOrDefault ((r.config.or usual).bind fun path => (files path).toOption)

/-- The answer to a failure. -/
def Failure.answer (f : Failure) : Answer := ⟨"", report f.message f.chain.tail, 1⟩

/-- The answer of a compilation.  The result as JSON holds the failures of nodes; otherwise they
    are messages. -/
def Plan.answer (p : Plan) (json : Bool) : Answer :=
  let output := if json then (Wire.plan.encode p).pretty ++ "\n" else p.listing
  let notes :=
    if json then "" else String.join (p.errors.map fun e => "error: " ++ e.2.message ++ "\n")
  match p.fatal with
  | some f =>
    ⟨output, notes ++ report (Failure.graph f).message (Failure.graph f).chain.tail, 1⟩
  | none =>
    if p.success then ⟨output, notes, 0⟩
    else ⟨output, notes ++ report (toString p.errors.length ++ " node(s) failed to compile") [], 1⟩

/-- The answer to a command, given the settings. -/
def Command.answer (files : Files) (settings : Settings) : Command → Answer
  | .compile graph json =>
    match Document.ofFile files graph with
    | .error f => f.answer
    | .ok d => (QueryGraph.compile settings d.nodes d.edges d.context).answer json
  | .cascade graph ids dryRun =>
    match Document.ofFile files graph with
    | .error f => f.answer
    | .ok d =>
      if dryRun then
        ⟨(Wire.cascadeSummary.encode (estimateCascade ids d.nodes d.edges)).pretty ++ "\n", "", 0⟩
      else
        let left := QueryGraph.cascade ids d.nodes d.edges
        ⟨Document.text { d with nodes := left.nodes, edges := left.edges } ++ "\n", "", 0⟩

/-- The answer to a request. -/
def Request.answer (files : Files) (usual : Option String) (r : Request) : Answer :=
  r.command.answer files (r.settings files usual)

/-! ### Command lines -/

/-- The name of the program and its version. -/
def versionText : String := "flowsql 0.1.0\n"

/-- The options that every level has. -/
def sharedOptionsText : String :=
  "  -c, --config <CONFIG>  Settings file (defaults to the platform config directory)\n" ++
    "  -h, --help             Print help\n"

/-- Help about the program, or about one of its commands. -/
def helpText : Option Verb → String
  | none =>
    "Compile visual pipeline graphs into query programs\n\n" ++
      "Usage: flowsql [OPTIONS] <COMMAND>\n\n" ++
      "Commands:\n" ++
      "  compile  Compile a graph document and print the generated programs\n" ++
      "  cascade  Delete nodes and every output left without input\n" ++
      "  help     Print this message or the help of the given subcommand(s)\n\n" ++
      "Options:\n" ++ sharedOptionsText ++
      "  -V, --version          Print version\n"
  | some .compile =>
    "Compile a graph document and print the generated programs\n\n" ++
      "Usage: flowsql compile [OPTIONS] <GRAPH>\n\n" ++
      "Arguments:\n  <GRAPH>  Graph document (JSON)\n\n" ++
      "Options:\n      --json             Print the full result as JSON\n" ++ sharedOptionsText
  | some .cascade =>
    "Delete nodes and every output left without input\n\n" ++
      "Usage: flowsql cascade [OPTIONS] <GRAPH> <IDS>...\n\n" ++
      "Arguments:\n  <GRAPH>   Graph document (JSON)\n" ++
      "  <IDS>...  Ids of the nodes to delete\n\n" ++
      "Options:\n      --dry-run          Only report what would be removed\n" ++ sharedOptionsText

/-- A usage error in words. -/
def UsageError.message : UsageError → String
  | .help about => helpText about
  | .version => versionText
  | .nothingGiven => helpText none
  | .missingCommand => "error: a command is missing\n"
  | .missingArgument => "error: a required argument is missing\n"
  | .unknownArgument => "error: there is an unexpected argument\n"
  | .unknownCommand => "error: there is no such command\n"
  | .repeated => "error: an option is given twice\n"
  | .surplusValue => "error: an option has a value but takes none\n"
  | .badValue => "error: a value is missing or empty\n"

/-- The answer to a usage error.  Help and version that were asked for are output; the rest are
    messages. -/
def UsageError.answer (e : UsageError) : Answer :=
  match e with
  | .help _ | .version => ⟨e.message, "", 0⟩
  | _ => ⟨"", e.message, 2⟩

/-- The answer to a command line. -/
def answerArguments (files : Files) (usual : Option String) (args : List String) : Answer :=
  match Request.ofArguments args with
  | .error e => e.answer
  | .ok r => r.answer files usual

end QueryGraph
