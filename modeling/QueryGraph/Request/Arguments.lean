import QueryGraph.Request.Basic

namespace QueryGraph

/-!
# Command lines

A command line has two levels: the arguments in front of the word for the command, and those
behind it.  An option for the settings file may stand at both.

* `Argument`: one argument, by its form alone.
* `Draft`: what one level has brought so far.  A value that was read last is settled, which is
  to say checked and stored, only when something else follows it, so a fault in it may come
  after a fault in the next argument.
* `Request.ofArguments`: the request that a command line makes.
-/

/-! ### Arguments -/

/-- An argument by its form: a long or a short option, perhaps with a value attached to it, the
    mark `--` behind which all is plain, or a word. -/
inductive Argument where
  | long (name : String) (value : Option String)
  | short (letter : Char) (value : Option String)
  | mark
  | word (text : String)
deriving DecidableEq

/-- The value behind the first sign of equality. -/
def attached? (cs : List Char) : Option String :=
  match cs.dropWhile (· ≠ '=') with
  | [] => none
  | _ :: value => some (String.ofList value)

/-- The value behind a letter, which a sign of equality may set off. -/
def trailing? : List Char → Option String
  | [] => none
  | '=' :: value => some (String.ofList value)
  | value => some (String.ofList value)

/-- The form of an argument. -/
def Argument.ofText (text : String) : Argument :=
  match text.toList with
  | ['-'] => .word text
  | ['-', '-'] => .mark
  | '-' :: '-' :: cs => .long (String.ofList (cs.takeWhile (· ≠ '='))) (attached? cs)
  | '-' :: c :: cs => .short c (trailing? cs)
  | _ => .word text

/-- The options. -/
inductive Flag where
  | config
  | help
  | version
  | json
  | dryRun
deriving DecidableEq

namespace Flag

/-- The long name of an option. -/
def name : Flag → String
  | .config => "config"
  | .help => "help"
  | .version => "version"
  | .json => "json"
  | .dryRun => "dry-run"

/-- The letter of an option. -/
def letter? : Flag → Option Char
  | .config => some 'c'
  | .help => some 'h'
  | .version => some 'V'
  | .json | .dryRun => none

/-- The options of a level. -/
def known : Option Verb → List Flag
  | none => [.config, .help, .version]
  | some .compile => [.config, .help, .json]
  | some .cascade => [.config, .help, .dryRun]

end Flag

/-! ### One level -/

/-- A value that waits to be settled: none, that of the option for the settings file, which may
    still have to come, or the name of the graph file. -/
inductive Pending where
  | nothing
  | config (value : Option String)
  | graph (value : String)
deriving DecidableEq

/-- What a level has brought so far. -/
structure Draft where
  config : Option String
  graph : Option String
  ids : List NodeId
  switch : Bool
  pending : Pending
deriving DecidableEq

namespace Draft

/-- A level of which nothing is read yet. -/
def empty : Draft := ⟨none, none, [], false, .nothing⟩

/-- Store the name of the settings file, once and not empty. -/
def setConfig (d : Draft) (value : String) : Except UsageError Draft :=
  if d.config.isSome then .error .repeated
  else if value.isEmpty then .error .badValue
  else .ok { d with config := some value }

/-- Settle the value that waits. -/
def settle (d : Draft) : Except UsageError Draft :=
  match d.pending with
  | .nothing => .ok d
  | .config none => .error .badValue
  | .config (some value) => { d with pending := .nothing }.setConfig value
  | .graph value =>
    if value.isEmpty then .error .badValue
    else .ok { d with graph := some value, pending := .nothing }

/-- Whether the name of the graph file has been read, be it settled or not. -/
def hasGraph (d : Draft) : Bool :=
  d.graph.isSome ||
    match d.pending with
    | .graph _ => true
    | _ => false

/-- Read an option with the value attached to it. -/
def useFlag (d : Draft) (verb : Option Verb) (flag : Flag) (value : Option String) :
    Except UsageError Draft :=
  match flag, value with
  | .config, none => d.settle.map fun d => { d with pending := .config none }
  | .config, some v => d.settle.bind fun d => d.setConfig v
  | _, some _ => .error .surplusValue
  | .help, none => d.settle.bind fun _ => .error (.help verb)
  | .version, none => d.settle.bind fun _ => .error .version
  | .json, none | .dryRun, none =>
    d.settle.bind fun d => if d.switch then .error .repeated else .ok { d with switch := true }

/-- Read a plain argument of a command: the graph file first, then ids where they are taken. -/
def usePlain (d : Draft) (verb : Verb) (text : String) : Except UsageError Draft :=
  if d.hasGraph then
    match verb with
    | .compile => .error .unknownArgument
    | .cascade => d.settle.map fun d => { d with ids := d.ids ++ [⟨text⟩] }
  else d.settle.map fun d => { d with pending := .graph text }

/-- Read an option by its form.  Letters without a value of their own ignore what is attached to
    them, because they answer at once. -/
def useOption (d : Draft) (verb : Option Verb) : Argument → Except UsageError Draft
  | .long name value =>
    match (Flag.known verb).find? fun f => f.name = name with
    | none => .error .unknownArgument
    | some flag => d.useFlag verb flag value
  | .short letter value =>
    match (Flag.known verb).find? fun f => f.letter? = some letter with
    | none => .error .unknownArgument
    | some .config => d.useFlag verb .config value
    | some flag => d.useFlag verb flag none
  | .mark | .word _ => .ok d

/-- The command that a level has brought. -/
def command (d : Draft) : Verb → Except UsageError Command
  | .compile =>
    match d.graph with
    | some graph => .ok (.compile graph d.switch)
    | none => .error .missingArgument
  | .cascade =>
    match d.graph with
    | some graph =>
      if d.ids.isEmpty then .error .missingArgument else .ok (.cascade graph d.ids d.switch)
    | none => .error .missingArgument

end Draft

/-! ### Both levels -/

/-- Read the arguments behind the word for a command.  The flag says that all of them are
    plain. -/
def readCommand (verb : Verb) : Bool → Draft → List String → Except UsageError Draft
  | _, d, [] => d.settle
  | true, d, text :: rest => (d.usePlain verb text).bind fun d => readCommand verb true d rest
  | false, d, text :: rest =>
    match Argument.ofText text with
    | .mark => readCommand verb true d rest
    | .word text =>
      if d.pending = .config none then
        readCommand verb false { d with pending := .config (some text) } rest
      else (d.usePlain verb text).bind fun d => readCommand verb false d rest
    | option => (d.useOption (some verb) option).bind fun d => readCommand verb false d rest

/-- The word that asks for help, about a command if its word follows. -/
def helpWord : String := "help"

/-- What the words behind the one for help ask for. -/
def readHelp : List String → UsageError
  | [] => .help none
  | [w] =>
    match Verb.ofWord? w with
    | some verb => .help (some verb)
    | none => if w = helpWord then .help none else .unknownCommand
  | _ => .unknownCommand

/-- Read the arguments of both levels.  What waits in front of the command is settled last. -/
def readProgram : Bool → Draft → List String → Except UsageError Request
  | _, d, [] =>
    d.settle.bind fun d =>
      .error (if d.config.isNone then .nothingGiven else .missingCommand)
  | true, _, text :: _ =>
    .error
      (if (Verb.ofWord? text).isSome || text = helpWord then .unknownArgument
        else .unknownCommand)
  | false, d, text :: rest =>
    match Argument.ofText text with
    | .mark => readProgram true d rest
    | .word text =>
      if d.pending = .config none then
        readProgram false { d with pending := .config (some text) } rest
      else
        match Verb.ofWord? text with
        | some verb =>
          (readCommand verb false .empty rest).bind fun inner =>
            (inner.command verb).bind fun command =>
              d.settle.map fun d => ⟨inner.config.or d.config, command⟩
        | none => .error (if text = helpWord then readHelp rest else .unknownCommand)
    | option => (d.useOption none option).bind fun d => readProgram false d rest

/-- The request that a command line makes. -/
def Request.ofArguments (args : List String) : Except UsageError Request :=
  readProgram false .empty args

end QueryGraph
