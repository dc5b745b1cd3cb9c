import QueryGraph.Request.Answer

/-!
# The program

The program reads its command line and the files named on it, and writes the answer.
-/

namespace QueryGraph

/-- A reason with its number, which may come with its sign turned. -/
def numbered (code : UInt32) (details : String) : String :=
  let number := if code < 0x80000000 then code else 0 - code
  details.capitalize ++ " (os error " ++ toString number.toNat ++ ")"

/-- Why a file cannot be read, in the words of the system. -/
def reasonOf : IO.Error → String
  | .noFileOrDirectory _ code details => numbered code details
  | .permissionDenied _ code details => numbered code details
  | .inappropriateType _ code details => numbered code details
  | .invalidArgument _ code details => numbered code details
  | .resourceExhausted _ code details => numbered code details
  | .otherError code details => numbered code details
  | e => toString e

/-- Read a file as text. -/
def readText (path : String) : IO (Except String String) := do
  try
    match String.fromUTF8? (← IO.FS.readBinFile path) with
    | some text => return .ok text
    | none => return .error "stream did not contain valid UTF-8"
  catch e => return .error (reasonOf e)

/-- The place of the settings file below the user's directory for configuration. -/
def usualSettings : IO (Option String) := do
  let home := (← IO.getEnv "HOME").map fun dir => dir ++ "/.config"
  let dir :=
    match ← IO.getEnv "XDG_CONFIG_HOME" with
    | some dir => if dir.startsWith "/" then some dir else home
    | none => home
  return dir.map fun dir => dir ++ "/flowsql/settings.toml"

/-- The files that a command line may need, with their contents. -/
def readFiles (paths : List String) : IO Files := do
  let contents ← paths.mapM fun path => return (path, ← readText path)
  return fun path => (contents.lookup path).getD (.error "file was not read")

/-- The files that a request names. -/
def Request.paths (r : Request) : List String :=
  r.config.toList ++
    match r.command with
    | .compile graph _ => [graph]
    | .cascade graph _ _ => [graph]

/-- Answer a command line. -/
def answerOnConsole (args : List String) : IO UInt32 := do
  let usual ← usualSettings
  let paths := ((Request.ofArguments args).toOption.map Request.paths).getD []
  let answer := answerArguments (← readFiles (usual.toList ++ paths)) usual args
  IO.print answer.output
  IO.eprint answer.messages
  return answer.exitCode.toUInt32

end QueryGraph

/-- The program. -/
def main (args : List String) : IO UInt32 := QueryGraph.answerOnConsole args
