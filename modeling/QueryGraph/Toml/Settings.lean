import QueryGraph.Failure
import QueryGraph.Query.Settings
import QueryGraph.Toml.Printer
import QueryGraph.Toml.Reader

namespace QueryGraph

/-!
# Settings files

* `Settings.toToml`: a settings file; `Settings.entriesToToml` writes some of the settings only.
* `Settings.ofToml?`: read a settings file.  Settings that it does not mention have their
  default, and keys that are no settings do not count.
-/

namespace Setting

/-- The value of a setting in TOML. -/
def valueText (s : Settings) : Setting → String
  | .eventsTable => Toml.stringText s.eventsTable
  | .parametersColumn => Toml.stringText s.parametersColumn
  | .fallbackColumns => Toml.arrayText s.fallbackColumns
  | .namespaceStem => Toml.stringText s.namespaceStem
  | .leftAlias => Toml.stringText s.leftAlias
  | .rightAlias => Toml.stringText s.rightAlias
  | .subqueryAlias => Toml.stringText s.subqueryAlias
  | .failurePolicy => Toml.stringText (s.failurePolicy.name)

end Setting

namespace Toml.Item

/-- The text of a string. -/
def string? : Item → Option String
  | .string s => some s
  | _ => none

/-- The texts of an array of strings. -/
def strings? : Item → Option (List String)
  | .array items => items.mapM string?
  | _ => none

/-- Whether there is nothing in an array or a table. -/
def isEmpty : Item → Bool
  | .array items => items.isEmpty
  | .table _ entries => entries.isEmpty
  | .tables elements => elements.isEmpty
  | _ => false

/-- A choice by name: a string, or the key of a table with nothing at it.  Between braces there
    may be no second key; of other tables the first key counts. -/
def choice? : Item → Option String
  | .string s => some s
  | .table origin ((name, item) :: others) =>
    if item.isEmpty && (origin ≠ .braces || others.isEmpty) then some name else none
  | _ => none

end Toml.Item

/-- The failure policy with a given name. -/
def FailurePolicy.ofName? (name : String) : Option FailurePolicy :=
  FailurePolicy.all.find? fun p => p.name = name

@[simp] theorem FailurePolicy.ofName?_name (p : FailurePolicy) : ofName? p.name = some p := by
  cases p <;> decide

namespace Setting

/-- Take the value of a setting from an item of a file. -/
def put? (s : Settings) (item : Toml.Item) : Setting → Option Settings
  | .eventsTable => item.string?.map fun v => { s with eventsTable := v }
  | .parametersColumn => item.string?.map fun v => { s with parametersColumn := v }
  | .fallbackColumns => item.strings?.map fun v => { s with fallbackColumns := v }
  | .namespaceStem => item.string?.map fun v => { s with namespaceStem := v }
  | .leftAlias => item.string?.map fun v => { s with leftAlias := v }
  | .rightAlias => item.string?.map fun v => { s with rightAlias := v }
  | .subqueryAlias => item.string?.map fun v => { s with subqueryAlias := v }
  | .failurePolicy =>
    (item.choice?.bind FailurePolicy.ofName?).map fun v => { s with failurePolicy := v }

end Setting

namespace Settings

/-- The lines of some of the settings. -/
def entriesToToml (s : Settings) (which : List Setting) : String :=
  String.join (which.map fun k => Toml.entryText k.key (k.valueText s))

/-- A settings file. -/
def toToml (s : Settings) : String := s.entriesToToml Setting.all

/-- Settings from the entries of a file. -/
def ofEntries? (entries : Toml.Entries) : Option Settings :=
  Setting.all.foldlM
    (fun s k =>
      match entries.lookup k.key with
      | none => some s
      | some item => k.put? s item)
    default

/-- Read a settings file. -/
def ofToml? (text : String) : Option Settings := (Toml.read text).bind ofEntries?

/-- Settings from the text of a file, if there is one. -/
def ofFile : Option String → Except Failure Settings
  | none => .error (.config "Failed to read settings")
  | some text =>
    match ofToml? text with
    | none => .error (.config "Failed to parse settings")
    | some s => .ok s

/-- Settings from the text of a file; where that fails, the defaults. -/
def ofFileOrDefault (text : Option String) : Settings :=
  match ofFile text with
  | .ok s => s
  | .error _ => default

end Settings

end QueryGraph
