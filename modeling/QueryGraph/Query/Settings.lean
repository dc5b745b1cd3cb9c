namespace QueryGraph

/-!
# Settings

* `FailurePolicy`: what becomes of the nodes that depend on a failed one.
* `Settings`: the names that generated queries use, with `Settings.default`.
* `Setting`: the settings one by one, with the keys under which documents and files hold them.
-/

/-- What becomes of the nodes that depend on a failed node: they find their inputs missing, or
    they are skipped. -/
inductive FailurePolicy where
  | continue
  | skipDependents
deriving DecidableEq

namespace FailurePolicy

/-- All failure policies. -/
def all : List FailurePolicy := [.continue, .skipDependents]

/-- The name of a failure policy. -/
def name : FailurePolicy → String
  | .continue => "continue"
  | .skipDependents => "skip_dependents"

end FailurePolicy

/-- The names that generated queries use, and the failure policy. -/
structure Settings where
  eventsTable : String
  parametersColumn : String
  fallbackColumns : List String
  namespaceStem : String
  leftAlias : String
  rightAlias : String
  subqueryAlias : String
  failurePolicy : FailurePolicy
deriving DecidableEq

namespace Settings

/-- The settings that hold where nothing else is said. -/
def default : Settings where
  eventsTable := "events"
  parametersColumn := "parameters"
  fallbackColumns := ["event_time", "event_name", "user_id", "session_id"]
  namespaceStem := "game_"
  leftAlias := "l"
  rightAlias := "r"
  subqueryAlias := "src"
  failurePolicy := .continue

instance : Inhabited Settings := ⟨default⟩

/-- The namespace of a game's views. -/
def namespaceFor (s : Settings) (game : UInt64) : String :=
  s.namespaceStem ++ toString game.toNat

end Settings

/-- The settings one by one. -/
inductive Setting where
  | eventsTable
  | parametersColumn
  | fallbackColumns
  | namespaceStem
  | leftAlias
  | rightAlias
  | subqueryAlias
  | failurePolicy
deriving DecidableEq

namespace Setting

/-- All settings, in the order in which they are written. -/
def all : List Setting :=
  [.eventsTable, .parametersColumn, .fallbackColumns, .namespaceStem, .leftAlias, .rightAlias,
    .subqueryAlias, .failurePolicy]

/-- The key of a setting. -/
def key : Setting → String
  | .eventsTable => "events_table"
  | .parametersColumn => "parameters_column"
  | .fallbackColumns => "fallback_columns"
  | .namespaceStem => "namespace_prefix"
  | .leftAlias => "left_alias"
  | .rightAlias => "right_alias"
  | .subqueryAlias => "subquery_alias"
  | .failurePolicy => "failure_policy"

/-- Nothing is left out. -/
theorem mem_all (k : Setting) : k ∈ all := by cases k <;> decide

/-- Different settings have different keys. -/
theorem key_inj {j k : Setting} : j.key = k.key ↔ j = k := by
  cases j <;> cases k <;> decide

end Setting

end QueryGraph
