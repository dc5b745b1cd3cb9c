import QueryGraph.Codec.Variant
import QueryGraph.Query.Settings

namespace QueryGraph.Wire

/-!
# Settings in documents

* `failurePolicy`: the failure policy by name.
* `settings`: the settings; every one of them may be left out.
-/

/-- Failure policies. -/
def failurePolicy : Codec FailurePolicy :=
  Codec.names FailurePolicy.all FailurePolicy.name fun p => [p.name]

/-- The fields of the settings. -/
def settingsRecord : Record Settings where
  label := "struct CompilerSettings"
  blank := .default
  fields :=
    [(Codec.string.field (Setting.key .eventsTable) Settings.eventsTable fun v r =>
        { r with eventsTable := v }).orDefault,
      (Codec.string.field (Setting.key .parametersColumn) Settings.parametersColumn fun v r =>
        { r with parametersColumn := v }).orDefault,
      (Codec.string.list.field (Setting.key .fallbackColumns) Settings.fallbackColumns fun v r =>
        { r with fallbackColumns := v }).orDefault,
      (Codec.string.field (Setting.key .namespaceStem) Settings.namespaceStem fun v r =>
        { r with namespaceStem := v }).orDefault,
      (Codec.string.field (Setting.key .leftAlias) Settings.leftAlias fun v r =>
        { r with leftAlias := v }).orDefault,
      (Codec.string.field (Setting.key .rightAlias) Settings.rightAlias fun v r =>
        { r with rightAlias := v }).orDefault,
      (Codec.string.field (Setting.key .subqueryAlias) Settings.subqueryAlias fun v r =>
        { r with subqueryAlias := v }).orDefault,
      (failurePolicy.field (Setting.key .failurePolicy) Settings.failurePolicy fun v r =>
        { r with failurePolicy := v }).orDefault]

/-- Settings. -/
def settings : Codec Settings := settingsRecord.codec

end QueryGraph.Wire
