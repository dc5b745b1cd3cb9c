import Mathlib.Data.List.Nodup
import QueryGraph.Proofs.Toml.Document
import QueryGraph.Toml.Settings

namespace QueryGraph

/-!
# Settings survive a file

* `Setting.Value`, `Settings.get`, `Settings.set`: settings as a function of their names.
* `Setting.put?_item`: the item of a setting gives its value back.
* `Settings.ofEntries?_map`: what is listed is taken over, and the rest has its default.
* `settings_survive_file`: a file is read as the settings that were written, and one with some of
  the lines only as these settings and otherwise the defaults.
-/

/-! ### Settings by name -/

/-- What a setting holds. -/
def Setting.Value : Setting → Type
  | .eventsTable => String
  | .parametersColumn => String
  | .fallbackColumns => List String
  | .namespaceStem => String
  | .leftAlias => String
  | .rightAlias => String
  | .subqueryAlias => String
  | .failurePolicy => FailurePolicy

namespace Settings

/-- The value of a setting. -/
def get (s : Settings) : (k : Setting) → k.Value
  | .eventsTable => s.eventsTable
  | .parametersColumn => s.parametersColumn
  | .fallbackColumns => s.fallbackColumns
  | .namespaceStem => s.namespaceStem
  | .leftAlias => s.leftAlias
  | .rightAlias => s.rightAlias
  | .subqueryAlias => s.subqueryAlias
  | .failurePolicy => s.failurePolicy

/-- Give a setting another value. -/
def set (s : Settings) : (k : Setting) → k.Value → Settings
  | .eventsTable, v => { s with eventsTable := v }
  | .parametersColumn, v => { s with parametersColumn := v }
  | .fallbackColumns, v => { s with fallbackColumns := v }
  | .namespaceStem, v => { s with namespaceStem := v }
  | .leftAlias, v => { s with leftAlias := v }
  | .rightAlias, v => { s with rightAlias := v }
  | .subqueryAlias, v => { s with subqueryAlias := v }
  | .failurePolicy, v => { s with failurePolicy := v }

variable {s t : Settings} {j k : Setting}

@[simp] theorem get_set_self (v : k.Value) : (s.set k v).get k = v := by
  cases k <;> rfl

@[simp] theorem get_set_of_ne (h : j ≠ k) (v : k.Value) : (s.set k v).get j = s.get j := by
  cases k <;> cases j <;> first | rfl | exact absurd rfl h

/-- There is nothing more to settings than their values. -/
theorem eq_of_get (h : ∀ k, s.get k = t.get k) : s = t := by
  obtain ⟨⟩ := s
  obtain ⟨⟩ := t
  rw [Settings.mk.injEq]
  exact ⟨h .eventsTable, h .parametersColumn, h .fallbackColumns, h .namespaceStem, h .leftAlias,
    h .rightAlias, h .subqueryAlias, h .failurePolicy⟩

end Settings

/-! ### The lines of a settings file -/

namespace Setting

/-- The value of a setting as an item of a file. -/
def item (s : Settings) : Setting → Toml.Item
  | .eventsTable => .string s.eventsTable
  | .parametersColumn => .string s.parametersColumn
  | .fallbackColumns => .array (s.fallbackColumns.map .string)
  | .namespaceStem => .string s.namespaceStem
  | .leftAlias => .string s.leftAlias
  | .rightAlias => .string s.rightAlias
  | .subqueryAlias => .string s.subqueryAlias
  | .failurePolicy => .string s.failurePolicy.name

theorem isBareKey_key (k : Setting) : Toml.IsBareKey k.key := by
  cases k <;> exact ⟨by decide, by decide⟩

/-- The value of every setting is read back as its item. -/
theorem spells_valueText (s : Settings) (k : Setting) : Toml.Spells (k.valueText s) (k.item s) := by
  cases k
  case fallbackColumns => exact Toml.spells_arrayText s.fallbackColumns
  all_goals exact Toml.spells_stringText _

/-- An array of strings gives these strings back. -/
theorem strings?_map_string (items : List String) :
    (Toml.Item.array (items.map .string)).strings? = some items := by
  rw [Toml.Item.strings?]
  induction items with
  | nil => rfl
  | cons s items ih => simp [ih, Toml.Item.string?]

/-- The item of a setting gives its value back. -/
theorem put?_item (s t : Settings) (k : Setting) :
    k.put? t (k.item s) = some (t.set k (s.get k)) := by
  cases k
  case fallbackColumns => rw [put?, item, strings?_map_string]; rfl
  case failurePolicy =>
    show ((some s.failurePolicy.name).bind FailurePolicy.ofName?).map _ = _
    rw [Option.bind_some, FailurePolicy.ofName?_name]
    rfl
  all_goals rfl

end Setting

namespace Settings

/-- Under the key of a setting stands its item if the setting is listed, and nothing otherwise. -/
theorem lookup_map_key (s : Settings) (which : List Setting) (k : Setting) :
    (which.map fun j => (j.key, j.item s)).lookup k.key
      = if k ∈ which then some (k.item s) else none := by
  induction which with
  | nil => rfl
  | cons j which ih =>
    rw [List.map_cons, lookup_cons_if, ih]
    -- Different settings have different keys.
    by_cases hk : k = j
    · simp [hk]
    · have hkey : k.key ≠ j.key := fun h => hk (Setting.key_inj.mp h)
      simp [hk, hkey]

/-- Take a setting over from other settings if it is listed. -/
def take (s : Settings) (which : List Setting) (t : Settings) (k : Setting) : Settings :=
  if k ∈ which then t.set k (s.get k) else t

/-- Only the setting that is taken over can change, and only if it is listed. -/
theorem get_take (s : Settings) (which : List Setting) (t : Settings) (j k : Setting) :
    (take s which t k).get j = if j = k ∧ j ∈ which then s.get j else t.get j := by
  unfold take
  by_cases hj : j = k
  · subst hj
    by_cases hwhich : j ∈ which <;> simp [hwhich]
  · by_cases hwhich : k ∈ which <;> simp [hwhich, hj]

/-- Setting by setting, what is listed is taken over. -/
theorem foldlM_take (s : Settings) (which : List Setting)
    {step : Settings → Setting → Option Settings}
    (hstep : ∀ t k, step t k = some (take s which t k)) (ks : List Setting) (t : Settings) :
    ∃ t', ks.foldlM step t = some t' ∧
      ∀ k, t'.get k = if k ∈ ks ∧ k ∈ which then s.get k else t.get k := by
  induction ks generalizing t with
  | nil => exact ⟨t, rfl, fun k => by simp⟩
  | cons j ks ih =>
    obtain ⟨t', hfold, hget⟩ := ih (take s which t j)
    refine ⟨t', by rw [List.foldlM_cons, hstep]; exact hfold, fun k => ?_⟩
    rw [hget, get_take]
    by_cases hks : k ∈ ks <;> by_cases hwhich : k ∈ which <;> simp [hks, hwhich]

/-- What is listed is taken over, and the rest has its default. -/
theorem ofEntries?_map (s : Settings) (which : List Setting) :
    ∃ t, ofEntries? (which.map fun k => (k.key, k.item s)) = some t ∧
      ∀ k, t.get k = if k ∈ which then s.get k else default.get k := by
  rw [ofEntries?]
  refine (foldlM_take s which (fun t k => ?_) Setting.all default).imp
    fun t ht => ⟨ht.1, fun k => ?_⟩
  · rw [lookup_map_key, take]
    by_cases hk : k ∈ which
    · rw [if_pos hk, if_pos hk]
      exact k.put?_item s t
    · rw [if_neg hk, if_neg hk]
  · rw [ht.2]
    simp only [Setting.mem_all, true_and]

/-- A file with some of the lines. -/
theorem ofFile_entriesToToml (s : Settings) {which : List Setting} (hnodup : which.Nodup) :
    ∃ t, ofFile (some (s.entriesToToml which)) = .ok t ∧
      ∀ k, t.get k = if k ∈ which then s.get k else default.get k := by
  obtain ⟨t, hentries, hget⟩ := ofEntries?_map s which
  have hkeys : (which.map Setting.key).Nodup :=
    hnodup.map fun j k h => Setting.key_inj.mp h
  have hread : Toml.read (s.entriesToToml which) = some (which.map fun k => (k.key, k.item s)) :=
    Toml.read_entryLines (fun k _ => k.isBareKey_key) (fun k _ => k.spells_valueText s) hkeys
  refine ⟨t, ?_, hget⟩
  rw [ofFile, ofToml?, hread, Option.bind_some, hentries]

end Settings

/-- **Settings survive a file.**  Whatever texts they hold, a settings file is read as the settings
    that were written; and a file with the lines of some settings alone, in any order, is read as
    these settings, with the defaults for the others. -/
theorem settings_survive_file (s : Settings) :
    Settings.ofFile (some s.toToml) = .ok s ∧
      ∀ which : List Setting, which.Nodup →
        ∃ t, Settings.ofFile (some (s.entriesToToml which)) = .ok t ∧
          (∀ k ∈ which, t.get k = s.get k) ∧ ∀ k, k ∉ which → t.get k = Settings.default.get k := by
  refine ⟨?_, fun which hnodup => ?_⟩
  · obtain ⟨t, hfile, hget⟩ := s.ofFile_entriesToToml (show Setting.all.Nodup by decide)
    obtain rfl : t = s := Settings.eq_of_get fun k => by rw [hget, if_pos k.mem_all]
    exact hfile
  · obtain ⟨t, hfile, hget⟩ := s.ofFile_entriesToToml hnodup
    exact ⟨t, hfile, fun k hk => by rw [hget, if_pos hk], fun k hk => by rw [hget, if_neg hk]⟩

/-- A table name of quotes and a list with an empty text, with the lines of these two settings
    alone. -/
theorem settings_survive_file_quotes :
    [Setting.fallbackColumns, .eventsTable].Nodup ∧
      ∃ t, Settings.ofFile (some ({ Settings.default with
            eventsTable := "\n\"\"\"\"\\", fallbackColumns := ["\"it's\"", ""] }.entriesToToml
          [.fallbackColumns, .eventsTable])) = .ok t ∧
        t.eventsTable = "\n\"\"\"\"\\" ∧ t.fallbackColumns = ["\"it's\"", ""] ∧
        t.leftAlias = "l" := by
  have hnodup : [Setting.fallbackColumns, .eventsTable].Nodup := by decide
  obtain ⟨t, hfile, hlisted, hothers⟩ := (settings_survive_file { Settings.default with
    eventsTable := "\n\"\"\"\"\\", fallbackColumns := ["\"it's\"", ""] }).2 _ hnodup
  exact ⟨hnodup, t, hfile, hlisted .eventsTable (by decide), hlisted .fallbackColumns (by decide),
    hothers .leftAlias (by decide)⟩

end QueryGraph
