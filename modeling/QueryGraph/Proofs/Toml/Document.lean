import QueryGraph.Proofs.Graph.Index
import QueryGraph.Proofs.Toml.Text
import QueryGraph.Toml.Reader

namespace QueryGraph.Toml

/-!
# Entries in TOML are read back

* `Spells text item`: at the end of a line, the text is read as the item.
* `spells_stringText`, `spells_arrayText`: strings, and arrays of strings.
* `readLines_entryText`: a line `key = value` adds an entry.
* `read_entryLines`: a document of such lines is read as its entries.
-/

/-! ### Blanks and line ends -/

/-- Blanks and line ends are skipped. -/
theorem skipLines_blank {c : Char} (hc : isBlank c = true ∨ c = '\n') (cs : List Char) :
    skipLines false (c :: cs) = skipLines false cs := by
  conv_lhs => rw [skipLines.eq_def]
  simp [hc]

/-- Nothing is dropped in front of a character that is no blank and begins no comment. -/
theorem skipLines_of_ne {c : Char} (hc : isBlank c = false ∧ c ≠ '\n' ∧ c ≠ '\r' ∧ c ≠ '#')
    (cs : List Char) : skipLines false (c :: cs) = c :: cs := by
  rw [skipLines.eq_def]
  simp [hc]

/-! ### Values -/

/-- A text that is read as an item in front of the end of a line, whatever stands below it. -/
structure Spells (text : String) (item : Item) : Prop where
  head : ∀ c ∈ text.toList.head?, isBlank c = false
  reads : ∀ {fuel : Nat}, text.length < fuel → ∀ rest : List Char,
    readValue fuel 0 (text.toList ++ '\n' :: rest) = some (item, '\n' :: rest)

/-- A string begins with a quote, in whatever form it is written. -/
theorem exists_stringChars (cs : List Char) :
    ∃ q ds, stringChars cs = q :: ds ∧ (q = '"' ∨ q = '\'') := by
  rw [stringChars]
  rcases formFor_cases cs with h | h | ⟨h, -⟩ | ⟨h, -⟩
  · exact ⟨'"', _, by rw [h]; rfl, Or.inl rfl⟩
  · exact ⟨'"', _, by rw [h]; rfl, Or.inl rfl⟩
  · exact ⟨'\'', _, by rw [h]; rfl, Or.inr rfl⟩
  · exact ⟨'\'', _, by rw [h]; rfl, Or.inr rfl⟩

section Values

variable {fuel depth : Nat} {rest : List Char}

/-- A string is read back as a value. -/
theorem readValue_stringText (s : String) (hrest : ∀ c ∈ rest.head?, c ≠ '"' ∧ c ≠ '\'') :
    readValue (fuel + 1) depth ((stringText s).toList ++ rest) = some (.string s, rest) := by
  have hscan := scanString_stringChars s.toList hrest
  obtain ⟨q, ds, hchars, hq⟩ := exists_stringChars s.toList
  rw [toList_stringText, hchars, List.cons_append]
  rw [hchars, List.cons_append] at hscan
  -- Neither quote opens an array or a table.
  rcases hq with rfl | rfl <;> simp [readValue, hscan]

/-- Nothing in front of a string is dropped. -/
theorem skipLines_stringText (s : String) :
    skipLines false ((stringText s).toList ++ rest) = (stringText s).toList ++ rest := by
  obtain ⟨q, ds, hchars, hq⟩ := exists_stringChars s.toList
  rw [toList_stringText, hchars, List.cons_append]
  rcases hq with rfl | rfl <;> exact skipLines_of_ne (by decide) _

/-- A first item with a comma behind it. -/
theorem readItems_comma (s : String) :
    readItems (fuel + 2) depth ((stringText s).toList ++ ',' :: rest)
      = (readItems (fuel + 1) depth (skipLines false rest)).map
          fun r => (.string s :: r.1, r.2) := by
  have hvalue : readValue (fuel + 1) depth ((stringText s).toList ++ ',' :: rest)
      = some (.string s, ',' :: rest) := readValue_stringText s (by simp)
  have hcomma : skipLines false (',' :: rest) = ',' :: rest := skipLines_of_ne (by decide) rest
  obtain ⟨q, ds, hchars, hq⟩ := exists_stringChars s.toList
  rw [toList_stringText, hchars, List.cons_append] at hvalue ⊢
  rcases hq with rfl | rfl <;> simp [readItems, hvalue, hcomma]

/-- A last item without a comma. -/
theorem readItems_last (s : String) :
    readItems (fuel + 2) depth ((stringText s).toList ++ ']' :: rest)
      = some ([.string s], rest) := by
  have hvalue : readValue (fuel + 1) depth ((stringText s).toList ++ ']' :: rest)
      = some (.string s, ']' :: rest) := readValue_stringText s (by simp)
  have hclose : skipLines false (']' :: rest) = ']' :: rest := skipLines_of_ne (by decide) rest
  obtain ⟨q, ds, hchars, hq⟩ := exists_stringChars s.toList
  rw [toList_stringText, hchars, List.cons_append] at hvalue ⊢
  rcases hq with rfl | rfl <;> simp [readItems, hvalue, hclose]

/-- The items of an array that take a line each. -/
def itemLines (items : List String) : String :=
  String.join (items.map fun s => "    " ++ stringText s ++ ",\n")

/-- The first line of several items, character by character. -/
theorem toList_itemLines_cons (s : String) (items : List String) :
    (itemLines (s :: items)).toList
      = ' ' :: ' ' :: ' ' :: ' ' ::
        ((stringText s).toList ++ ',' :: '\n' :: (itemLines items).toList) := by
  simp [itemLines, String.toList_join]

/-- Items that take a line each are read back, whatever stands behind the closing bracket. -/
theorem readItems_itemLines (items : List String) (hfuel : items.length < fuel) :
    readItems fuel depth (skipLines false ('\n' :: ((itemLines items).toList ++ ']' :: rest)))
      = some (items.map .string, rest) := by
  induction items generalizing fuel with
  | nil =>
    obtain ⟨fuel, rfl⟩ : ∃ m, fuel = m + 1 := ⟨fuel - 1, by simp at hfuel; omega⟩
    show readItems (fuel + 1) depth (skipLines false ('\n' :: ']' :: rest)) = some ([], rest)
    rw [skipLines_blank (by decide), skipLines_of_ne (by decide), readItems]
  | cons s items ih =>
    obtain ⟨fuel, rfl⟩ : ∃ m, fuel = m + 2 := ⟨fuel - 2, by simp at hfuel; omega⟩
    have hlater := @ih (fuel + 1) (by simp at hfuel; omega)
    -- Behind the comma the text goes on as it does behind the opening bracket.
    have hskip : skipLines false ('\n' :: ((itemLines (s :: items)).toList ++ ']' :: rest))
        = (stringText s).toList ++ ',' :: '\n' :: ((itemLines items).toList ++ ']' :: rest) := by
      rw [toList_itemLines_cons, skipLines_blank (by decide)]
      iterate 4 rw [List.cons_append, skipLines_blank (by decide)]
      rw [List.append_assoc, skipLines_stringText]
      rfl
    rw [hskip, readItems_comma, hlater]
    rfl

/-- An array of strings is read back as a value. -/
theorem readValue_arrayText (items : List String) (hfuel : items.length + 2 ≤ fuel)
    (hdepth : depth + 1 < maxDepth) :
    readValue fuel depth ((arrayText items).toList ++ rest)
      = some (.array (items.map .string), rest) := by
  obtain ⟨fuel, rfl⟩ : ∃ m, fuel = m + 2 := ⟨fuel - 2, by omega⟩
  -- Only arrays of two or more items take several lines.
  rcases items with _ | ⟨s, _ | ⟨t, items⟩⟩
  · show readValue (fuel + 2) depth ('[' :: ']' :: rest) = some (.array [], rest)
    rw [readValue, if_pos hdepth, skipLines_of_ne (by decide), readItems]
    rfl
  · have htext : (arrayText [s]).toList ++ rest
        = '[' :: ((stringText s).toList ++ ']' :: rest) := by
      simp [arrayText]
    obtain ⟨fuel, rfl⟩ : ∃ m, fuel = m + 1 := ⟨fuel - 1, by simp at hfuel; omega⟩
    rw [htext, readValue, if_pos hdepth, skipLines_stringText, readItems_last]
    rfl
  · have htext : (arrayText (s :: t :: items)).toList ++ rest
        = '[' :: '\n' :: ((itemLines (s :: t :: items)).toList ++ ']' :: rest) := by
      simp [arrayText, itemLines]
    rw [htext, readValue, if_pos hdepth, readItems_itemLines _ (by omega)]
    rfl

end Values

/-- A string is read back at the end of a line. -/
theorem spells_stringText (s : String) : Spells (stringText s) (.string s) where
  head := by
    obtain ⟨q, ds, hchars, hq⟩ := exists_stringChars s.toList
    rw [toList_stringText, hchars]
    rcases hq with rfl | rfl <;> simp [isBlank]
  reads hfuel rest := by
    obtain ⟨fuel, rfl⟩ := Nat.exists_eq_add_of_lt hfuel
    exact readValue_stringText s (by simp)

/-- Every item takes at least one character. -/
theorem length_itemLines (items : List String) : items.length ≤ (itemLines items).length := by
  induction items with
  | nil => exact Nat.zero_le _
  | cons s items ih =>
    rw [← String.length_toList] at ih ⊢
    rw [toList_itemLines_cons]
    simp only [List.length_cons, List.length_append]
    omega

/-- An array has more characters than items. -/
theorem length_arrayText (items : List String) : items.length + 2 ≤ (arrayText items).length := by
  rcases items with _ | ⟨s, _ | ⟨t, items⟩⟩
  · decide
  · obtain ⟨q, ds, hchars, -⟩ := exists_stringChars s.toList
    rw [← String.length_toList]
    simp [arrayText, hchars]
  · have hlines := length_itemLines (s :: t :: items)
    have htext : arrayText (s :: t :: items) = "[\n" ++ itemLines (s :: t :: items) ++ "]" := rfl
    have hopen : "[\n".length = 2 := by decide
    rw [htext, String.length_append, String.length_append, hopen]
    omega

/-- An array of strings is read back at the end of a line. -/
theorem spells_arrayText (items : List String) :
    Spells (arrayText items) (.array (items.map .string)) where
  head := by
    rcases items with _ | ⟨s, _ | ⟨t, items⟩⟩ <;> simp [arrayText, isBlank]
  reads hfuel rest :=
    readValue_arrayText items (by have := length_arrayText items; omega) (by decide)

/-! ### Lines -/

/-- A key that needs no quotes. -/
structure IsBareKey (key : String) : Prop where
  ne_empty : key.toList ≠ []
  all_isKeyChar : key.toList.all isKeyChar = true

theorem IsBareKey.isKeyChar_of_mem {key : String} (h : IsBareKey key) :
    ∀ c ∈ key.toList, isKeyChar c = true :=
  List.all_eq_true.mp h.all_isKeyChar

section Lines

variable {key : String} (hkey : IsBareKey key) (rest : List Char)

include hkey

/-- A key begins with none of the characters that mean something else. -/
theorem IsBareKey.exists_cons :
    ∃ c cs, key.toList = c :: cs ∧
      c ∉ [' ', '\t', '\n', '\r', '#', '[', '"', '\'', '\uFEFF'] := by
  obtain ⟨c, cs, hchars⟩ := List.exists_cons_of_ne_nil hkey.ne_empty
  have hc : isKeyChar c = true := hkey.isKeyChar_of_mem c (by rw [hchars]; exact List.mem_cons_self)
  refine ⟨c, cs, hchars, fun hmem => ?_⟩
  -- None of these characters may stand in a bare key.
  have hnone : [' ', '\t', '\n', '\r', '#', '[', '"', '\'', '\uFEFF'].all
      (fun d => !isKeyChar d) = true := by decide
  have hnot := List.all_eq_true.mp hnone c hmem
  rw [hc] at hnot
  exact absurd hnot (by decide)

/-- A bare key is read up to the space behind it. -/
theorem scanKeyPart_append : scanKeyPart (key.toList ++ ' ' :: rest) = some (key, ' ' :: rest) := by
  have htake : (key.toList ++ ' ' :: rest).takeWhile isKeyChar = key.toList := by
    rw [List.takeWhile_append_of_pos hkey.isKeyChar_of_mem, List.takeWhile_cons_of_neg (by decide),
      List.append_nil]
  have hdrop : (key.toList ++ ' ' :: rest).dropWhile isKeyChar = ' ' :: rest := by
    rw [List.dropWhile_append_of_pos hkey.isKeyChar_of_mem, List.dropWhile_cons_of_neg (by decide)]
  have hquoted : scanLineString (key.toList ++ ' ' :: rest) = none := by
    obtain ⟨c, cs, hchars, hc⟩ := hkey.exists_cons
    simp only [List.mem_cons, not_or] at hc
    rw [hchars, List.cons_append]
    simp [scanLineString, hc]
  rw [scanKeyPart, hquoted, htake, hdrop]
  simp [hkey.ne_empty]

/-- A bare key in front of an equals sign is read as a key without dots. -/
theorem scanKey_append :
    scanKey (key.toList ++ ' ' :: '=' :: rest) = some (([], key), '=' :: rest) := by
  have hskip : skipBlanks (key.toList ++ ' ' :: '=' :: rest)
      = key.toList ++ ' ' :: '=' :: rest := by
    obtain ⟨c, cs, hchars, hc⟩ := hkey.exists_cons
    simp only [List.mem_cons, not_or] at hc
    rw [hchars, List.cons_append, skipBlanks, List.dropWhile_cons_of_neg (by simp [isBlank, hc])]
  have hparts : scanKeyParts (maxDepth - 1) (key.toList ++ ' ' :: '=' :: rest)
      = some ([key], '=' :: rest) := by
    show scanKeyParts (78 + 1) _ = _
    rw [scanKeyParts, hskip, scanKeyPart_append hkey]
    rfl
  rw [scanKey, hparts]
  rfl

end Lines

/-- The characters of a line `key = value`. -/
theorem toList_entryText (key value : String) (rest : List Char) :
    (entryText key value).toList ++ rest
      = key.toList ++ ' ' :: '=' :: ' ' :: (value.toList ++ '\n' :: rest) := by
  simp [entryText]

section Entries

variable {key value : String} {item : Item} (hkey : IsBareKey key) (hvalue : Spells value item)
  {entries : Entries} (hnew : entries.lookup key = none) (rest : List Char)

include hkey hvalue hnew

/-- A line with a new key, in front of all headers. -/
theorem readPair_entryText :
    readPair ⟨entries, []⟩ ((entryText key value).toList ++ rest)
      = some (⟨entries ++ [(key, item)], []⟩, rest) := by
  have hskip : skipBlanks (' ' :: (value.toList ++ '\n' :: rest))
      = value.toList ++ '\n' :: rest := by
    rw [skipBlanks, List.dropWhile_cons_of_pos (by decide)]
    cases hchars : value.toList with
    | nil => rfl
    | cons c cs =>
      have hc := hvalue.head c (by rw [hchars]; rfl)
      rw [List.cons_append, List.dropWhile_cons_of_neg (by simp [hc])]
  have hfuel : value.length < ((entryText key value).toList ++ rest).length + 1 := by
    rw [toList_entryText, ← String.length_toList]
    simp only [List.length_append, List.length_cons]
    omega
  have hread := hvalue.reads hfuel rest
  have hdefine : Draft.define ⟨entries, []⟩ [] key item = some ⟨entries ++ [(key, item)], []⟩ := by
    simp [Draft.define, Toml.define, modifyAt, addEntry, hnew]
  rw [readPair]
  -- The bound on the value is the length of the whole text, which is not to be unfolded.
  generalize ((entryText key value).toList ++ rest).length + 1 = fuel at hread ⊢
  rw [toList_entryText, scanKey_append hkey]
  simp only [hskip, hread, hdefine]
  rfl

/-- A line with a new key adds its entry to those read so far. -/
theorem readLines_entryText (fuel : Nat) :
    readLines (fuel + 1) ⟨entries, []⟩ ((entryText key value).toList ++ rest)
      = readLines fuel ⟨entries ++ [(key, item)], []⟩ rest := by
  have hpair := readPair_entryText hkey hvalue hnew rest
  obtain ⟨c, cs, hchars, hc⟩ := hkey.exists_cons
  simp only [List.mem_cons, not_or] at hc
  rw [toList_entryText, hchars, List.cons_append] at hpair ⊢
  rw [readLines, skipLines_of_ne ⟨by simp [isBlank, hc], by simp [hc], by simp [hc], by simp [hc]⟩]
  simp [hpair, hc]

end Entries

/-! ### Documents -/

section Documents

variable {ι : Type} {key value : ι → String} {item : ι → Item}

/-- A line for each entry. -/
def entryLines (ks : List ι) (key value : ι → String) : String :=
  String.join (ks.map fun k => entryText (key k) (value k))

/-- The first line of a document and those below it. -/
theorem toList_entryLines_cons (k : ι) (ks : List ι) :
    (entryLines (k :: ks) key value).toList
      = (entryText (key k) (value k)).toList ++ (entryLines ks key value).toList := by
  simp [entryLines, String.toList_join]

/-- Every line takes at least one character. -/
theorem length_entryLines (ks : List ι) : ks.length ≤ (entryLines ks key value).toList.length := by
  induction ks with
  | nil => exact Nat.zero_le _
  | cons k ks ih =>
    rw [toList_entryLines_cons, toList_entryText]
    simp only [List.length_cons, List.length_append]
    omega

/-- Lines with new keys, all of them different, add their entries in order. -/
theorem readLines_entryLines {ks : List ι} (hkey : ∀ k ∈ ks, IsBareKey (key k))
    (hvalue : ∀ k ∈ ks, Spells (value k) (item k)) {entries : Entries}
    (hnew : ∀ k ∈ ks, entries.lookup (key k) = none) (hnodup : (ks.map key).Nodup) {fuel : Nat}
    (hfuel : ks.length < fuel) :
    readLines fuel ⟨entries, []⟩ (entryLines ks key value).toList
      = some (entries ++ ks.map fun k => (key k, item k)) := by
  induction ks generalizing entries fuel with
  | nil =>
    obtain ⟨fuel, rfl⟩ := Nat.exists_eq_add_of_lt hfuel
    simp [entryLines, readLines, skipLines]
  | cons k ks ih =>
    obtain ⟨fuel, rfl⟩ : ∃ m, fuel = m + 1 := ⟨fuel - 1, by simp at hfuel; omega⟩
    rw [List.forall_mem_cons] at hkey hvalue hnew
    rw [List.map_cons, List.nodup_cons] at hnodup
    -- The later keys are still new when this one has been added.
    have hlater : ∀ j ∈ ks, (entries ++ [(key k, item k)]).lookup (key j) = none := by
      intro j hj
      have hne : key j ≠ key k := fun h => hnodup.1 (h ▸ List.mem_map_of_mem hj)
      rw [List.lookup_append, hnew.2 j hj, Option.none_or, lookup_cons_if, if_neg hne]
      rfl
    rw [toList_entryLines_cons, readLines_entryText hkey.1 hvalue.1 hnew.1,
      ih hkey.2 hvalue.2 hlater hnodup.2 (by simp at hfuel; omega), List.append_assoc]
    rfl

/-- A document without a byte order mark is read from its first character on. -/
theorem read_of_head? {text : String} (h : text.toList.head? ≠ some '\uFEFF') :
    read text = readLines (text.toList.length + 1) ⟨[], []⟩ text.toList := by
  unfold read
  split
  next cs heq => exact absurd (by rw [heq]; rfl) h
  · rfl

/-- **Entries are read back**, in their order. -/
theorem read_entryLines {ks : List ι} (hkey : ∀ k ∈ ks, IsBareKey (key k))
    (hvalue : ∀ k ∈ ks, Spells (value k) (item k)) (hnodup : (ks.map key).Nodup) :
    read (entryLines ks key value) = some (ks.map fun k => (key k, item k)) := by
  -- The first line begins with a key, so there is no byte order mark.
  have hhead : (entryLines ks key value).toList.head? ≠ some '\uFEFF' := by
    cases ks with
    | nil => simp [entryLines]
    | cons k ks =>
      obtain ⟨c, cs, hchars, hc⟩ := (hkey k List.mem_cons_self).exists_cons
      simp only [List.mem_cons, not_or] at hc
      rw [toList_entryLines_cons, toList_entryText, hchars]
      simp [hc]
  have hlength : ks.length ≤ (entryLines ks key value).toList.length := length_entryLines ks
  rw [read_of_head? hhead, readLines_entryLines hkey hvalue (fun _ _ => rfl) hnodup (by omega)]
  rfl

end Documents

end QueryGraph.Toml
