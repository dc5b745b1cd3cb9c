import QueryGraph.Codec.Variant
import QueryGraph.Proofs.Json.Canonical

namespace QueryGraph

/-!
# Laws of codecs

* `Codec.ReadsBack c k a`: what `c` writes for `a` is read as `a` again, and nests at most `k`
  deep.  Lemmas lift this from parts to options, lists, records and unions.
* `Record.Restores`: how a record comes back field by field.
* `Codec.Yields c k P`: whatever `c` reads from a tree of depth `k` has the property `P`.
* `Codec.ReadsBack.decodeText`, `Codec.Yields.of_decodeText`: both for whole texts.
-/

open Json (Tree Ending Key)

variable {α β σ : Type}

/-- What is converted after it was read was read. -/
theorem exists_of_map_eq_ok {ε : Type} {x : Except ε α} {f : α → β} {b : β}
    (h : x.map f = .ok b) : ∃ a, x = .ok a ∧ f a = b := by
  cases x with
  | error e => cases h
  | ok a => exact ⟨a, rfl, Except.ok.inj h⟩

/-- A result that is there is no error. -/
theorem eq_ok_of_toOption {ε : Type} {x : Except ε α} {a : α} (h : x.toOption = some a) :
    x = .ok a := by
  cases x with
  | error e => cases h
  | ok b => exact congrArg _ (Option.some.inj h)

/-- What is written for a value is read as that value in either way, and nests at most this
    deep. -/
structure Codec.ReadsBack (c : Codec α) (k : Nat) (a : α) : Prop where
  depth_le : (c.encode a).depth ≤ k
  decode : ∀ reading, c.decode reading (.ofJson (c.encode a)) = .ok a

/-! ### Scalars -/

namespace Codec

variable {k : Nat}

theorem readsBack_string (s : String) : string.ReadsBack k s :=
  ⟨Nat.zero_le k, fun _ => rfl⟩

theorem readsBack_bool (b : Bool) : bool.ReadsBack k b :=
  ⟨Nat.zero_le k, fun _ => rfl⟩

/-- Counts are read back if they are words; a larger one would not be written as it is. -/
theorem readsBack_count {n : Nat} (h : n < UInt64.size) : count.ReadsBack k n := by
  obtain ⟨hrange, hencode⟩ : ∃ hrange, count.encode n = .number (.int n hrange) :=
    ⟨_, dif_pos h⟩
  refine ⟨by rw [hencode]; exact Nat.zero_le k, fun _ => ?_⟩
  rw [hencode]
  show (natural "usize" (.number (some (.int n hrange)))).map Subtype.val = .ok n
  simp [natural, Except.map]

/-- A machine word is never too large to be read. -/
theorem readsBack_word (n : UInt64) : word.ReadsBack k n := by
  refine ⟨Nat.zero_le k, fun _ => ?_⟩
  have hnatural : natural "u64" (.ofJson (word.encode n)) = .ok ⟨n.toNat, n.toNat_lt⟩ := by
    simp [word, Json.ofWord, Tree.ofJson, natural]
  simp only [word] at hnatural ⊢
  rw [hnatural]
  rfl

/-- A free value is read back if its objects are sorted, as those that are read are. -/
theorem readsBack_value {v : Json} (hv : v.IsCanonical) (hk : v.depth ≤ k) :
    value.ReadsBack k v := by
  refine ⟨hk, fun _ => ?_⟩
  simp only [value, Tree.toJson?_ofJson hv]

/-- A conversion that is undone on reading changes nothing. -/
theorem ReadsBack.convert {c : Codec α} {forth : β → α} {back : α → β} {b : β}
    (h : c.ReadsBack k (forth b)) (hback : back (forth b) = b) :
    (c.convert forth back).ReadsBack k b := by
  refine ⟨h.depth_le, fun reading => ?_⟩
  show (c.decode reading (.ofJson (c.encode (forth b)))).map back = .ok b
  rw [h.decode, Except.map, hback]

/-- A name stands for the first value of which it is an accepted name. -/
theorem readsBack_names {values : List α} {name : α → String} {accepted : α → List String}
    {v : α} (h : values.find? (fun w => (accepted w).contains (name v)) = some v) :
    (names values name accepted).ReadsBack k v := by
  refine ⟨Nat.zero_le k, fun reading => ?_⟩
  have hname : ofName values accepted (name v) = .ok v := by rw [ofName, h]
  cases reading <;> simp only [names, Tree.ofJson, mention, hname, decodeUnit, if_true]

/-! ### Options and lists -/

/-- A value can be told from an absent one if it is not written as `null`. -/
theorem readsBack_optional {c : Codec α} {a : Option α}
    (h : ∀ x ∈ a, c.ReadsBack k x ∧ c.encode x ≠ .null) : c.optional.ReadsBack k a := by
  cases a with
  | none => exact ⟨Nat.zero_le k, fun _ => rfl⟩
  | some x =>
    obtain ⟨hx, hnull⟩ := h x rfl
    refine ⟨hx.depth_le, fun reading => ?_⟩
    have hdecode := hx.decode reading
    simp only [optional]
    split
    next heq =>
      -- Only `null` has the tree of `null`.
      exfalso
      generalize c.encode x = v at hnull heq
      cases v with
      | null => exact hnull rfl
      | bool | number | string | array | object => cases heq
    · rw [hdecode]
      rfl

/-- A list is read back if its items are, and nests one deeper. -/
theorem readsBack_list {c : Codec α} {as : List α} (h : ∀ a ∈ as, c.ReadsBack k a) :
    c.list.ReadsBack (k + 1) as := by
  constructor
  · refine Nat.succ_le_succ (Json.itemsDepth_le_iff.mpr fun v hv => ?_)
    obtain ⟨a, ha, rfl⟩ := List.mem_map.mp hv
    exact (h a ha).depth_le
  · intro reading
    -- The items are read one by one, in the order in which they were written.
    have hitems : decodeItems c reading (Tree.ofItems (as.map c.encode)) = .ok as := by
      induction as with
      | nil => rfl
      | cons a as ih =>
        obtain ⟨ha, has⟩ := List.forall_mem_cons.mp h
        rw [List.map_cons, Tree.ofItems, decodeItems, ha.decode, ih has]
        rfl
    simp [list, Tree.ofJson, hitems]

/-! ### Maps -/

/-- A new key goes behind the others. -/
theorem putEntry_of_notMem {κ : Type} [DecidableEq κ] {key : κ} {entries : List (κ × α)}
    (h : key ∉ entries.map Prod.fst) (a : α) :
    putEntry key a entries = entries ++ [(key, a)] := by
  induction entries with
  | nil => rfl
  | cons e entries ih =>
    rw [List.map_cons, List.mem_cons, not_or] at h
    rw [putEntry, if_neg (Ne.symm h.1), ih h.2]
    rfl

/-- A map is read back, in its order, if no key is in it twice and its keys can be told from
    their texts. -/
theorem readsBack_dictionary {κ : Type} [DecidableEq κ] {toKey : κ → String} {ofKey : String → κ}
    {c : Codec α} {entries : List (κ × α)} (hkeys : ∀ key, ofKey (toKey key) = key)
    (hnodup : (entries.map Prod.fst).Nodup) (h : ∀ e ∈ entries, c.ReadsBack k e.2) :
    (dictionary toKey ofKey c).ReadsBack (k + 1) entries := by
  constructor
  · refine Nat.succ_le_succ (Json.membersDepth_le_iff.mpr fun m hm => ?_)
    obtain ⟨e, he, rfl⟩ := List.mem_map.mp hm
    exact (h e he).depth_le
  · intro reading
    -- The entries that were read already have other keys.
    have hentries : ∀ before : List (κ × α), (∀ e ∈ entries, e.1 ∉ before.map Prod.fst) →
        decodeEntries ofKey c reading
            (Tree.ofMembers (entries.map fun e => (toKey e.1, c.encode e.2))) before
          = .ok (before ++ entries) := by
      induction entries with
      | nil => exact fun before _ => by rw [List.append_nil]; rfl
      | cons e entries ih =>
        intro before hbefore
        rw [List.forall_mem_cons] at h hbefore
        rw [List.map_cons, List.nodup_cons] at hnodup
        -- The key just read is one of those read already from here on, and does not come again.
        have hlater : ∀ d ∈ entries, d.1 ∉ (before ++ [e]).map Prod.fst := by
          intro d hd hmem
          rw [List.map_append, List.mem_append] at hmem
          rcases hmem with hmem | hmem
          · exact hbefore.2 d hd hmem
          · have heq : d.1 = e.1 := by simpa using hmem
            exact hnodup.1 (heq ▸ List.mem_map_of_mem hd)
        rw [List.map_cons, Tree.ofMembers, decodeEntries, h.1.decode, hkeys]
        simp only [putEntry_of_notMem hbefore.1 e.2]
        rw [ih hnodup.2 h.2 _ hlater, List.append_assoc]
        rfl
    simp [dictionary, Tree.ofJson, hentries [] (by simp)]

end Codec

/-! ### Records -/

/-- No field goes by a name of another. -/
def DistinctNames (fields : List (Field σ)) : Prop :=
  fields.Pairwise fun f g => f.isNamed g.name = false ∧ g.isNamed f.name = false

instance (fields : List (Field σ)) : Decidable (DistinctNames fields) :=
  inferInstanceAs (Decidable (fields.Pairwise _))

/-- A field goes by its own name, whatever its other names are. -/
theorem Field.isNamed_name (f : Field σ) : f.isNamed f.name = true := by
  simp [Field.isNamed]

/-- A field is found under its own name. -/
theorem DistinctNames.find?_name {fields : List (Field σ)} (h : DistinctNames fields)
    {f : Field σ} (hf : f ∈ fields) : fields.find? (Field.isNamed · f.name) = some f := by
  induction fields with
  | nil => exact absurd hf List.not_mem_nil
  | cons g fields ih =>
    obtain ⟨hg, hfields⟩ := List.pairwise_cons.mp h
    rcases List.mem_cons.mp hf with rfl | hf
    · rw [List.find?_cons, f.isNamed_name]
    · rw [List.find?_cons, (hg f hf).1]
      exact ih hfields hf

/-- Reading the fields that are written for the record `r` leads from one state of the record
    to another.  A field that is not written must not be required. -/
inductive Record.Restores (k : Nat) (r : σ) : List (Field σ) → σ → σ → Prop
  | nil (s : σ) : Restores k r [] s s
  | written {f : Field σ} {fields : List (Field σ)} {s s' : σ} {v : Json} {update : σ → σ}
      (hwritten : f.encode r = some v) (hdepth : v.depth ≤ k)
      (hdecode : ∀ reading, f.decode reading (.ofJson v) = .ok update)
      (hrest : Restores k r fields (update s) s') : Restores k r (f :: fields) s s'
  | hidden {f : Field σ} {fields : List (Field σ)} {s s' : σ}
      (hhidden : f.encode r = none) (hpresence : f.presence ≠ .required)
      (hrest : Restores k r fields s s') : Restores k r (f :: fields) s s'

namespace Record

/-- The members that are written for some of the fields. -/
def membersOf (r : σ) (fields : List (Field σ)) : List (String × Json) :=
  fields.filterMap fun f => (f.encode r).map fun v => (f.name, v)

namespace Restores

variable {k : Nat} {r s s' : σ} {f : Field σ} {fields : List (Field σ)}

/-- A field that is always written comes back with what was written. -/
theorem field {c : Codec α} {name : String} {get : σ → α} {set : α → σ → σ}
    (h : c.ReadsBack k (get r)) (hrest : Restores k r fields (set (get r) s) s') :
    Restores k r (c.field name get set :: fields) s s' := by
  refine .written rfl h.depth_le (fun reading => ?_) hrest
  show (c.decode reading _).map set = _
  rw [h.decode]
  rfl

/-- It does not matter to what is written that a field may be left out. -/
theorem orDefault (h : Restores k r (f :: fields) s s') :
    Restores k r (f.orDefault :: fields) s s' := by
  cases h with
  | written hwritten hdepth hdecode hrest => exact .written hwritten hdepth hdecode hrest
  | hidden hhidden _ hrest => exact .hidden hhidden (by simp [Field.orDefault]) hrest

/-- It does not matter to what is written that the absence of a field means an absent value. -/
theorem orAbsent (h : Restores k r (f :: fields) s s') :
    Restores k r (f.orAbsent :: fields) s s' := by
  cases h with
  | written hwritten hdepth hdecode hrest => exact .written hwritten hdepth hdecode hrest
  | hidden hhidden _ hrest => exact .hidden hhidden (by simp [Field.orAbsent]) hrest

/-- It does not matter to what is written that a field goes by another name too. -/
theorem orNamed (name : String) (h : Restores k r (f :: fields) s s') :
    Restores k r (f.orNamed name :: fields) s s' := by
  cases h with
  | written hwritten hdepth hdecode hrest => exact .written hwritten hdepth hdecode hrest
  | hidden hhidden hpresence hrest => exact .hidden hhidden hpresence hrest

/-- A field need not be written as `null` where `null` is what it starts with. -/
theorem hidingNull (hpresence : f.presence ≠ .required)
    (hnull : ∀ update, f.decode .direct .null = .ok update → update s = s)
    (h : Restores k r (f :: fields) s s') : Restores k r (f.hidingNull :: fields) s s' := by
  cases h with
  | hidden hhidden _ hrest =>
    exact .hidden (by simp [Field.hidingNull, hhidden]) hpresence hrest
  | @written _ _ _ _ v update hwritten hdepth hdecode hrest =>
    by_cases hv : v = .null
    · -- The member is left out; reading it would have changed nothing.
      subst hv
      rw [hnull update (hdecode .direct)] at hrest
      exact .hidden (by simp [Field.hidingNull, hwritten]) hpresence hrest
    · refine .written ?_ hdepth hdecode hrest
      simp only [Field.hidingNull, hwritten]
      split
      next heq => exact absurd (Option.some.inj heq) hv
      · rfl

/-- What is written for the fields nests no deeper than each of them. -/
theorem membersDepth_le (h : Restores k r fields s s') :
    Json.membersDepth (membersOf r fields) ≤ k := by
  induction h with
  | nil => exact Nat.zero_le k
  | written hwritten hdepth _ _ ih =>
    rw [membersOf, List.filterMap_cons, hwritten]
    exact Nat.max_le.mpr ⟨hdepth, ih⟩
  | hidden hhidden _ _ ih =>
    rw [membersOf, List.filterMap_cons, hhidden]
    exact ih

/-- The fields that are written are read in their order, and every required one is among
    them. -/
theorem decodeMembers (h : Restores k r fields s s') (all : List (Field σ)) (reading : Reading)
    (seen : List String) (hnames : DistinctNames fields)
    (hfind : ∀ f ∈ fields, all.find? (Field.isNamed · f.name) = some f)
    (hseen : ∀ f ∈ fields, f.name ∉ seen) :
    ∃ seen', Record.decodeMembers all reading (Tree.ofMembers (membersOf r fields)) seen s
        = .ok (seen', s') ∧
      (∀ n ∈ seen, n ∈ seen') ∧ ∀ f ∈ fields, f.presence = .required → f.name ∈ seen' := by
  induction h generalizing seen with
  | nil s => exact ⟨seen, rfl, fun _ hn => hn, by simp⟩
  | @written f fields s s' v update hwritten _ hdecode _ ih =>
    obtain ⟨hf, hfields⟩ := List.pairwise_cons.mp hnames
    obtain ⟨hfindf, hfindfields⟩ := List.forall_mem_cons.mp hfind
    obtain ⟨hseenf, hseenfields⟩ := List.forall_mem_cons.mp hseen
    -- The fields behind this one go by other names, so none of them has been seen yet.
    have hfresh : ∀ g ∈ fields, g.name ∉ f.name :: seen := by
      intro g hg hmem
      rcases List.mem_cons.mp hmem with heq | hmem
      · have hdistinct := (hf g hg).1
        rw [heq, f.isNamed_name] at hdistinct
        exact absurd hdistinct (by simp)
      · exact hseenfields g hg hmem
    obtain ⟨seen', hread, hkept, hrequired⟩ := ih _ hfields hfindfields hfresh
    refine ⟨seen', ?_, fun n hn => hkept n (List.mem_cons_of_mem _ hn),
      List.forall_mem_cons.mpr ⟨fun _ => hkept _ List.mem_cons_self, hrequired⟩⟩
    rw [membersOf, List.filterMap_cons, hwritten]
    simp only [Option.map_some, Tree.ofMembers, Record.decodeMembers, hfindf, if_neg hseenf,
      hdecode]
    exact hread
  -- A field that is not written is not seen either, which only a required one must be.
  | @hidden f fields s s' hhidden hpresence _ ih =>
    obtain ⟨-, hfields⟩ := List.pairwise_cons.mp hnames
    obtain ⟨seen', hread, hkept, hrequired⟩ := ih seen hfields
      (List.forall_mem_cons.mp hfind).2 (List.forall_mem_cons.mp hseen).2
    refine ⟨seen', ?_, hkept, List.forall_mem_cons.mpr ⟨fun h => absurd h hpresence, hrequired⟩⟩
    rw [membersOf, List.filterMap_cons, hhidden]
    exact hread

end Restores

/-- A record is read back if its fields lead from the blank record to it. -/
theorem decode_ofMembers {d : Record σ} {k : Nat} {r : σ} (hnames : DistinctNames d.fields)
    (h : Restores k r d.fields d.blank r) (reading : Reading) :
    d.decode reading (.object (Tree.ofMembers (d.encodeMembers r)) .closed) = .ok r := by
  obtain ⟨seen, hread, -, hrequired⟩ := h.decodeMembers d.fields reading []
    hnames (fun f hf => hnames.find?_name hf) (by simp)
  -- All required fields were written, so none is found missing.
  have hmissing : firstMissing d.fields seen = none := by
    rw [firstMissing, List.find?_eq_none]
    intro f hf
    have hseen := hrequired f hf
    simpa using hseen
  rw [membersOf] at hread
  simp only [decode, decodeObject, encodeMembers, hread, hmissing, reduceCtorEq, if_false,
    ne_eq, not_true_eq_false]

/-- A record is read back if its fields restore it; it nests one deeper than they. -/
theorem readsBack {d : Record σ} {k : Nat} {r : σ} (hnames : DistinctNames d.fields)
    (h : Restores k r d.fields d.blank r) : d.codec.ReadsBack (k + 1) r :=
  ⟨Nat.succ_le_succ h.membersDepth_le, decode_ofMembers hnames h⟩

end Record

/-! ### A tag among the fields -/

namespace Codec

variable {k : Nat}

/-- What was written is readable, and is set aside as it is. -/
theorem setAside_ofJson (reading : Reading) (v : Json) :
    setAside reading (.ofJson v) = .ok (.ofJson v) := by
  rw [setAside, Tree.isReadable_ofJson]
  simp

/-- Members of other names are left where they are. -/
theorem takeMember_ofMembers {key : String} {decode : Reading → Tree → Except DecodeError β}
    (reading : Reading) (b : β) {members : List (String × Json)} (h : ∀ m ∈ members, m.1 ≠ key) :
    takeMember key decode reading (Tree.ofMembers members) (some b)
      = .ok (some b, Tree.ofMembers members) := by
  induction members with
  | nil => rfl
  | cons m members ih =>
    obtain ⟨hm, hmembers⟩ := List.forall_mem_cons.mp h
    rw [Tree.ofMembers, takeMember, if_neg hm, setAside_ofJson, ih hmembers]
    rfl

/-- A union with its tag among the fields is read back if the alternative is, which sees what is
    left without the tag. -/
theorem readsBack_internallyTagged {label tag : String} {alternatives : List (Alternative σ)}
    {parts : σ → String × List (String × Json)} {v : σ} {a : Alternative σ}
    (hname : Alternative.ofName alternatives (parts v).1 = .ok a)
    (hkeys : ∀ m ∈ (parts v).2, m.1 ≠ tag) (hdepth : Json.membersDepth (parts v).2 ≤ k)
    (hdecode : a.decode .buffered (some (.object (Tree.ofMembers (parts v).2) .closed)) = .ok v) :
    (internallyTagged label tag alternatives parts).ReadsBack (k + 1) v := by
  refine ⟨Nat.succ_le_succ (Nat.max_le.mpr ⟨Nat.zero_le k, hdepth⟩), fun reading => ?_⟩
  -- The tag is written first and found at once, in either way of reading.
  have htag : decodeTag alternatives reading (.string (some (parts v).1)) = .ok a := by
    cases reading <;> exact hname
  simp only [internallyTagged, Tree.ofJson, Tree.ofMembers, splitTag, reduceCtorEq, if_false,
    takeMember, if_true, Option.isSome_none, Bool.false_eq_true, htag,
    takeMember_ofMembers reading a hkeys, ne_eq, not_true_eq_false]
  exact hdecode

/-- A union of records is read back if the record of the alternative is. -/
theorem readsBack_recordAlternative {label tag : String} {alternatives : List (Alternative σ)}
    {parts : σ → String × List (String × Json)} {v : σ} {d : Record α} {name : String} {a : α}
    {make : α → σ} (hparts : parts v = (name, d.encodeMembers a))
    (hname : Alternative.ofName alternatives name = .ok (recordAlternative d name make))
    (hmake : make a = v) (hnames : DistinctNames d.fields) (htag : ∀ f ∈ d.fields, f.name ≠ tag)
    (h : Record.Restores k a d.fields d.blank a) :
    (internallyTagged label tag alternatives parts).ReadsBack (k + 1) v := by
  refine readsBack_internallyTagged (a := recordAlternative d name make) ?_ ?_ ?_ ?_
  · rw [hparts]
    exact hname
  · rw [hparts]
    intro m hm
    obtain ⟨f, hf, hwritten⟩ := List.mem_filterMap.mp hm
    obtain ⟨w, -, rfl⟩ := Option.map_eq_some_iff.mp hwritten
    exact htag f hf
  · rw [hparts]
    exact h.membersDepth_le
  · rw [hparts]
    show (d.decode .buffered _).map make = .ok v
    rw [Record.decode_ofMembers hnames h, Except.map, hmake]

end Codec

/-! ### What is read -/

/-- Whatever is read from a tree of this depth has the property. -/
def Codec.Yields (c : Codec α) (k : Nat) (P : α → Prop) : Prop :=
  ∀ reading t a, t.depth ≤ k → c.decode reading t = .ok a → P a

/-- Whatever is read for the field from a tree of this depth keeps the property of the record. -/
def Field.Keeps (f : Field σ) (k : Nat) (P : σ → Prop) : Prop :=
  ∀ reading t update r, t.depth ≤ k → f.decode reading t = .ok update → P r → P (update r)

/-- Free values are canonical, and nest no deeper than the tree. -/
theorem Codec.yields_value (k : Nat) :
    Codec.value.Yields k fun v => v.IsCanonical ∧ v.depth ≤ k := by
  intro reading t v hk h
  simp only [Codec.value] at h
  split at h
  next w hw =>
    obtain rfl := Except.ok.inj h
    obtain ⟨hcanonical, hdepth⟩ := t.canonical_of_toJson? hw
    exact ⟨hcanonical, hdepth.trans hk⟩
  · cases h

/-- What holds of the items that are read holds of all items of a list. -/
theorem Codec.Yields.list {c : Codec α} {k : Nat} {P : α → Prop} (h : c.Yields k P) :
    c.list.Yields (k + 1) fun as => ∀ a ∈ as, P a := by
  have hitems : ∀ {reading items as}, Tree.itemsDepth items ≤ k →
      decodeItems c reading items = .ok as → ∀ a ∈ as, P a := by
    intro reading items
    induction items with
    | nil =>
      intro as _ has
      obtain rfl := Except.ok.inj has
      simp
    | cons t items ih =>
      intro as hk has
      rw [Tree.itemsDepth, Nat.max_le] at hk
      rw [decodeItems] at has
      split at has
      · cases has
      next a ha =>
        obtain ⟨rest, hrest, rfl⟩ := exists_of_map_eq_ok has
        exact List.forall_mem_cons.mpr ⟨h reading t a hk.1 ha, ih hk.2 hrest⟩
  intro reading t as hk has
  simp only [Codec.list] at has
  -- The list is read from an array that is closed, and its items one level down.
  split at has
  next items ending =>
    split at has
    · cases has
    · split at has
      · cases has
      next bs hbs =>
        split at has
        next hclosed =>
          obtain rfl := Except.ok.inj has
          subst hclosed
          exact hitems (Nat.le_of_succ_le_succ hk) hbs
        · cases has
  · cases has

/-- A field keeps a property that what is read for it cannot break. -/
theorem Codec.Yields.field {c : Codec α} {k : Nat} {P : α → Prop} {Q : σ → Prop}
    (h : c.Yields k P) {name : String} {get : σ → α} {set : α → σ → σ}
    (hset : ∀ a r, P a → Q r → Q (set a r)) : (c.field name get set).Keeps k Q := by
  intro reading t update r hk hupdate hr
  obtain ⟨a, hdecode, rfl⟩ := exists_of_map_eq_ok hupdate
  exact hset a r (h reading t a hk hdecode) hr

/-- A field that has no say in the property. -/
theorem Field.keeps_of_set {c : Codec α} {k : Nat} {Q : σ → Prop} {name : String} {get : σ → α}
    {set : α → σ → σ} (hset : ∀ a r, Q r → Q (set a r)) : (c.field name get set).Keeps k Q :=
  Codec.Yields.field (P := fun _ => True) (fun _ _ _ _ _ => trivial) fun a r _ => hset a r

theorem Field.Keeps.orDefault {f : Field σ} {k : Nat} {P : σ → Prop} (h : f.Keeps k P) :
    f.orDefault.Keeps k P := h

namespace Record

section Yields

variable {k : Nat} {P : σ → Prop}

/-- The members of an object keep the property one by one. -/
theorem keeps_decodeMembers {fields : List (Field σ)} (hfields : ∀ f ∈ fields, f.Keeps k P)
    {reading : Reading} {members : List (Key × Tree)} (hk : Tree.membersDepth members ≤ k)
    {seen seen' : List String} {r r' : σ}
    (h : decodeMembers fields reading members seen r = .ok (seen', r')) (hr : P r) : P r' := by
  induction members generalizing seen r with
  | nil =>
    obtain ⟨-, rfl⟩ := Prod.mk.inj (Except.ok.inj h)
    exact hr
  | cons m members ih =>
    obtain ⟨key, t⟩ := m
    rw [Tree.membersDepth, Nat.max_le] at hk
    cases key with
    | unreadable => cases h
    | text key =>
      rw [decodeMembers] at h
      split at h
      next f hf =>
        -- A member of no field is skipped, if it is readable.
        split at h
        · cases h
        · split at h
          · cases h
          next update hupdate =>
            have hmem := List.mem_of_find?_eq_some hf
            exact ih hk.2 h (hfields f hmem reading t update r hk.1 hupdate hr)
      · split at h
        · cases h
        · exact ih hk.2 h hr

/-- The items of an array keep it too, each for the field at its position. -/
theorem keeps_decodeItems {expected : String} {reading : Reading} {ending : Ending}
    {fields : List (Field σ)} (hfields : ∀ f ∈ fields, f.Keeps k P) {index : Nat}
    {items : List Tree} (hk : Tree.itemsDepth items ≤ k) {r r' : σ}
    (h : decodeItems expected reading ending fields index items r = .ok r') (hr : P r) :
    P r' := by
  induction fields generalizing index items r with
  | nil =>
    rw [decodeItems] at h
    obtain rfl := Except.ok.inj h
    exact hr
  | cons f fields ih =>
    obtain ⟨hf, hfields⟩ := List.forall_mem_cons.mp hfields
    cases items with
    | nil =>
      rw [decodeItems] at h
      split at h
      · cases h
      · split at h
        · exact ih hfields hk h hr
        · cases h
    | cons t items =>
      rw [Tree.itemsDepth, Nat.max_le] at hk
      rw [decodeItems] at h
      split at h
      · cases h
      next update hupdate => exact ih hfields hk.2 h (hf reading t update r hk.1 hupdate hr)

/-- A property of the blank record that all fields keep holds of every record that is read. -/
theorem yields {d : Record σ} (hblank : P d.blank) (hfields : ∀ f ∈ d.fields, f.Keeps k P) :
    d.codec.Yields (k + 1) P := by
  intro reading t r hk h
  simp only [codec, decode] at h
  split at h
  -- A record is read from an object, by the names of its members,
  next members ending =>
    rw [decodeObject] at h
    split at h
    · cases h
    · split at h
      · cases h
      next seen r' hr' =>
        split at h
        · cases h
        next hclosed =>
          split at h
          · cases h
          · obtain rfl := Except.ok.inj h
            obtain rfl := Decidable.not_not.mp hclosed
            exact keeps_decodeMembers hfields (Nat.le_of_succ_le_succ hk) hr' hblank
  -- or from an array, by the positions of its items.
  next items ending =>
    rw [decodeArray] at h
    split at h
    · cases h
    · split at h
      · cases h
      next r' hr' =>
        -- An array that is not closed does not pass this check.
        have hchecked : ending = .closed ∧ r' = r := by
          unfold afterItems at h
          split at h
          · split at h
            next hclosed => exact ⟨hclosed, Except.ok.inj h⟩
            · cases h
          · split at h <;> cases h
        obtain ⟨rfl, rfl⟩ := hchecked
        exact keeps_decodeItems hfields (Nat.le_of_succ_le_succ hk) hr' hblank
  · cases h

end Yields

end Record

/-! ### A tag beside the content -/

namespace Codec

/-- Whatever is read as the alternative from a content of this depth has the property. -/
def Alternative.Yields (a : Alternative σ) (k : Nat) (P : σ → Prop) : Prop :=
  ∀ reading payload v, (∀ t ∈ payload, t.depth ≤ k) → a.decode reading payload = .ok v → P v

variable {k : Nat} {P : σ → Prop} {alternatives : List (Alternative σ)}

/-- An alternative with a configuration has the property if the configuration makes it so. -/
theorem Yields.alternative {c : Codec α} {Q : α → Prop} (h : c.Yields k Q) {name : String}
    {absent : DecodeError} {make : α → σ} (hmake : ∀ a, Q a → P (make a)) :
    (alternative c name absent make).Yields k P := by
  intro reading payload v hk hv
  cases payload with
  | none => cases hv
  | some t =>
    obtain ⟨a, hdecode, rfl⟩ := exists_of_map_eq_ok hv
    exact hmake a (h reading t a (hk t rfl) hdecode)

/-- What is set aside is the tree itself. -/
theorem setAside_eq {reading : Reading} {t t' : Tree} (h : setAside reading t = .ok t') :
    t' = t := by
  rw [setAside] at h
  split at h
  · cases h
  · exact (Except.ok.inj h).symm

/-- What is set aside is part of the object. -/
theorem membersDepth_takeMember {key : String} {decode : Reading → Tree → Except DecodeError β}
    {reading : Reading} {members rest : List (Key × Tree)} {found found' : Option β}
    (h : takeMember key decode reading members found = .ok (found', rest)) :
    Tree.membersDepth rest ≤ Tree.membersDepth members := by
  induction members generalizing found found' rest with
  | nil =>
    obtain ⟨-, rfl⟩ := Prod.mk.inj (Except.ok.inj h)
    exact le_rfl
  | cons m members ih =>
    obtain ⟨key, t⟩ := m
    cases key with
    | unreadable => cases h
    | text name =>
      rw [takeMember] at h
      rw [Tree.membersDepth]
      split at h
      · split at h
        · cases h
        · split at h
          · cases h
          · exact (ih h).trans (Nat.le_max_right _ _)
      · split at h
        · cases h
        next u hu =>
          obtain rfl := setAside_eq hu
          obtain ⟨⟨found₁, rest'⟩, htake, heq⟩ := exists_of_map_eq_ok h
          obtain ⟨-, rfl⟩ := Prod.mk.inj heq
          exact max_le_max le_rfl (ih htake)

/-- A name stands for a value that accepts it. -/
theorem mem_of_ofName {values : List α} {accepted : α → List String} {name : String} {v : α}
    (h : ofName values accepted name = .ok v) : v ∈ values ∧ name ∈ accepted v := by
  rw [ofName] at h
  split at h
  next w hw =>
    obtain rfl := Except.ok.inj h
    exact ⟨List.mem_of_find?_eq_some hw, by simpa using List.find?_some hw⟩
  · cases h

/-- What is read as a value mentions it by a name, with nothing behind it. -/
theorem decode_names_iff {values : List α} {name : α → String} {accepted : α → List String}
    {reading : Reading} {t : Tree} {v : α} :
    (names values name accepted).decode reading t = .ok v ↔
      ∃ m, mention reading t = .ok m ∧ ofName values accepted m.name = .ok v ∧
        decodeUnit reading m.payload = .ok () ∧ m.closes = true := by
  simp only [names]
  cases hmention : mention reading t with
  | error e => simp
  | ok m =>
    simp only [Except.ok.injEq, exists_eq_left']
    cases hname : ofName values accepted m.name with
    | error e => simp
    | ok w => cases hunit : decodeUnit reading m.payload <;> cases m.closes <;> simp

/-- A name is read as one of the values. -/
theorem mem_of_decode_names {values : List α} {name : α → String} {accepted : α → List String}
    {reading : Reading} {t : Tree} {v : α}
    (h : (names values name accepted).decode reading t = .ok v) : v ∈ values := by
  obtain ⟨m, -, hname, -⟩ := decode_names_iff.mp h
  exact (mem_of_ofName hname).1

namespace Adjacent

/-- What is known between two members: the tag is one of the alternatives, a content that is set
    aside nests no deeper than allowed, and what was read has the property. -/
def Within (alternatives : List (Alternative σ)) (k : Nat) (P : σ → Prop) : Adjacent σ → Prop
  | .start => True
  | .tagged a => a ∈ alternatives
  | .held content => content.depth ≤ k
  | .done v => P v

section

variable (halternatives : ∀ a ∈ alternatives, a.Yields k P)

include halternatives

/-- What an alternative reads from a content of this depth has the property. -/
theorem within_decode {a : Alternative σ} (ha : a ∈ alternatives) {reading : Reading} {t : Tree}
    (hk : t.depth ≤ k) {s : Adjacent σ} (h : (a.decode reading (some t)).map .done = .ok s) :
    s.Within alternatives k P := by
  obtain ⟨v, hdecode, rfl⟩ := exists_of_map_eq_ok h
  refine halternatives a ha reading (some t) v (fun u hu => ?_) hdecode
  obtain rfl := Option.some.inj hu
  exact hk

/-- A tag keeps what is known: it names an alternative, which reads the content if that came
    first. -/
theorem within_takeTag {tag : String} {reading : Reading} {t : Tree} {s s' : Adjacent σ}
    (hs : s.Within alternatives k P) (h : s.takeTag tag alternatives reading t = .ok s') :
    s'.Within alternatives k P := by
  cases s with
  | start =>
    obtain ⟨a, hname, rfl⟩ := exists_of_map_eq_ok h
    exact mem_of_decode_names hname
  | held content =>
    simp only [takeTag] at h
    split at h
    · cases h
    next a ha => exact within_decode halternatives (mem_of_decode_names ha) hs h
  | tagged | done => cases h

/-- A content keeps what is known: it is set aside, or read if its tag came first. -/
theorem within_takeContent {content : String} {reading : Reading} {t : Tree} (hk : t.depth ≤ k)
    {s s' : Adjacent σ} (hs : s.Within alternatives k P)
    (h : s.takeContent content reading t = .ok s') : s'.Within alternatives k P := by
  cases s with
  | start =>
    obtain ⟨u, haside, rfl⟩ := exists_of_map_eq_ok h
    exact setAside_eq haside ▸ hk
  | tagged a => exact within_decode halternatives hs hk h
  | held | done => cases h

/-- All members keep what is known, the others by not counting. -/
theorem within_takeMembers {tag content : String} {reading : Reading}
    {members : List (Key × Tree)} (hk : Tree.membersDepth members ≤ k) {s s' : Adjacent σ}
    (hs : s.Within alternatives k P)
    (h : takeMembers tag content alternatives reading members s = .ok s') :
    s'.Within alternatives k P := by
  induction members generalizing s with
  | nil =>
    obtain rfl := Except.ok.inj h
    exact hs
  | cons m members ih =>
    obtain ⟨key, t⟩ := m
    rw [Tree.membersDepth, Nat.max_le] at hk
    cases key with
    | unreadable => cases h
    | text key =>
      rw [takeMembers] at h
      split at h
      · split at h
        · cases h
        next u hu => exact ih hk.2 (within_takeTag halternatives hs hu) h
      · split at h
        · split at h
          · cases h
          next u hu => exact ih hk.2 (within_takeContent halternatives hk.1 hs hu) h
        · split at h
          · cases h
          · exact ih hk.2 hs h

/-- What is read from the members of an object with its tag beside the content has the property. -/
theorem yields_decodeMembers {tag content : String} {reading : Reading}
    {members : List (Key × Tree)} {ending : Ending} (hk : Tree.membersDepth members ≤ k) {v : σ}
    (h : decodeMembers tag content alternatives reading members ending = .ok v) : P v := by
  rw [decodeMembers] at h
  split at h
  · cases h
  next s hs =>
    have hwithin := within_takeMembers halternatives (s := .start) hk trivial hs
    split at h
    · -- At the end the content was read, or there was a tag alone.
      cases s with
      | start | held => cases h
      | tagged a => exact halternatives a hwithin .buffered none v (by simp) h
      | done w =>
        obtain rfl := Except.ok.inj h
        exact hwithin
    · cases h

end

/-- The tag first and then the content, as they are written. -/
theorem decodeMembers_pair {tag content : String} (hne : content ≠ tag) {reading : Reading}
    {name t : Tree} {a : Alternative σ} {v : σ}
    (hname : (names alternatives Alternative.name fun a => [a.name]).decode reading name = .ok a)
    (hcontent : a.decode reading (some t) = .ok v) :
    decodeMembers tag content alternatives reading [(.text tag, name), (.text content, t)]
      .closed = .ok v := by
  simp only [decodeMembers, takeMembers, if_true, takeTag, hname, Except.map, if_neg hne,
    takeContent, hcontent, finish]

end Adjacent

/-! ### Unions under a key, or with the tag beside the content -/

/-- A tag and a name are the same when they are read. -/
theorem decode_alternativeNames {alternatives : List (Alternative σ)} {name : String}
    {a : Alternative σ} (h : Alternative.ofName alternatives name = .ok a) (reading : Reading) :
    (names alternatives Alternative.name fun a => [a.name]).decode reading (.string (some name))
      = .ok a := by
  rw [Alternative.ofName] at h
  cases reading <;> simp only [names, mention, h, decodeUnit, if_true]

/-- An alternative is read back if its configuration is. -/
theorem ReadsBack.alternative {c : Codec α} {a : α} (h : c.ReadsBack k a) {name : String}
    {absent : DecodeError} {make : α → σ} (reading : Reading) :
    (Codec.alternative c name absent make).decode reading (some (.ofJson (c.encode a)))
      = .ok (make a) := by
  show (c.decode reading (.ofJson (c.encode a))).map make = _
  rw [h.decode, Except.map]

/-- A union under a key is read back: the only member of the object names the alternative. -/
theorem readsBack_untagged {alternatives : List (Alternative σ)} {parts : σ → String × Json}
    {v : σ} {a : Alternative σ} (hname : Alternative.ofName alternatives (parts v).1 = .ok a)
    (hdepth : (parts v).2.depth ≤ k)
    (hdecode : ∀ reading, a.decode reading (some (.ofJson (parts v).2)) = .ok v) :
    (untagged alternatives parts).ReadsBack (k + 1) v := by
  refine ⟨Nat.succ_le_succ (Nat.max_le.mpr ⟨hdepth, Nat.zero_le k⟩), fun reading => ?_⟩
  have hmention : mention reading (.ofJson (.object [parts v]))
      = .ok ⟨(parts v).1, some (.ofJson (parts v).2), true⟩ := by
    cases reading <;> rfl
  simp only [untagged, hmention, hname, hdecode, if_true]

/-- A union with its tag beside the content is read back; the tag is written first. -/
theorem readsBack_adjacentlyTagged {label tag content : String} (hne : content ≠ tag)
    {alternatives : List (Alternative σ)} {parts : σ → String × Json} {v : σ} {a : Alternative σ}
    (hname : Alternative.ofName alternatives (parts v).1 = .ok a)
    (hdepth : (parts v).2.depth ≤ k)
    (hdecode : ∀ reading, a.decode reading (some (.ofJson (parts v).2)) = .ok v) :
    (adjacentlyTagged label tag content alternatives parts).ReadsBack (k + 1) v := by
  refine ⟨Nat.succ_le_succ (Nat.max_le.mpr ⟨Nat.zero_le k, Nat.max_le.mpr
    ⟨hdepth, Nat.zero_le k⟩⟩), fun reading => ?_⟩
  exact Adjacent.decodeMembers_pair hne (decode_alternativeNames hname reading) (hdecode reading)

/-! ### Whole texts -/

/-- A text is read if its tree is and nothing follows it. -/
theorem decodeText_eq_ok_iff {c : Codec α} {text : String} {a : α} :
    c.decodeText text = .ok a ↔
      c.decode .direct (Json.parse text.toList).1 = .ok a ∧ (Json.parse text.toList).2 = true := by
  simp only [decodeText]
  cases c.decode .direct (Json.parse text.toList).1 <;>
    cases (Json.parse text.toList).2 <;> simp

/-- A text that is parsed as what is written for a value is read as that value. -/
theorem ReadsBack.decodeText_of_parse {c : Codec α} {k : Nat} {a : α} (h : c.ReadsBack k a)
    {text : String} (hparse : Json.parse text.toList = (.ofJson (c.encode a), true)) :
    c.decodeText text = .ok a := by
  rw [decodeText_eq_ok_iff, hparse]
  exact ⟨h.decode .direct, rfl⟩

/-- The text of a value that reads back and does not nest too deep is read as that value. -/
theorem ReadsBack.decodeText {c : Codec α} {a : α} (h : c.ReadsBack Json.maxDepth a) :
    c.decodeText (c.encode a).pretty = .ok a := by
  apply h.decodeText_of_parse
  rw [Json.pretty, String.toList_ofList]
  exact Json.parse_pretty (c.encode a) h.depth_le

/-- So is its text without white space. -/
theorem ReadsBack.decodeText_encodeText {c : Codec α} {a : α} (h : c.ReadsBack Json.maxDepth a) :
    c.decodeText (c.encodeText a) = .ok a := by
  apply h.decodeText_of_parse
  rw [encodeText, Json.compact, String.toList_ofList]
  exact Json.parse_compact (c.encode a) h.depth_le

/-- A property of all that is read from trees of the allowed depth holds of all that is read from
    texts. -/
theorem Yields.of_decodeText {c : Codec α} {Q : α → Prop} (h : c.Yields Json.maxDepth Q)
    {text : String} {a : α} (ha : c.decodeText text = .ok a) : Q a := by
  exact h .direct _ a (Json.depth_parse_le text.toList) (decodeText_eq_ok_iff.mp ha).1

end Codec

end QueryGraph
