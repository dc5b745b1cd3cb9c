import QueryGraph.Proofs.Json.Parsing

namespace QueryGraph.Json

/-!
# Values in canonical form

* `SortedByKey`: members whose keys increase, and `sortMembers_eq`: sorting leaves them alone.
* `IsCanonical v`: the members of all objects in a value are sorted by key.
* `Tree.canonical_of_toJson?`: values that are read are canonical, and nest no deeper than the
  tree.
* `Tree.toJson?_ofJson`: the tree of a canonical value is read as that value.
-/

/-! ### Sorted members -/

/-- Names that are neither equal nor in this order are in the other. -/
theorem lt_of_ne_of_not_lt {a b : String} (hne : a ≠ b) (h : ¬a < b) : b < a :=
  Decidable.byContradiction fun hle =>
    hne (String.le_antisymm (String.not_lt.mp hle) (String.not_lt.mp h))

/-- The keys increase, so no key occurs twice. -/
def SortedByKey (members : List (String × Json)) : Prop :=
  members.Pairwise fun a b => a.1 < b.1

/-- Inserting a member adds no other one. -/
theorem mem_insertMember {k : String} {v : Json} {sorted : List (String × Json)}
    {m : String × Json} (h : m ∈ insertMember k v sorted) : m = (k, v) ∨ m ∈ sorted := by
  induction sorted with
  | nil => exact .inl (List.mem_singleton.mp h)
  | cons a sorted ih =>
    rw [insertMember] at h
    split at h
    · rcases List.mem_cons.mp h with h | h
      · exact .inl h
      · exact .inr (List.mem_cons_of_mem a h)
    · split at h
      · exact List.mem_cons.mp h
      · rcases List.mem_cons.mp h with rfl | h
        · exact .inr List.mem_cons_self
        · exact (ih h).imp_right (List.mem_cons_of_mem a)

/-- Inserting a member keeps the keys increasing. -/
theorem SortedByKey.insertMember {sorted : List (String × Json)} (h : SortedByKey sorted)
    (k : String) (v : Json) : SortedByKey (insertMember k v sorted) := by
  induction sorted with
  | nil => exact List.pairwise_singleton _ _
  | cons a sorted ih =>
    obtain ⟨ha, hsorted⟩ := List.pairwise_cons.mp h
    rw [Json.insertMember]
    -- The key is the first one, below it, or above it.
    by_cases heq : k = a.1
    · rw [if_pos heq]
      exact List.pairwise_cons.mpr ⟨fun m hm => heq ▸ ha m hm, hsorted⟩
    rw [if_neg heq]
    by_cases hlt : k < a.1
    · rw [if_pos hlt]
      refine List.pairwise_cons.mpr ⟨fun m hm => ?_, h⟩
      rcases List.mem_cons.mp hm with rfl | hm
      · exact hlt
      · exact String.lt_trans hlt (ha m hm)
    · rw [if_neg hlt]
      have hgt : a.1 < k := lt_of_ne_of_not_lt heq hlt
      refine List.pairwise_cons.mpr ⟨fun m hm => ?_, ih hsorted⟩
      rcases mem_insertMember hm with rfl | hm
      · exact hgt
      · exact ha m hm

/-- The members that sorting collects are those it was given. -/
theorem mem_foldl_insertMember {members sorted : List (String × Json)} {m : String × Json}
    (h : m ∈ members.foldl (fun sorted m => insertMember m.1 m.2 sorted) sorted) :
    m ∈ members ∨ m ∈ sorted := by
  induction members generalizing sorted with
  | nil => exact .inr h
  | cons a members ih =>
    rcases ih h with h | h
    · exact .inl (List.mem_cons_of_mem a h)
    · rcases mem_insertMember h with rfl | h
      · exact .inl List.mem_cons_self
      · exact .inr h

theorem mem_sortMembers {members : List (String × Json)} {m : String × Json}
    (h : m ∈ sortMembers members) : m ∈ members :=
  (mem_foldl_insertMember h).resolve_right (List.not_mem_nil)

/-- Sorting puts the keys in increasing order. -/
theorem sortedByKey_sortMembers (members : List (String × Json)) :
    SortedByKey (sortMembers members) := by
  have hfold : ∀ {sorted : List (String × Json)}, SortedByKey sorted →
      SortedByKey (members.foldl (fun sorted m => insertMember m.1 m.2 sorted) sorted) := by
    induction members with
    | nil => exact fun h => h
    | cons m members ih => exact fun h => ih (h.insertMember m.1 m.2)
  exact hfold List.Pairwise.nil

/-- A member whose key is above all others is put last. -/
theorem insertMember_last {sorted : List (String × Json)} {k : String} (v : Json)
    (h : ∀ m ∈ sorted, m.1 < k) : insertMember k v sorted = sorted ++ [(k, v)] := by
  induction sorted with
  | nil => rfl
  | cons a sorted ih =>
    obtain ⟨ha, hsorted⟩ := List.forall_mem_cons.mp h
    have hne : k ≠ a.1 := by
      rintro rfl
      exact String.lt_irrefl _ ha
    rw [insertMember, if_neg hne, if_neg (String.lt_asymm ha), ih hsorted]
    rfl

/-- Sorting changes nothing about members that are sorted. -/
theorem sortMembers_eq {members : List (String × Json)} (h : SortedByKey members) :
    sortMembers members = members := by
  -- The members passed so far are all below the next, so each is put last.
  have hfold : ∀ {sorted : List (String × Json)}, SortedByKey (sorted ++ members) →
      members.foldl (fun sorted m => insertMember m.1 m.2 sorted) sorted = sorted ++ members := by
    clear h
    induction members with
    | nil =>
      intro sorted _
      rw [List.foldl_nil, List.append_nil]
    | cons m members ih =>
      intro sorted hall
      have hbelow : ∀ a ∈ sorted, a.1 < m.1 := fun a ha =>
        (List.pairwise_append.mp hall).2.2 a ha m List.mem_cons_self
      rw [List.foldl_cons, insertMember_last m.2 hbelow,
        ih (by rwa [List.append_assoc]), List.append_assoc]
      rfl
  exact hfold h

/-! ### Canonical values -/

/-- The members of all objects in a value are sorted by key. -/
inductive IsCanonical : Json → Prop
  | null : IsCanonical .null
  | bool (b : Bool) : IsCanonical (.bool b)
  | number (n : Number) : IsCanonical (.number n)
  | string (s : String) : IsCanonical (.string s)
  | array {items : List Json} (h : ∀ v ∈ items, IsCanonical v) : IsCanonical (.array items)
  | object {members : List (String × Json)} (hsorted : SortedByKey members)
      (h : ∀ m ∈ members, IsCanonical m.2) : IsCanonical (.object members)

namespace Tree

mutual

/-- Values that are read are canonical, and nest no deeper than the tree. -/
theorem canonical_of_toJson? (t : Tree) {v : Json} (h : t.toJson? = some v) :
    v.IsCanonical ∧ v.depth ≤ t.depth := by
  cases t with
  | null =>
    obtain rfl := Option.some.inj h
    exact ⟨.null, Nat.zero_le _⟩
  | bool b =>
    obtain rfl := Option.some.inj h
    exact ⟨.bool b, Nat.zero_le _⟩
  | number n =>
    obtain ⟨n, -, rfl⟩ := Option.map_eq_some_iff.mp h
    exact ⟨.number n, Nat.zero_le _⟩
  | string s =>
    obtain ⟨s, -, rfl⟩ := Option.map_eq_some_iff.mp h
    exact ⟨.string s, Nat.zero_le _⟩
  | malformed => exact nomatch h
  | array items ending =>
    rw [toJson?] at h
    split at h
    · subst_vars
      obtain ⟨vs, hvs, rfl⟩ := Option.map_eq_some_iff.mp h
      obtain ⟨hcanonical, hdepth⟩ := canonical_of_toItems? items hvs
      exact ⟨.array hcanonical, Nat.succ_le_succ hdepth⟩
    · exact nomatch h
  | object members ending =>
    rw [toJson?] at h
    split at h
    · subst_vars
      obtain ⟨ms, hms, rfl⟩ := Option.map_eq_some_iff.mp h
      obtain ⟨hcanonical, hdepth⟩ := canonical_of_toMembers? members hms
      -- Sorting adds no members, so it does not add depth either.
      have hsorted : Json.membersDepth (sortMembers ms) ≤ membersDepth members :=
        Json.membersDepth_le_iff.mpr fun m hm =>
          Json.membersDepth_le_iff.mp hdepth m (mem_sortMembers hm)
      exact ⟨.object (sortedByKey_sortMembers ms)
        fun m hm => hcanonical m (mem_sortMembers hm), Nat.succ_le_succ hsorted⟩
    · exact nomatch h

/-- The items of a list that is read are canonical, each within the depth of the list. -/
theorem canonical_of_toItems? (items : List Tree) {vs : List Json}
    (h : toItems? items = some vs) :
    (∀ v ∈ vs, v.IsCanonical) ∧ Json.itemsDepth vs ≤ itemsDepth items := by
  cases items with
  | nil =>
    obtain rfl := Option.some.inj h
    exact ⟨by simp, le_rfl⟩
  | cons t items =>
    rw [toItems?] at h
    split at h
    next v rest hv hrest =>
      obtain rfl := Option.some.inj h
      obtain ⟨hcanonical, hdepth⟩ := canonical_of_toJson? t hv
      obtain ⟨hcanonicals, hdepths⟩ := canonical_of_toItems? items hrest
      exact ⟨List.forall_mem_cons.mpr ⟨hcanonical, hcanonicals⟩, max_le_max hdepth hdepths⟩
    · exact nomatch h

/-- The values of members that are read are canonical, each within the depth of the members. -/
theorem canonical_of_toMembers? (members : List (Key × Tree)) {ms : List (String × Json)}
    (h : toMembers? members = some ms) :
    (∀ m ∈ ms, m.2.IsCanonical) ∧ Json.membersDepth ms ≤ membersDepth members := by
  cases members with
  | nil =>
    obtain rfl := Option.some.inj h
    exact ⟨by simp, le_rfl⟩
  | cons m members =>
    obtain ⟨key, t⟩ := m
    simp only [toMembers?] at h
    split at h
    next k v rest hv hrest =>
      obtain rfl := Option.some.inj h
      obtain ⟨hcanonical, hdepth⟩ := canonical_of_toJson? t hv
      obtain ⟨hcanonicals, hdepths⟩ := canonical_of_toMembers? members hrest
      exact ⟨List.forall_mem_cons.mpr ⟨hcanonical, hcanonicals⟩, max_le_max hdepth hdepths⟩
    · exact nomatch h

end

mutual

/-- The tree of a canonical value is read as that value. -/
theorem toJson?_ofJson {v : Json} (h : v.IsCanonical) : (ofJson v).toJson? = some v := by
  cases v with
  | null | bool | number | string => rfl
  | array items =>
    cases h with
    | array hitems =>
      rw [ofJson, toJson?, if_pos rfl, toItems?_ofItems hitems]
      rfl
  | object members =>
    cases h with
    | object hsorted hmembers =>
      -- The members come back in order, so sorting them changes nothing.
      rw [ofJson, toJson?, if_pos rfl, toMembers?_ofMembers hmembers, Option.map_some,
        sortMembers_eq hsorted]

/-- The items of a canonical array are read back. -/
theorem toItems?_ofItems {items : List Json} (h : ∀ v ∈ items, v.IsCanonical) :
    toItems? (ofItems items) = some items := by
  cases items with
  | nil => rfl
  | cons v items =>
    obtain ⟨hv, hitems⟩ := List.forall_mem_cons.mp h
    rw [ofItems, toItems?, toJson?_ofJson hv, toItems?_ofItems hitems]

/-- The members of a canonical object are read back, still unsorted. -/
theorem toMembers?_ofMembers {members : List (String × Json)}
    (h : ∀ m ∈ members, m.2.IsCanonical) : toMembers? (ofMembers members) = some members := by
  cases members with
  | nil => rfl
  | cons m members =>
    obtain ⟨k, v⟩ := m
    obtain ⟨hv, hmembers⟩ := List.forall_mem_cons.mp h
    simp only [ofMembers, toMembers?, toJson?_ofJson hv, toMembers?_ofMembers hmembers]

end

mutual

/-- The tree of a value can be read, if perhaps as another value. -/
theorem exists_toJson?_ofJson (v : Json) : ∃ w, (ofJson v).toJson? = some w := by
  cases v with
  | null | bool | number | string => exact ⟨_, rfl⟩
  | array items =>
    obtain ⟨vs, hvs⟩ := exists_toItems?_ofItems items
    exact ⟨.array vs, by rw [ofJson, toJson?, if_pos rfl, hvs]; rfl⟩
  | object members =>
    obtain ⟨ms, hms⟩ := exists_toMembers?_ofMembers members
    exact ⟨.object (sortMembers ms), by rw [ofJson, toJson?, if_pos rfl, hms]; rfl⟩

/-- The trees of values are read as a list of values. -/
theorem exists_toItems?_ofItems (items : List Json) :
    ∃ vs, toItems? (ofItems items) = some vs := by
  cases items with
  | nil => exact ⟨[], rfl⟩
  | cons v items =>
    obtain ⟨w, hw⟩ := exists_toJson?_ofJson v
    obtain ⟨ws, hws⟩ := exists_toItems?_ofItems items
    exact ⟨w :: ws, by simp only [ofItems, toItems?, hw, hws]⟩

/-- Members with values are read as members. -/
theorem exists_toMembers?_ofMembers (members : List (String × Json)) :
    ∃ ms, toMembers? (ofMembers members) = some ms := by
  cases members with
  | nil => exact ⟨[], rfl⟩
  | cons m members =>
    obtain ⟨k, v⟩ := m
    obtain ⟨w, hw⟩ := exists_toJson?_ofJson v
    obtain ⟨ws, hws⟩ := exists_toMembers?_ofMembers members
    exact ⟨(k, w) :: ws, by simp only [ofMembers, toMembers?, hw, hws]⟩

end

/-- A value that was written can be set aside. -/
theorem isReadable_ofJson (v : Json) : (ofJson v).isReadable = true := by
  obtain ⟨w, hw⟩ := exists_toJson?_ofJson v
  rw [isReadable, hw]
  rfl

end Tree

end QueryGraph.Json
