import QueryGraph.Proofs.Codec.Members

namespace QueryGraph

/-!
# Unions by their keys

What is read of an object with a tag depends only on the values under a few keys, and on whether
all other members can be set aside.

* `Codec.takeMember_none_iff`: a member that is taken is the only one of its key.
* `Codec.Adjacent.Completes`, `Codec.Adjacent.decodeMembers_iff`: what a tag and its content, in
  either order, are read as.
-/

open Json (Tree Ending Key)

namespace Codec

variable {β σ : Type} {reading : Reading} {key : String} {t : Tree}
  {members rest : List (Key × Tree)}

/-! ### Taking one member -/

/-- What is set aside is the tree itself, which must be readable if it comes straight from the
    text. -/
theorem setAside_eq_ok_iff {t' : Tree} :
    setAside reading t = .ok t' ↔ t = t' ∧ (reading = .direct → t.isReadable = true) := by
  rw [setAside]
  split
  next h => simp [h.1, h.2]
  next h =>
    rw [not_and, Bool.not_eq_false] at h
    simpa using fun _ => h

/-- The members of other keys. -/
def others (key : String) (members : List (Key × Tree)) : List (Key × Tree) :=
  members.filter fun m => m.1 ≠ .text key

theorem others_cons_self : others key ((.text key, t) :: members) = others key members := by
  simp [others]

theorem others_cons_of_ne {name : String} (h : name ≠ key) :
    others key ((.text name, t) :: members) = (.text name, t) :: others key members := by
  simp [others, h]

theorem others_insert {before after : List (Key × Tree)} {k : Key} (h : k ≠ .text key) :
    others key (before ++ (k, t) :: after) = others key before ++ (k, t) :: others key after := by
  simp [others, h]

/-- Under another key stand the same values with or without the members of this one. -/
theorem valuesUnder_others {key' : String} (h : key' ≠ key) :
    Tree.valuesUnder key' (others key members) = Tree.valuesUnder key' members := by
  induction members with
  | nil => rfl
  | cons m members ih =>
    obtain ⟨k, t⟩ := m
    cases k with
    | unreadable => simpa [others, Tree.valuesUnder] using ih
    | text name =>
      by_cases hname : name = key
      · subst hname
        rw [others_cons_self, ih, Tree.valuesUnder_cons_of_ne (Ne.symm h)]
      · rw [others_cons_of_ne hname]
        by_cases hname' : name = key'
        · subst hname'
          rw [Tree.valuesUnder_cons_self, Tree.valuesUnder_cons_self, ih]
        · rw [Tree.valuesUnder_cons_of_ne hname', Tree.valuesUnder_cons_of_ne hname', ih]

section TakeMember

variable {decode : Reading → Tree → Except DecodeError β} {found found' : Option β} {name : String}

/-- A member of the key is taken, if none was taken before. -/
theorem takeMember_cons_self :
    takeMember key decode reading ((.text key, t) :: members) found = .ok (found', rest) ↔
      found = none ∧ ∃ b, decode reading t = .ok b ∧
        takeMember key decode reading members (some b) = .ok (found', rest) := by
  rw [takeMember, if_pos rfl]
  cases found <;> cases decode reading t <;> simp

/-- A member of another key is set aside and left where it is. -/
theorem takeMember_cons_of_ne (hne : name ≠ key) :
    takeMember key decode reading ((.text name, t) :: members) found = .ok (found', rest) ↔
      (reading = .direct → t.isReadable = true) ∧ ∃ rest', rest = (.text name, t) :: rest' ∧
        takeMember key decode reading members found = .ok (found', rest') := by
  rw [takeMember, if_neg hne]
  by_cases hreadable : reading = .direct → t.isReadable = true
  · rw [setAside_eq_ok_iff.mpr ⟨rfl, hreadable⟩]
    cases takeMember key decode reading members found with
    | error e => simp [Except.map]
    | ok r =>
      simp only [Except.map, Except.ok.injEq, Prod.mk.injEq]
      constructor
      · rintro ⟨rfl, rfl⟩
        exact ⟨hreadable, r.2, rfl, rfl⟩
      · rintro ⟨-, rest', rfl, rfl⟩
        exact ⟨rfl, rfl⟩
  · cases haside : setAside reading t with
    | error e => simp [hreadable]
    | ok t' => exact absurd (setAside_eq_ok_iff.mp haside).2 hreadable

/-- Once a member was taken, none of its key may follow, and all others are set aside. -/
theorem takeMember_some_iff {b : β} :
    takeMember key decode reading members (some b) = .ok (found, rest) ↔
      Admits reading (fun name => name = key) Tree.isReadable members ∧
        Tree.valuesUnder key members = [] ∧ some b = found ∧ others key members = rest := by
  induction members generalizing rest with
  | nil => simp [takeMember, admits_nil, others, Tree.valuesUnder]
  | cons m members ih =>
    obtain ⟨k, t⟩ := m
    cases k with
    | unreadable => simp [takeMember, not_admits_cons_unreadable]
    | text name =>
      by_cases hname : name = key
      · subst hname
        simp [takeMember_cons_self, Tree.valuesUnder_cons_self]
      · simp only [takeMember_cons_of_ne hname, ih, admits_cons_iff,
          Tree.valuesUnder_cons_of_ne hname, others_cons_of_ne hname, decide_eq_false hname]
        constructor
        · rintro ⟨hreadable, _, rfl, hadmits, hvalues, hfound, rfl⟩
          exact ⟨⟨fun _ => hreadable, hadmits⟩, hvalues, hfound, rfl⟩
        · rintro ⟨⟨hreadable, hadmits⟩, hvalues, hfound, rfl⟩
          exact ⟨hreadable trivial, _, rfl, hadmits, hvalues, hfound, rfl⟩

/-- **A member that is taken** is the only one of its key, and all others can be set aside. -/
theorem takeMember_none_iff {b : β} :
    takeMember key decode reading members none = .ok (some b, rest) ↔
      Admits reading (fun name => name = key) Tree.isReadable members ∧
        (∃ t, Tree.valuesUnder key members = [t] ∧ decode reading t = .ok b) ∧
          others key members = rest := by
  induction members generalizing rest with
  | nil => simp [takeMember, Tree.valuesUnder]
  | cons m members ih =>
    obtain ⟨k, t⟩ := m
    cases k with
    | unreadable => simp [takeMember, not_admits_cons_unreadable]
    | text name =>
      -- Either this is the member that is taken, or it comes later.
      by_cases hname : name = key
      · subst hname
        simp only [takeMember_cons_self, takeMember_some_iff, admits_cons_iff,
          Tree.valuesUnder_cons_self, others_cons_self]
        constructor
        · rintro ⟨-, b', hdecode, hadmits, hvalues, hb, hrest⟩
          obtain rfl := Option.some.inj hb
          exact ⟨⟨fun h => absurd h (by simp), hadmits⟩, ⟨t, by rw [hvalues], hdecode⟩, hrest⟩
        · rintro ⟨⟨-, hadmits⟩, ⟨t', hvalues, hdecode⟩, hrest⟩
          obtain ⟨rfl, hnone⟩ := List.cons.inj hvalues
          exact ⟨trivial, b, hdecode, hadmits, hnone, rfl, hrest⟩
      · simp only [takeMember_cons_of_ne hname, ih, admits_cons_iff,
          Tree.valuesUnder_cons_of_ne hname, others_cons_of_ne hname, decide_eq_false hname]
        constructor
        · rintro ⟨hreadable, _, rfl, hadmits, hvalue, rfl⟩
          exact ⟨⟨fun _ => hreadable, hadmits⟩, hvalue, rfl⟩
        · rintro ⟨⟨hreadable, hadmits⟩, hvalue, rfl⟩
          exact ⟨hreadable trivial, _, rfl, hadmits, hvalue, rfl⟩

end TakeMember

/-! ### A tag among the fields -/

section SplitTag

variable {label : String} {alternatives : List (Alternative σ)} {ending : Ending}
  {a : Alternative σ} {u : Tree}

/-- Only scalars are read as tags. -/
theorem isScalar_of_decodeTag (h : decodeTag alternatives reading t = .ok a) : t.IsScalar := by
  cases t with
  | null | bool | number | string => trivial
  | array | object | malformed => cases reading <;> cases h

/-- What a tag is read as is one of the alternatives. -/
theorem mem_of_decodeTag (h : decodeTag alternatives reading t = .ok a) : a ∈ alternatives := by
  unfold decodeTag at h
  split at h
  · exact (mem_of_ofName h).1
  · split at h
    · rw [atIndex] at h
      split at h
      next b hb =>
        obtain rfl := Except.ok.inj h
        exact List.mem_of_getElem? hb
      · cases h
    · cases h
  · cases h

/-- An object is split into the one value under the tag and the members of other keys. -/
theorem splitTag_object_iff :
    splitTag label key alternatives reading (.object members ending) = .ok (a, u) ↔
      ending = .closed ∧ Admits reading (fun name => name = key) Tree.isReadable members ∧
        (∃ t, Tree.valuesUnder key members = [t] ∧ decodeTag alternatives reading t = .ok a) ∧
          u = .object (others key members) .closed := by
  simp only [splitTag]
  constructor
  · intro h
    split at h
    · cases h
    · split at h
      · cases h
      next found rest htake =>
        split at h
        · cases h
        next hclosed =>
          split at h
          · cases h
          next b =>
            obtain ⟨rfl, rfl⟩ := Prod.mk.inj (Except.ok.inj h)
            obtain ⟨hadmits, hvalue, rfl⟩ := takeMember_none_iff.mp htake
            exact ⟨Decidable.not_not.mp hclosed, hadmits, hvalue, rfl⟩
  · rintro ⟨rfl, hadmits, hvalue, rfl⟩
    have htake := takeMember_none_iff.mpr ⟨hadmits, hvalue, rfl⟩
    simp [htake]

/-- Items can be set aside if each of them can. -/
theorem setAsideAll_eq_ok_iff {items : List Tree} :
    setAsideAll reading items = .ok () ↔
      (reading = .direct → ∀ t ∈ items, t.isReadable = true) := by
  induction items with
  | nil => simp [setAsideAll]
  | cons t items ih =>
    rw [setAsideAll, List.forall_mem_cons, imp_and, ← ih]
    cases haside : setAside reading t with
    | error e =>
      simp only [reduceCtorEq, false_iff, not_and]
      intro hreadable
      cases haside.symm.trans (setAside_eq_ok_iff.mpr ⟨rfl, hreadable⟩)
    | ok t' => simpa using fun _ => (setAside_eq_ok_iff.mp haside).2

/-- An array is split into its first item and the others. -/
theorem splitTag_array_iff {items : List Tree} :
    splitTag label key alternatives reading (.array items ending) = .ok (a, u) ↔
      ending = .closed ∧ ∃ first rest, items = first :: rest ∧
        decodeTag alternatives reading first = .ok a ∧
          (reading = .direct → ∀ t ∈ rest, t.isReadable = true) ∧ u = .array rest .closed := by
  cases items with
  | nil => cases ending <;> simp [splitTag]
  | cons first rest =>
    -- The tag is read before the other items are set aside.
    have hsplit : splitTag label key alternatives reading (.array (first :: rest) ending)
        = .ok (a, u) ↔ ending = .closed ∧ decodeTag alternatives reading first = .ok a ∧
          setAsideAll reading rest = .ok () ∧ u = .array rest .closed := by
      cases ending with
      | tooDeep => simp [splitTag]
      | closed | broken =>
        simp only [splitTag]
        cases decodeTag alternatives reading first <;> cases setAsideAll reading rest <;>
          simp [eq_comm]
    rw [hsplit, setAsideAll_eq_ok_iff]
    simp

end SplitTag

/-! ### A tag beside the content -/

/-- What is read and then converted is what is read, with the conversion in the property. -/
theorem exists_map_eq_ok_and {ε : Type} {x : Except ε β} {f : β → σ} {P : σ → Prop} :
    (∃ s, x.map f = .ok s ∧ P s) ↔ ∃ b, x = .ok b ∧ P (f b) := by
  cases x <;> simp [Except.map]

namespace Adjacent

variable {alternatives : List (Alternative σ)} {tag content : String} {names contents : List Tree}
  {s : Adjacent σ} {v : σ}

/-- What the values under the two keys that are still to come have to be for the whole to be read
    as a value. -/
def Completes (alternatives : List (Alternative σ)) (names contents : List Tree) (v : σ) :
    Adjacent σ → Prop
  | .start => ∃ name a payload, names = [name] ∧ contents = Option.toList payload ∧
      (Codec.names alternatives Alternative.name fun a => [a.name]).decode .buffered name = .ok a ∧
        a.decode .buffered payload = .ok v
  | .tagged a => ∃ payload, names = [] ∧ contents = Option.toList payload ∧
      a.decode .buffered payload = .ok v
  | .held c => ∃ name a, names = [name] ∧ contents = [] ∧
      (Codec.names alternatives Alternative.name fun a => [a.name]).decode .buffered name = .ok a ∧
        a.decode .buffered (some c) = .ok v
  | .done w => names = [] ∧ contents = [] ∧ w = v

/-- To take a tag uses up the first value under its key, from whatever state. -/
theorem takeTag_completes (tag : String) :
    (∃ s', s.takeTag tag alternatives .buffered t = .ok s' ∧
      s'.Completes alternatives names contents v) ↔
      s.Completes alternatives (t :: names) contents v := by
  cases s with
  | start =>
    simp only [takeTag, exists_map_eq_ok_and, Completes]
    constructor
    · rintro ⟨a, hname, payload, rfl, hcontents, hdecode⟩
      exact ⟨t, a, payload, rfl, hcontents, hname, hdecode⟩
    · rintro ⟨name, a, payload, hnames, hcontents, hname, hdecode⟩
      obtain ⟨rfl, rfl⟩ := List.cons.inj hnames
      exact ⟨a, hname, payload, rfl, hcontents, hdecode⟩
  | held c =>
    simp only [takeTag, Completes]
    -- The content came first, and is read as soon as its tag is known.
    cases hname :
        (Codec.names alternatives Alternative.name fun a => [a.name]).decode .buffered t with
    | error e =>
      simp only [reduceCtorEq, false_and, exists_false, false_iff]
      rintro ⟨name, a, hnames, -, hname', -⟩
      obtain ⟨rfl, -⟩ := List.cons.inj hnames
      cases hname.symm.trans hname'
    | ok a =>
      simp only [exists_map_eq_ok_and]
      constructor
      · rintro ⟨w, hdecode, rfl, rfl, rfl⟩
        exact ⟨t, a, rfl, rfl, hname, hdecode⟩
      · rintro ⟨name, a', hnames, rfl, hname', hdecode⟩
        obtain ⟨rfl, rfl⟩ := List.cons.inj hnames
        obtain rfl := Except.ok.inj (hname.symm.trans hname')
        exact ⟨v, hdecode, rfl, rfl, rfl⟩
  | tagged a => simp [takeTag, Completes]
  | done w => simp [takeTag, Completes]

/-- To take a content uses up the first value under its key, from whatever state. -/
theorem takeContent_completes (content : String) :
    (∃ s', s.takeContent content .buffered t = .ok s' ∧
      s'.Completes alternatives names contents v) ↔
      s.Completes alternatives names (t :: contents) v := by
  -- There is one content at most, so it is the payload.
  have hpayload : ∀ payload : Option Tree,
      t :: contents = payload.toList ↔ payload = some t ∧ contents = [] := by
    intro payload
    cases payload <;> simp [eq_comm]
  cases s with
  | start =>
    simp only [takeContent, exists_map_eq_ok_and, Completes, setAside_eq_ok_iff, hpayload]
    constructor
    · rintro ⟨c, ⟨rfl, -⟩, name, a, hnames, hcontents, hname, hdecode⟩
      exact ⟨name, a, some t, hnames, ⟨rfl, hcontents⟩, hname, hdecode⟩
    · rintro ⟨name, a, _, hnames, ⟨rfl, hcontents⟩, hname, hdecode⟩
      exact ⟨t, ⟨rfl, by simp⟩, name, a, hnames, hcontents, hname, hdecode⟩
  | tagged a =>
    simp only [takeContent, exists_map_eq_ok_and, Completes, hpayload]
    constructor
    · rintro ⟨w, hdecode, hnames, hcontents, rfl⟩
      exact ⟨some t, hnames, ⟨rfl, hcontents⟩, hdecode⟩
    · rintro ⟨_, hnames, ⟨rfl, hcontents⟩, hdecode⟩
      exact ⟨v, hdecode, hnames, hcontents, rfl⟩
  | held c => simp [takeContent, Completes]
  | done w => simp [takeContent, Completes]

/-- At the end nothing is still to come. -/
theorem finish_completes : s.finish tag = .ok v ↔ s.Completes alternatives [] [] v := by
  cases s <;> simp [finish, Completes]

/-- A member under the key of the tag is one step. -/
theorem exists_takeMembers_cons_tag {P : Adjacent σ → Prop} :
    (∃ s', takeMembers tag content alternatives reading ((.text tag, t) :: members) s = .ok s' ∧
      P s') ↔
      ∃ s₁, s.takeTag tag alternatives reading t = .ok s₁ ∧
        ∃ s', takeMembers tag content alternatives reading members s₁ = .ok s' ∧ P s' := by
  rw [takeMembers, if_pos rfl]
  cases s.takeTag tag alternatives reading t <;> simp

/-- A member under the key of the content, which is another key, is one step. -/
theorem exists_takeMembers_cons_content (hne : content ≠ tag) {P : Adjacent σ → Prop} :
    (∃ s', takeMembers tag content alternatives reading ((.text content, t) :: members) s
        = .ok s' ∧ P s') ↔
      ∃ s₁, s.takeContent content reading t = .ok s₁ ∧
        ∃ s', takeMembers tag content alternatives reading members s₁ = .ok s' ∧ P s' := by
  rw [takeMembers, if_neg hne, if_pos rfl]
  cases s.takeContent content reading t <;> simp

/-- Step by step, the values under the two keys are used up. -/
theorem takeMembers_completes (hne : content ≠ tag) :
    (∃ s', takeMembers tag content alternatives .buffered members s = .ok s' ∧
      s'.finish tag = .ok v) ↔
      (∀ m ∈ members, m.1 ≠ .unreadable) ∧
        s.Completes alternatives (Tree.valuesUnder tag members) (Tree.valuesUnder content members)
          v := by
  induction members generalizing s with
  | nil =>
    have hfinish : s.finish tag = .ok v ↔ s.Completes alternatives [] [] v := finish_completes
    simp [takeMembers, Tree.valuesUnder, hfinish]
  | cons m members ih =>
    obtain ⟨key, t⟩ := m
    cases key with
    | unreadable => simp [takeMembers]
    | text name =>
      have hkeys : (∀ m ∈ (Key.text name, t) :: members, m.1 ≠ .unreadable) ↔
          ∀ m ∈ members, m.1 ≠ .unreadable := by simp
      rw [hkeys]
      -- Under one of the two keys, the member is a step; under any other it is skipped.
      by_cases htag : name = tag
      · subst htag
        rw [exists_takeMembers_cons_tag, Tree.valuesUnder_cons_self,
          Tree.valuesUnder_cons_of_ne hne.symm, ← takeTag_completes name]
        simp only [ih, @and_left_comm _ (∀ m ∈ members, m.1 ≠ .unreadable), exists_and_left]
      by_cases hcontent : name = content
      · subst hcontent
        rw [exists_takeMembers_cons_content hne, Tree.valuesUnder_cons_self,
          Tree.valuesUnder_cons_of_ne htag, ← takeContent_completes name]
        simp only [ih, @and_left_comm _ (∀ m ∈ members, m.1 ≠ .unreadable), exists_and_left]
      · rw [takeMembers, if_neg htag, if_neg hcontent, if_neg (by simp),
          Tree.valuesUnder_cons_of_ne htag, Tree.valuesUnder_cons_of_ne hcontent, ih]

/-- **What a tag and its content are read as**, in either order and among any other members. -/
theorem decodeMembers_iff (hne : content ≠ tag) :
    decodeMembers tag content alternatives .buffered members .closed = .ok v ↔
      (∀ m ∈ members, m.1 ≠ .unreadable) ∧
        Adjacent.start.Completes alternatives (Tree.valuesUnder tag members)
          (Tree.valuesUnder content members) v := by
  rw [← takeMembers_completes hne, decodeMembers]
  split <;> simp_all

section Completes

variable {names' contents' vs ws : List Tree} {t' : Tree}

/-- There is one value at most under either key, so their order does not matter. -/
theorem Completes.perm (h : Adjacent.start.Completes alternatives names contents v)
    (hnames : names.Perm names') (hcontents : contents.Perm contents') :
    Adjacent.start.Completes alternatives names' contents' v := by
  obtain ⟨name, a, payload, rfl, rfl, hname, hdecode⟩ := h
  refine ⟨name, a, payload, (List.singleton_perm.mp hnames).symm, ?_, hname, hdecode⟩
  cases payload with
  | none => exact hcontents.nil_eq.symm
  | some c => exact (List.singleton_perm.mp hcontents).symm

/-- The tag may be replaced by one that is read alike. -/
theorem Completes.replace_name
    (h : Adjacent.start.Completes alternatives (vs ++ t :: ws) contents v)
    (hname : ∀ ⦃a⦄,
      (Codec.names alternatives Alternative.name fun a => [a.name]).decode .buffered t = .ok a →
      (Codec.names alternatives Alternative.name fun a => [a.name]).decode .buffered t' = .ok a) :
    Adjacent.start.Completes alternatives (vs ++ t' :: ws) contents v := by
  obtain ⟨name, a, payload, hnames, rfl, hread, hdecode⟩ := h
  obtain ⟨rfl, rfl, rfl⟩ : vs = [] ∧ t = name ∧ ws = [] := by
    simpa [List.append_eq_singleton_iff] using hnames
  exact ⟨t', a, payload, rfl, rfl, hname hread, hdecode⟩

/-- The content may be replaced by one that the alternative of the tag reads alike. -/
theorem Completes.replace_content
    (h : Adjacent.start.Completes alternatives names (vs ++ t :: ws) v)
    (hcontent : ∀ name a, names = [name] →
      (Codec.names alternatives Alternative.name fun a => [a.name]).decode .buffered name = .ok a →
      ∀ ⦃v⦄, a.decode .buffered (some t) = .ok v → a.decode .buffered (some t') = .ok v) :
    Adjacent.start.Completes alternatives names (vs ++ t' :: ws) v := by
  obtain ⟨name, a, payload, hnames, hpayload, hread, hdecode⟩ := h
  cases payload with
  | none => simp at hpayload
  | some c =>
    obtain ⟨rfl, rfl, rfl⟩ : vs = [] ∧ t = c ∧ ws = [] := by
      simpa [List.append_eq_singleton_iff] using hpayload
    exact ⟨name, a, some t', hnames, rfl, hread, hcontent name a hnames hread hdecode⟩

end Completes

end Adjacent

end Codec

end QueryGraph
