import QueryGraph.Proofs.Codec.Tagged
import Mathlib.Logic.Relation

namespace QueryGraph

/-!
# What a spelling does not say

* `Codec.Respects c reading R`: whatever is read from a tree is read from a related tree too.
* `Codec.Respects.list`, `Codec.Respects.field`: lifted to lists and fields.
* `Record.respects_shuffle`, `Codec.respects_shuffle_internallyTagged` and their kin: readers do
  not notice the order of members.
* `Record.Respelling`: the ways in which a record may be spelled, and `Record.respects_respelling`:
  they all mean the same.
-/

open Json (Tree Ending Key Shuffle)

variable {α β σ : Type} {reading : Reading} {R : Tree → Tree → Prop}

/-- Whatever is read from a tree is read from a related tree too. -/
def Codec.Respects (c : Codec α) (reading : Reading) (R : Tree → Tree → Prop) : Prop :=
  ∀ ⦃t t' : Tree⦄ ⦃a : α⦄, R t t' → c.decode reading t = .ok a → c.decode reading t' = .ok a

/-- Whatever is read for the field from a tree is read from a related tree too. -/
def Field.Respects (f : Field σ) (reading : Reading) (R : Tree → Tree → Prop) : Prop :=
  ∀ ⦃t t' : Tree⦄ ⦃update : σ → σ⦄, R t t' → f.decode reading t = .ok update →
    f.decode reading t' = .ok update

/-- Two ways of spelling may be allowed at once. -/
theorem Field.Respects.or {f : Field σ} {R' : Tree → Tree → Prop} (h : f.Respects reading R)
    (h' : f.Respects reading R') : f.Respects reading fun t t' => R t t' ∨ R' t t' :=
  fun _ _ _ hR => hR.elim (h ·) (h' ·)

section Modified

variable {f : Field σ}

theorem Field.Respects.orDefault (h : f.Respects reading R) : f.orDefault.Respects reading R := h

theorem Field.Respects.orNamed (h : f.Respects reading R) (name : String) :
    (f.orNamed name).Respects reading R := h

theorem Field.Respects.hidingNull (h : f.Respects reading R) : f.hidingNull.Respects reading R := h

end Modified

/-- Whatever is read as the content of the alternative is read from a related tree too. -/
def Codec.Alternative.Respects (a : Alternative σ) (R : Tree → Tree → Prop) : Prop :=
  ∀ ⦃t t' : Tree⦄ ⦃v : σ⦄, R t t' → a.decode .buffered (some t) = .ok v →
    a.decode .buffered (some t') = .ok v

/-- One item of an array is replaced by a related one. -/
inductive OneItem (R : Tree → Tree → Prop) : Tree → Tree → Prop
  | intro {before after : List Tree} {t t' : Tree} {ending : Ending} (h : R t t') :
      OneItem R (.array (before ++ t :: after) ending) (.array (before ++ t' :: after) ending)

/-- Whatever can be set aside, so can a related tree. -/
def KeepsReadable (R : Tree → Tree → Prop) : Prop :=
  ∀ ⦃t t' : Tree⦄, R t t' → t.isReadable = true → t'.isReadable = true

/-- A list stays readable if its items do. -/
theorem KeepsReadable.oneItem (h : KeepsReadable R) : KeepsReadable (OneItem R) := by
  rintro _ _ ⟨hR⟩ ht
  rw [Tree.isReadable_array_insert] at ht ⊢
  exact ⟨h hR ht.1, ht.2⟩

namespace Codec

/-- A field respects what its value does. -/
theorem Respects.field {c : Codec α} (h : c.Respects reading R) {name : String} {get : σ → α}
    {set : α → σ → σ} : (c.field name get set).Respects reading R := by
  intro t t' update hR hupdate
  obtain ⟨a, hdecode, rfl⟩ := exists_of_map_eq_ok hupdate
  show (c.decode reading t').map set = _
  rw [h hR hdecode]
  rfl

/-- An alternative respects what its content does. -/
theorem Respects.alternative {c : Codec α} (h : c.Respects .buffered R) {name : String}
    {absent : DecodeError} {make : α → σ} : (alternative c name absent make).Respects R := by
  intro t t' v hR hv
  obtain ⟨a, hdecode, rfl⟩ := exists_of_map_eq_ok hv
  show (c.decode .buffered t').map make = _
  rw [h hR hdecode]
  rfl

/-- One item may be replaced anywhere in a list. -/
theorem decodeItems_of_respects {c : Codec α} (h : c.Respects reading R) {t t' : Tree}
    (hR : R t t') {before after : List Tree} {as : List α}
    (has : decodeItems c reading (before ++ t :: after) = .ok as) :
    decodeItems c reading (before ++ t' :: after) = .ok as := by
  induction before generalizing as with
  | nil =>
    rw [List.nil_append, decodeItems] at has ⊢
    split at has
    · cases has
    next a ha =>
      rw [h hR ha]
      exact has
  | cons u before ih =>
    rw [List.cons_append, decodeItems] at has ⊢
    split at has
    · cases has
    next a ha =>
      obtain ⟨rest, hrest, rfl⟩ := exists_of_map_eq_ok has
      rw [ih hrest]
      rfl

/-- A list respects what its items do, one at a time. -/
theorem Respects.list {c : Codec α} (h : c.Respects reading R) :
    c.list.Respects reading (OneItem R) := by
  rintro _ _ as ⟨hR⟩ has
  simp only [Codec.list] at has ⊢
  split at has
  · cases has
  next hdepth =>
    rw [if_neg hdepth]
    split at has
    · cases has
    next bs hbs =>
      rw [decodeItems_of_respects h hR hbs]
      exact has

/-! ### The order of members -/

/-- Only scalars are read. -/
def TakesScalars (c : Codec α) : Prop :=
  ∀ ⦃reading : Reading⦄ ⦃t : Tree⦄ ⦃a : α⦄, c.decode reading t = .ok a → t.IsScalar

/-- In a scalar there is nothing to be put in another order. -/
theorem TakesScalars.respects_shuffle {c : Codec α} (h : c.TakesScalars) :
    c.Respects reading Shuffle :=
  fun _ _ _ hshuffle hdecode => absurd (h hdecode) hshuffle.not_isScalar

/-- A text is read from a scalar. -/
theorem takesScalars_string : string.TakesScalars := by
  intro reading t a h
  simp only [string] at h
  split at h
  · trivial
  · cases h

/-- A number is read from a scalar. -/
theorem takesScalars_word : word.TakesScalars := by
  intro reading t a h
  obtain ⟨n, hn, -⟩ := exists_of_map_eq_ok h
  cases t with
  | null | bool | number | string => trivial
  | array | object | malformed => cases hn

/-- To convert what was read does not change what it is read from. -/
theorem TakesScalars.convert {c : Codec α} (h : c.TakesScalars) {forth : β → α} {back : α → β} :
    (c.convert forth back).TakesScalars := by
  intro reading t b hb
  obtain ⟨a, hdecode, -⟩ := exists_of_map_eq_ok hb
  exact h hdecode

/-- A free value is read with its keys sorted, so their order does not show. -/
theorem respects_shuffle_value : value.Respects reading Shuffle := by
  intro t t' v hshuffle hv
  simp only [value] at hv ⊢
  rwa [← hshuffle.toJson?_eq]

/-- Nothing that can be put in another order is `null`, so an absent value stays absent. -/
theorem respects_shuffle_optional {c : Codec α} (h : c.Respects reading Shuffle) :
    c.optional.Respects reading Shuffle := by
  intro t t' a hshuffle ha
  have hnull := hshuffle.not_isScalar
  have hnull' := hshuffle.symm.not_isScalar
  simp only [optional] at ha ⊢
  split at ha
  · exact absurd trivial hnull
  · obtain ⟨b, hdecode, rfl⟩ := exists_of_map_eq_ok ha
    split
    · exact absurd trivial hnull'
    · rw [h hshuffle hdecode]
      rfl

/-- The items of a list keep their order; only what is in them may change. -/
theorem respects_shuffle_list {c : Codec α} (h : c.Respects reading Shuffle) :
    c.list.Respects reading Shuffle := by
  intro t t' as hshuffle has
  cases hshuffle with
  | item hitem => exact h.list ⟨hitem⟩ has
  | members | member => cases has

/-- An object that mentions a variant has one member. -/
theorem members_of_mention {members : List (Key × Tree)} {ending : Ending} {m : Mention}
    (h : mention reading (.object members ending) = .ok m) (hcloses : m.closes = true) :
    ∃ name payload, members = [(.text name, payload)] ∧ m.payload = some payload := by
  cases reading with
  | direct =>
    simp only [mention] at h
    split at h
    · cases h
    · -- Read directly, members behind the first one are found when the mention is closed,
      rcases members with _ | ⟨⟨name | _, payload⟩, rest⟩
      · cases h
      · obtain rfl := Except.ok.inj h
        have hrest : rest = [] := by simpa using (Bool.and_eq_true_iff.mp hcloses).1
        exact ⟨name, payload, by rw [hrest], rfl⟩
      · cases h
  | buffered =>
    -- and when buffered, they are found at once.
    rcases members with _ | ⟨⟨name | _, payload⟩, _ | ⟨m', rest⟩⟩
    · cases h
    · obtain rfl := Except.ok.inj h
      exact ⟨name, payload, rfl, rfl⟩
    all_goals cases h

/-- There is nothing to be put in another order about what may stand with a name. -/
theorem eq_of_decodeUnit {t t' : Tree} (h : decodeUnit reading (some t) = .ok ())
    (hshuffle : Shuffle t t') : t = t' := by
  cases hshuffle with
  | @members members members' ending _ hperm =>
    have hnil : members = [] := by
      cases members with
      | nil => rfl
      | cons m members => cases reading <;> cases h
    subst hnil
    rw [hperm.nil_eq]
  | item => cases reading <;> cases h
  | @member before _ _ _ _ _ _ => cases before <;> cases reading <;> cases h

/-- A variant is mentioned by a text or by an object of one member, so no order shows. -/
theorem respects_shuffle_names {values : List α} {name : α → String} {accepted : α → List String} :
    (names values name accepted).Respects reading Shuffle := by
  intro t t' v hshuffle hv
  obtain ⟨m, hmention, -, hunit, hcloses⟩ := decode_names_iff.mp hv
  -- What a variant is read from cannot be put in another order at all.
  suffices heq : t = t' from heq ▸ hv
  cases hshuffle with
  | item => cases reading <;> cases hmention
  | members _ hperm =>
    obtain ⟨name, payload, rfl, -⟩ := members_of_mention hmention hcloses
    rw [List.singleton_perm.mp hperm]
  | @member before after key u u' ending h =>
    obtain ⟨name, payload, hone, hpayload⟩ := members_of_mention hmention hcloses
    obtain ⟨rfl, ⟨-, rfl⟩, rfl⟩ : before = [] ∧ (key = .text name ∧ u = payload) ∧ after = [] := by
      simpa [List.append_eq_singleton_iff] using hone
    rw [hpayload] at hunit
    rw [eq_of_decodeUnit hunit h]

end Codec

namespace Record

/-- A field finds the same values if one of them is replaced by one that it reads alike. -/
theorem carries_replace {f : Field σ} {blank : σ} {before after : List (Key × Tree)} {key : Key}
    {t t' : Tree}
    (h : ∀ name, key = .text name → f.isNamed name = true →
      ∀ update, f.decode reading t = .ok update → f.decode reading t' = .ok update) :
    f.Carries reading blank (f.valuesIn (before ++ (key, t) :: after))
      (f.valuesIn (before ++ (key, t') :: after)) := by
  rw [Field.valuesIn_append, Field.valuesIn_append]
  cases key with
  | unreadable => exact .reordered (.refl _)
  | text name =>
    cases hname : f.isNamed name with
    -- The member is none of this field, so it finds what it found.
    | false =>
      rw [Field.valuesIn_cons_of_not_named hname, Field.valuesIn_cons_of_not_named hname]
      exact .reordered (.refl _)
    | true =>
      rw [Field.valuesIn_cons_of_named hname, Field.valuesIn_cons_of_named hname]
      exact .changed (h name rfl hname)

/-- A member of a field is none of another field. -/
theorem valuesIn_insert_of_ne {fields : List (Field σ)}
    (hfields : fields.Pairwise Field.Independent)
    {f g : Field σ} (hf : f ∈ fields) (hg : g ∈ fields) (hne : g ≠ f) {name : String}
    (hname : f.isNamed name = true) (before after : List (Key × Tree)) (t : Tree) :
    g.valuesIn (before ++ (.text name, t) :: after) = g.valuesIn (before ++ after) := by
  have hother := isNamed_eq_false_of_ne hfields hf hg hne hname
  rw [Field.valuesIn_append, Field.valuesIn_append, Field.valuesIn_cons_of_not_named hother]

/-- A member of a field is never skipped. -/
theorem admits_insert_of_named {fields : List (Field σ)} {f : Field σ} (hf : f ∈ fields)
    {name : String} (hname : f.isNamed name = true) {before after : List (Key × Tree)} {t : Tree} :
    Codec.Admits reading (isKnown fields) Tree.isComplete (before ++ (.text name, t) :: after) ↔
      Codec.Admits reading (isKnown fields) Tree.isComplete (before ++ after) := by
  rw [Codec.admits_insert_iff, isKnown_of_isNamed hf hname]
  simp

/-- The members of one field may change as long as that field does not notice. -/
theorem decode_object_of_carries_at {d : Record σ} (hd : d.fields.Pairwise Field.Independent)
    {f : Field σ} (hf : f ∈ d.fields) {members members' : List (Key × Tree)} {ending : Ending}
    {r : σ}
    (hadmits : Codec.Admits reading (isKnown d.fields) Tree.isComplete members →
      Codec.Admits reading (isKnown d.fields) Tree.isComplete members')
    (hothers : ∀ g ∈ d.fields, g ≠ f → g.valuesIn members' = g.valuesIn members)
    (hcarries : f.Carries reading d.blank (f.valuesIn members) (f.valuesIn members'))
    (h : d.decode reading (.object members ending) = .ok r) :
    d.decode reading (.object members' ending) = .ok r := by
  refine decode_object_of_carries hd hadmits (fun g hg => ?_) h
  -- All other fields find what they found.
  by_cases hgf : g = f
  · subst hgf
    exact hcarries
  · rw [hothers g hg hgf]
    exact .reordered (.refl _)

/-- **A record does not show the order of its members**, as long as its fields do not. -/
theorem respects_shuffle {d : Record σ} (hd : d.fields.Pairwise Field.Independent)
    (hfields : ∀ f ∈ d.fields, f.Respects reading Shuffle) : d.codec.Respects reading Shuffle := by
  intro t t' r hshuffle hr
  cases hshuffle with
  -- The members of the record itself: each field finds its values in another order.
  | members _ hperm =>
    exact decode_object_of_carries hd (fun h => h.perm hperm)
      (fun f _ => .reordered (Tree.valuesAt_perm hperm)) hr
  -- Or something in one item, if the record is written as an array.
  | item hitem =>
    exact decode_array_of_changed
      (fun f hf _ hu => hfields f (List.mem_of_getElem? hf) hitem hu) hr
  | member hmember =>
    exact decode_object_of_carries hd (fun h => h.replace fun hu => hmember.isComplete_eq ▸ hu)
      (fun f hf => carries_replace fun _ _ _ _ hu => hfields f hf hmember hu) hr

/-- The ways in which a record may be spelled.  Fields go by any of their names; members of other
    names may be added; `null` may stand for a field that is left out, if that is its default; a
    field that holds its default may be left out; and `inner` tells how the values of the fields
    may be spelled.  What is set aside before it is read must be readable.  The same goes for
    arrays, where the fields left out are those at the end. -/
inductive Respelling (d : Record σ) (reading : Reading) (inner : String → Tree → Tree → Prop) :
    Tree → Tree → Prop
  | renamed {f : Field σ} {name name' : String} {before after : List (Key × Tree)} {t : Tree}
      {ending : Ending} (hf : f ∈ d.fields) (hname : f.isNamed name = true)
      (hname' : f.isNamed name' = true) :
      Respelling d reading inner (.object (before ++ (.text name, t) :: after) ending)
        (.object (before ++ (.text name', t) :: after) ending)
  | extended {name : String} {before after : List (Key × Tree)} {t : Tree} {ending : Ending}
      (hname : isKnown d.fields name = false) (hscalar : t.IsScalar)
      (hreadable : reading = .buffered → t.isReadable = true) :
      Respelling d reading inner (.object (before ++ after) ending)
        (.object (before ++ (.text name, t) :: after) ending)
  | spelledNull {f : Field σ} {name : String} {before after : List (Key × Tree)} {ending : Ending}
      (hf : f ∈ d.fields) (hname : f.isNamed name = true)
      (habsent : f.valuesIn (before ++ after) = [])
      (hdefault : f.HoldsDefault reading d.blank .null) :
      Respelling d reading inner (.object (before ++ after) ending)
        (.object (before ++ (.text name, .null) :: after) ending)
  | leftOut {f : Field σ} {name : String} {before after : List (Key × Tree)} {t : Tree}
      {ending : Ending} (hf : f ∈ d.fields) (hname : f.isNamed name = true)
      (hpresence : f.presence ≠ .required) (hdefault : f.HoldsDefault reading d.blank t) :
      Respelling d reading inner (.object (before ++ (.text name, t) :: after) ending)
        (.object (before ++ after) ending)
  | member {f : Field σ} {name : String} {before after : List (Key × Tree)} {t t' : Tree}
      {ending : Ending} (hf : f ∈ d.fields) (hname : f.isNamed name = true)
      (h : inner f.name t t') :
      Respelling d reading inner (.object (before ++ (.text name, t) :: after) ending)
        (.object (before ++ (.text name, t') :: after) ending)
  | item {f : Field σ} {before after : List Tree} {t t' : Tree} {ending : Ending}
      (hf : d.fields[before.length]? = some f) (h : inner f.name t t') :
      Respelling d reading inner (.array (before ++ t :: after) ending)
        (.array (before ++ t' :: after) ending)
  | spelledNullLast {f : Field σ} {items : List Tree} (hf : d.fields[items.length]? = some f)
      (hpresence : f.presence = .defaulted) (hdefault : f.HoldsDefault reading d.blank .null) :
      Respelling d reading inner (.array items .closed) (.array (items ++ [.null]) .closed)
  | leftOutLast {f : Field σ} {items : List Tree} {t : Tree}
      (hf : d.fields[items.length]? = some f) (hpresence : f.presence = .defaulted)
      (hdefault : f.HoldsDefault reading d.blank t) :
      Respelling d reading inner (.array (items ++ [t]) .closed) (.array items .closed)

/-- Only the values of one field may be spelled in other ways. -/
def InField (field : String) (R : Tree → Tree → Prop) (name : String) (t t' : Tree) : Prop :=
  name = field ∧ R t t'

/-- The values of the fields are left as they are. -/
def InNoField (_ : String) (_ _ : Tree) : Prop := False

/-- A scalar is complete. -/
theorem isComplete_of_isScalar {t : Tree} (h : t.IsScalar) : t.isComplete = true := by
  cases t with
  | null | bool | number | string => rfl
  | array | object | malformed => exact h.elim

/-- **All spellings of a record mean the same.** -/
theorem respects_respelling {d : Record σ} (hd : d.fields.Pairwise Field.Independent)
    {inner : String → Tree → Tree → Prop}
    (hinner : ∀ f ∈ d.fields, f.Respects reading (inner f.name)) :
    d.codec.Respects reading (d.Respelling reading inner) := by
  intro t t' r hrespelling hr
  -- Each way of spelling is one of the changes that no field notices.
  cases hrespelling with
  | @renamed f name name' before after t ending hf hname hname' =>
    refine decode_object_of_carries_at hd hf (fun h => ?_) (fun g hg hgf => ?_) ?_ hr
    · exact (admits_insert_of_named hf hname').mpr ((admits_insert_of_named hf hname).mp h)
    · rw [valuesIn_insert_of_ne hd hf hg hgf hname, valuesIn_insert_of_ne hd hf hg hgf hname']
    · simp only [Field.valuesIn_append, Field.valuesIn_cons_of_named hname,
        Field.valuesIn_cons_of_named hname']
      exact .reordered (.refl _)
  | @extended name before after t ending hname hscalar _ =>
    refine decode_object_of_carries hd (fun h => ?_) (fun f hf => ?_) hr
    · exact Codec.admits_insert_iff.mpr ⟨fun _ _ => isComplete_of_isScalar hscalar, h⟩
    · rw [Field.valuesIn_append, Field.valuesIn_append, valuesIn_cons_of_unknown hname hf]
      exact .reordered (.refl _)
  | @spelledNull f name before after ending hf hname habsent hdefault =>
    refine decode_object_of_carries_at hd hf (admits_insert_of_named hf hname).mpr
      (fun g hg hgf => valuesIn_insert_of_ne hd hf hg hgf hname before after .null) ?_ hr
    obtain ⟨hbefore, hafter⟩ : f.valuesIn before = [] ∧ f.valuesIn after = [] := by
      simpa [Field.valuesIn_append] using habsent
    rw [habsent, Field.valuesIn_append, Field.valuesIn_cons_of_named hname, hbefore, hafter]
    exact .added hdefault
  | @leftOut f name before after t ending hf hname hpresence hdefault =>
    refine decode_object_of_carries_at hd hf (admits_insert_of_named hf hname).mp
      (fun g hg hgf => (valuesIn_insert_of_ne hd hf hg hgf hname before after t).symm) ?_ hr
    rw [Field.valuesIn_append, Field.valuesIn_append, Field.valuesIn_cons_of_named hname]
    exact .dropped hpresence hdefault
  | @member f name before after t t' ending hf hname h =>
    refine decode_object_of_carries hd (fun h => ?_) (fun g hg => ?_) hr
    · exact (admits_insert_of_named hf hname).mpr ((admits_insert_of_named hf hname).mp h)
    · refine carries_replace fun name' hkey hname' update hu => ?_
      obtain rfl := Key.text.inj hkey
      obtain rfl := eq_of_isNamed hd hf hg hname hname'
      exact hinner _ hf h hu
  | item hf h =>
    refine decode_array_of_changed (fun g hg _ hu => ?_) hr
    obtain rfl := Option.some.inj (hf.symm.trans hg)
    exact hinner _ (List.mem_of_getElem? hf) h hu
  | spelledNullLast hf hpresence hdefault =>
    exact (decode_array_append_default hd hf hpresence hdefault).mpr hr
  | leftOutLast hf hpresence hdefault =>
    exact (decode_array_append_default hd hf hpresence hdefault).mp hr

/-- The field in question may be spelled as it is allowed to. -/
theorem respects_inField {f : Field σ} {field : String} (h : f.Respects reading R) :
    f.Respects reading (InField field R f.name) :=
  fun _ _ _ hR => h hR.2

theorem respects_inField_of_ne {f : Field σ} {field : String} (h : f.name ≠ field) :
    f.Respects reading (InField field R f.name) :=
  fun _ _ _ hR => absurd hR.1 h

theorem respects_inNoField {f : Field σ} : f.Respects reading (InNoField f.name) :=
  fun _ _ _ h => h.elim

/-- What can be set aside still can when it is spelled in another way. -/
theorem keepsReadable_respelling {d : Record σ} {inner : String → Tree → Tree → Prop}
    (hinner : ∀ name, KeepsReadable (inner name)) :
    KeepsReadable (d.Respelling .buffered inner) := by
  intro t t' h ht
  cases h with
  | renamed =>
    rw [Tree.isReadable_object_insert] at ht ⊢
    exact ht
  | extended _ _ hreadable => exact Tree.isReadable_object_insert.mpr ⟨hreadable rfl, ht⟩
  | spelledNull => exact Tree.isReadable_object_insert.mpr ⟨rfl, ht⟩
  | leftOut => exact (Tree.isReadable_object_insert.mp ht).2
  | member _ _ hmember =>
    rw [Tree.isReadable_object_insert] at ht ⊢
    exact ⟨hinner _ hmember ht.1, ht.2⟩
  | item _ hitem =>
    rw [Tree.isReadable_array_insert] at ht ⊢
    exact ⟨hinner _ hitem ht.1, ht.2⟩
  | spelledNullLast => exact Tree.isReadable_array_append_singleton.mpr ⟨rfl, ht⟩
  | leftOutLast => exact (Tree.isReadable_array_append_singleton.mp ht).2

/-- Values stay readable if those of the field in question do. -/
theorem keepsReadable_inField {field : String} (h : KeepsReadable R) (name : String) :
    KeepsReadable (InField field R name) :=
  fun _ _ hR => h hR.2

theorem keepsReadable_inNoField (name : String) : KeepsReadable (InNoField name) :=
  fun _ _ h => h.elim

end Record

namespace Codec

/-! ### Unions -/

/-- An alternative without content accepts any object, whatever is in it. -/
theorem respects_shuffle_bareAlternative {name : String} {v : σ} :
    (bareAlternative name v).Respects Shuffle := by
  intro t t' w hshuffle hw
  cases hshuffle with
  | members | member => exact hw
  | @item before => cases before <;> cases hw

/-- An alternative with a record for its content does not show the order of members. -/
theorem respects_shuffle_recordAlternative {d : Record α} (hd : d.fields.Pairwise Field.Independent)
    (hfields : ∀ f ∈ d.fields, f.Respects .buffered Shuffle) {name : String} {make : α → σ} :
    (recordAlternative d name make).Respects Shuffle := by
  intro t t' v hshuffle hv
  obtain ⟨a, hdecode, rfl⟩ := exists_of_map_eq_ok hv
  have hdecode' : d.decode .buffered t' = .ok a :=
    Record.respects_shuffle hd hfields hshuffle hdecode
  show (d.decode .buffered t').map make = _
  rw [hdecode']
  rfl

/-- What is split off is the tag of one of the alternatives. -/
theorem mem_of_splitTag {label tag : String} {alternatives : List (Alternative σ)} {t u : Tree}
    {a : Alternative σ} (h : splitTag label tag alternatives reading t = .ok (a, u)) :
    a ∈ alternatives := by
  cases t with
  | object members ending =>
    obtain ⟨-, -, ⟨v, -, htag⟩, -⟩ := splitTag_object_iff.mp h
    exact mem_of_decodeTag htag
  | array items ending =>
    obtain ⟨-, first, rest, -, htag, -⟩ := splitTag_array_iff.mp h
    exact mem_of_decodeTag htag
  | null | bool | number | string | malformed => cases h

/-- Splitting off the tag leaves trees that are the same or differ in the order of members. -/
theorem splitTag_of_shuffle {label tag : String} {alternatives : List (Alternative σ)}
    {t t' u : Tree} {a : Alternative σ} (hshuffle : Shuffle t t')
    (h : splitTag label tag alternatives reading t = .ok (a, u)) :
    ∃ u', splitTag label tag alternatives reading t' = .ok (a, u') ∧ (u = u' ∨ Shuffle u u') := by
  cases hshuffle with
  | @members members members' ending hnodup hperm =>
    -- The tag stands among the members in another place, and is the only one still.
    obtain ⟨hclosed, hadmits, ⟨v, hvalue, htag⟩, rfl⟩ := splitTag_object_iff.mp h
    have hvalue' : Tree.valuesUnder tag members' = [v] :=
      (List.singleton_perm.mp (hvalue ▸ Tree.valuesAt_perm hperm)).symm
    refine ⟨_, splitTag_object_iff.mpr ⟨hclosed, hadmits.perm hperm, ⟨v, hvalue', htag⟩, rfl⟩,
      .inr (.members ?_ (hperm.filter _))⟩
    exact hnodup.sublist (List.filter_sublist.filterMap _)
  | @item before after v v' ending hitem =>
    obtain ⟨hclosed, first, rest, hitems, htag, hreadable, rfl⟩ := splitTag_array_iff.mp h
    cases before with
    | nil =>
      obtain ⟨rfl, -⟩ := List.cons.inj hitems
      exact absurd (isScalar_of_decodeTag htag) hitem.not_isScalar
    | cons b before =>
      obtain ⟨rfl, rfl⟩ := List.cons.inj hitems
      refine ⟨_, splitTag_array_iff.mpr ⟨hclosed, b, before ++ v' :: after, rfl, htag,
        fun hdirect => ?_, rfl⟩, .inr (.item hitem)⟩
      have hrest : ∀ u ∈ before ++ v :: after, u.isReadable = true := hreadable hdirect
      rw [List.forall_mem_append, List.forall_mem_cons] at hrest ⊢
      exact ⟨hrest.1, hitem.isReadable_eq ▸ hrest.2.1, hrest.2.2⟩
  | @member before after key v v' ending hmember =>
    obtain ⟨hclosed, hadmits, ⟨w, hvalue, htag⟩, rfl⟩ := splitTag_object_iff.mp h
    -- The tag itself is a scalar, so it is another member in which something changes.
    by_cases hkey : key = .text tag
    · subst hkey
      obtain rfl := Tree.eq_of_valuesUnder_insert hvalue
      exact absurd (isScalar_of_decodeTag htag) hmember.not_isScalar
    · rw [Tree.valuesUnder_insert_of_ne hkey] at hvalue
      refine ⟨_, splitTag_object_iff.mpr ⟨hclosed,
        hadmits.replace fun hv => hmember.isReadable_eq ▸ hv,
        ⟨w, (Tree.valuesUnder_insert_of_ne hkey).trans hvalue, htag⟩, rfl⟩, .inr ?_⟩
      rw [others_insert hkey, others_insert hkey]
      exact .member hmember

/-- **A union with its tag among the fields does not show their order**, nor where the tag
    stands. -/
theorem respects_shuffle_internallyTagged {label tag : String}
    {alternatives : List (Alternative σ)} {parts : σ → String × List (String × Json)}
    (halternatives : ∀ a ∈ alternatives, a.Respects Shuffle) :
    (internallyTagged label tag alternatives parts).Respects reading Shuffle := by
  intro t t' v hshuffle hv
  simp only [internallyTagged] at hv ⊢
  split at hv
  · cases hv
  next a u hsplit =>
    obtain ⟨u', hsplit', hu⟩ := splitTag_of_shuffle hshuffle hsplit
    rw [hsplit']
    rcases hu with rfl | hu
    · exact hv
    · exact halternatives a (mem_of_splitTag hsplit) hu hv

end Codec

end QueryGraph
