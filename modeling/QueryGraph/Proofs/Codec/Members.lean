import QueryGraph.Proofs.Codec.Laws
import QueryGraph.Proofs.Json.Shuffle

namespace QueryGraph

/-!
# Records field by field

A record is read member by member.  Where its fields are independent, what it is read as depends
only on the values that each field finds under its names.

* `Field.Independent f g`: no key names both fields, and neither touches what the other sets.
* `Codec.Admits`: the members that a reader skips or sets aside are in order.
* `Record.assemble`: a record put together field by field, and `Record.decode_object_iff`: it is
  what the members are read as.
* `Record.decode_object_of_carries`: members may change as long as each field finds the same
  value, another one that it reads alike, or none where it found its default.
* `Record.decode_array_append_default`: a default may stand at the end of an array or be left out.
-/

open Json (Tree Ending Key)

variable {σ : Type}

namespace Codec

/-- Every key can be read, and the values under keys that are not known are in order, as far as
    they are looked at. -/
def Admits (reading : Reading) (known : String → Bool) (sound : Tree → Bool)
    (members : List (Key × Tree)) : Prop :=
  ∀ m ∈ members, ∃ name, m.1 = .text name ∧
    (known name = false → reading = .direct → sound m.2 = true)

section Admits

variable {reading : Reading} {known : String → Bool} {sound : Tree → Bool} {name : String}
  {t : Tree} {members members' : List (Key × Tree)}

theorem admits_nil : Admits reading known sound [] := fun _ hm => absurd hm List.not_mem_nil

/-- The first member is in order if its key is known, or its value need not or can be skipped. -/
theorem admits_cons_iff :
    Admits reading known sound ((.text name, t) :: members) ↔
      (known name = false → reading = .direct → sound t = true) ∧
        Admits reading known sound members := by
  rw [Admits, List.forall_mem_cons]
  refine and_congr_left' ⟨?_, fun h => ⟨name, rfl, h⟩⟩
  rintro ⟨name', hkey, h⟩
  obtain rfl := Key.text.inj hkey
  exact h

/-- No reader goes past a key that cannot be read. -/
theorem not_admits_cons_unreadable :
    ¬Admits reading known sound ((.unreadable, t) :: members) := by
  intro h
  obtain ⟨name, hkey, -⟩ := h _ List.mem_cons_self
  cases hkey

/-- Members are in order part by part. -/
theorem admits_append_iff :
    Admits reading known sound (members ++ members') ↔
      Admits reading known sound members ∧ Admits reading known sound members' :=
  List.forall_mem_append

/-- What a member has to be like does not depend on the others. -/
theorem admits_insert_iff {before after : List (Key × Tree)} :
    Admits reading known sound (before ++ (.text name, t) :: after) ↔
      (known name = false → reading = .direct → sound t = true) ∧
        Admits reading known sound (before ++ after) := by
  rw [admits_append_iff, admits_cons_iff, admits_append_iff, and_left_comm]

/-- In which order they stand does not matter. -/
theorem Admits.perm (h : Admits reading known sound members) (hperm : members.Perm members') :
    Admits reading known sound members' := fun m hm => h m (hperm.mem_iff.mpr hm)

/-- A value may be replaced by one that is in order too. -/
theorem Admits.replace {before after : List (Key × Tree)} {key : Key} {t t' : Tree}
    (h : Admits reading known sound (before ++ (key, t) :: after))
    (hsound : sound t = true → sound t' = true) :
    Admits reading known sound (before ++ (key, t') :: after) := by
  rw [admits_append_iff] at h ⊢
  cases key with
  | unreadable => exact absurd h.2 not_admits_cons_unreadable
  | text name =>
    rw [admits_cons_iff] at h ⊢
    exact ⟨h.1, fun hname hdirect => hsound (h.2.1 hname hdirect), h.2.2⟩

end Admits

end Codec

namespace Field

/-- The values of the members that name the field. -/
def valuesIn (f : Field σ) (members : List (Key × Tree)) : List Tree :=
  Tree.valuesAt f.isNamed members

/-- A member that names the field is one more value for it. -/
theorem valuesIn_cons_of_named {f : Field σ} {name : String} (h : f.isNamed name = true) (t : Tree)
    (members : List (Key × Tree)) :
    f.valuesIn ((.text name, t) :: members) = t :: f.valuesIn members :=
  Tree.valuesAt_cons_of_accepts h

/-- A member that does not name the field is no value for it. -/
theorem valuesIn_cons_of_not_named {f : Field σ} {name : String} (h : f.isNamed name = false)
    (t : Tree) (members : List (Key × Tree)) :
    f.valuesIn ((.text name, t) :: members) = f.valuesIn members :=
  Tree.valuesAt_cons_of_not_accepts h

theorem valuesIn_append (f : Field σ) (members members' : List (Key × Tree)) :
    f.valuesIn (members ++ members') = f.valuesIn members ++ f.valuesIn members' :=
  Tree.valuesAt_append

/-- The updates of the two fields may be made in either order. -/
def Commutes (f g : Field σ) : Prop :=
  ∀ {reading reading' t t' u w}, f.decode reading t = .ok u → g.decode reading' t' = .ok w →
    ∀ r, u (w r) = w (u r)

/-- No key names both fields, and neither touches what the other sets. -/
structure Independent (f g : Field σ) : Prop where
  names : ∀ name, f.isNamed name = true → g.isNamed name = false
  updates : f.Commutes g

/-- To be independent is mutual. -/
theorem Independent.symm {f g : Field σ} (h : f.Independent g) : g.Independent f where
  names name hg := by
    by_contra hf
    rw [Bool.not_eq_false] at hf
    exact absurd hg (by rw [h.names name hf]; exact Bool.false_ne_true)
  updates hu hw r := (h.updates hw hu r).symm

/-- Fields that set different parts of a record commute. -/
theorem commutes_of_sets {α β : Type} {f g : Field σ} {c : Codec α} {c' : Codec β}
    {set : α → σ → σ} {set' : β → σ → σ}
    (hf : ∀ reading t, f.decode reading t = (c.decode reading t).map set)
    (hg : ∀ reading t, g.decode reading t = (c'.decode reading t).map set')
    (h : ∀ a b r, set a (set' b r) = set' b (set a r)) : f.Commutes g := by
  intro reading reading' t t' u w hu hw r
  obtain ⟨a, -, rfl⟩ := exists_of_map_eq_ok ((hf reading t).symm.trans hu)
  obtain ⟨b, -, rfl⟩ := exists_of_map_eq_ok ((hg reading' t').symm.trans hw)
  exact h a b r

/-- The field is given the value that it has anyway. -/
def HoldsDefault (f : Field σ) (reading : Reading) (blank : σ) (t : Tree) : Prop :=
  ∃ update, f.decode reading t = .ok update ∧ update blank = blank

/-- Give the field the value that was found for it, if there is one. -/
def take (f : Field σ) (reading : Reading) (values : List Tree) (r : σ) : Option σ :=
  match values with
  | [] => some r
  | [t] =>
    match f.decode reading t with
    | .error _ => none
    | .ok update => some (update r)
  | _ => none

section Take

variable {f g : Field σ} {reading reading' : Reading} {t : Tree} {values : List Tree}
  {update : σ → σ} {r r' : σ}

/-- A field takes the only value that it finds. -/
theorem take_one (h : f.decode reading t = .ok update) :
    f.take reading [t] r = some (update r) := by
  simp only [take, h]

/-- A field takes no value, or the only one that it finds and can read; of two it takes none. -/
theorem take_eq_some_iff :
    f.take reading values r = some r' ↔
      (values = [] ∧ r = r') ∨
        ∃ t update, values = [t] ∧ f.decode reading t = .ok update ∧ update r = r' := by
  match values with
  | [] => simp [take]
  | [t] => cases h : f.decode reading t <;> simp [take, h]
  | _ :: _ :: _ => simp [take]

/-- It does not matter whether another field is given its value before or after. -/
theorem take_update (hcommutes : g.Commutes f) (h : f.decode reading' t = .ok update) :
    g.take reading values (update r) = (g.take reading values r).map update := by
  match values with
  | [] => rfl
  | [v] =>
    cases hv : g.decode reading v with
    | error e => simp [take, hv]
    | ok w => simp [take, hv, hcommutes hv h]
  | _ :: _ :: _ => rfl

end Take

/-- How the values that a field finds may change: they stand in another order, one is read alike,
    or a default is added or left out. -/
inductive Carries (f : Field σ) (reading : Reading) (blank : σ) : List Tree → List Tree → Prop
  | reordered {vs vs' : List Tree} (h : vs.Perm vs') : Carries f reading blank vs vs'
  | changed {vs ws : List Tree} {t t' : Tree}
      (h : ∀ update, f.decode reading t = .ok update → f.decode reading t' = .ok update) :
      Carries f reading blank (vs ++ t :: ws) (vs ++ t' :: ws)
  | added {t : Tree} (h : f.HoldsDefault reading blank t) : Carries f reading blank [] [t]
  | dropped {vs ws : List Tree} {t : Tree} (hpresence : f.presence ≠ .required)
      (h : f.HoldsDefault reading blank t) : Carries f reading blank (vs ++ t :: ws) (vs ++ ws)

/-- A field that is required does not lose its value. -/
theorem Carries.ne_nil {f : Field σ} {reading : Reading} {blank : σ} {values values' : List Tree}
    (h : f.Carries reading blank values values') (hpresence : f.presence = .required)
    (hvalues : values ≠ []) : values' ≠ [] := by
  cases h with
  | reordered hperm =>
    rintro rfl
    exact hvalues hperm.eq_nil
  | changed => simp
  | added => exact absurd rfl hvalues
  | dropped hpresence' => exact absurd hpresence hpresence'

/-- The record still has the default of the field, so setting it once more changes nothing. -/
def Unset (f : Field σ) (blank r : σ) : Prop :=
  ∀ {reading t update}, f.decode reading t = .ok update → update blank = blank → update r = r

/-- What may change about the values of a field does not change what it takes. -/
theorem take_of_carries {f : Field σ} {reading : Reading} {blank r r' : σ}
    {values values' : List Tree}
    (hcarries : f.Carries reading blank values values') (hunset : f.Unset blank r)
    (h : f.take reading values r = some r') : f.take reading values' r = some r' := by
  rw [take_eq_some_iff] at h ⊢
  -- Only one value or none can have been taken, so each change is one about that value.
  cases hcarries with
  | reordered hperm =>
    rcases h with ⟨rfl, rfl⟩ | ⟨t, update, rfl, hdecode, rfl⟩
    · exact .inl ⟨hperm.nil_eq.symm, rfl⟩
    · exact .inr ⟨t, update, List.singleton_perm.mp hperm |>.symm, hdecode, rfl⟩
  | changed hchanged =>
    rcases h with ⟨hnil, -⟩ | ⟨t, update, hone, hdecode, rfl⟩
    · simp at hnil
    · obtain ⟨rfl, rfl, rfl⟩ := by simpa [List.append_eq_singleton_iff] using hone
      exact .inr ⟨_, update, rfl, hchanged update hdecode, rfl⟩
  | added hdefault =>
    obtain ⟨update, hdecode, hblank⟩ := hdefault
    rcases h with ⟨-, rfl⟩ | ⟨_, _, hone, -, -⟩
    · exact .inr ⟨_, update, rfl, hdecode, hunset hdecode hblank⟩
    · cases hone
  | dropped _ hdefault =>
    obtain ⟨update, hdecode, hblank⟩ := hdefault
    rcases h with ⟨hnil, -⟩ | ⟨t, update', hone, hdecode', rfl⟩
    · simp at hnil
    · obtain ⟨rfl, rfl, rfl⟩ := by simpa [List.append_eq_singleton_iff] using hone
      obtain rfl := Except.ok.inj (hdecode.symm.trans hdecode')
      exact .inl ⟨rfl, (hunset hdecode hblank).symm⟩

end Field

namespace Record

variable {reading : Reading} {fields : List (Field σ)} {f : Field σ}

/-- What names a field is its name or one of its aliases. -/
theorem mem_names_of_isNamed {name : String} (h : f.isNamed name = true) :
    name ∈ f.name :: f.aliases := by
  have hmem : f.name = name ∨ name ∈ f.aliases := by simpa [Field.isNamed] using h
  exact List.mem_cons.mpr (hmem.imp_left Eq.symm)

/-- Fields are independent if no name of one is a name of another and their updates commute. -/
theorem independent_of_names
    (hnames : fields.Pairwise fun f g => ∀ name ∈ f.name :: f.aliases, g.isNamed name = false)
    (hcommutes : fields.Pairwise Field.Commutes) : fields.Pairwise Field.Independent :=
  (hnames.and hcommutes).imp fun ⟨hnames, hcommutes⟩ =>
    ⟨fun name hname => hnames name (mem_names_of_isNamed hname), hcommutes⟩

/-- Two fields are independent if no name of the first is a name of the second and their updates
    commute. -/
theorem independent_pair {g : Field σ}
    (hnames : ∀ name ∈ f.name :: f.aliases, g.isNamed name = false) (hcommutes : f.Commutes g) :
    [f, g].Pairwise Field.Independent :=
  independent_of_names (List.pairwise_pair.mpr hnames) (List.pairwise_pair.mpr hcommutes)

/-- The field that a key names is found. -/
theorem find?_isNamed (hfields : fields.Pairwise Field.Independent) (hf : f ∈ fields)
    {name : String} (hname : f.isNamed name = true) :
    fields.find? (Field.isNamed · name) = some f := by
  induction fields with
  | nil => exact absurd hf List.not_mem_nil
  | cons g fields ih =>
    obtain ⟨hg, hfields⟩ := List.pairwise_cons.mp hfields
    rcases List.mem_cons.mp hf with rfl | hf
    · rw [List.find?_cons, hname]
    · rw [List.find?_cons, (hg f hf).symm.names name hname]
      exact ih hfields hf

theorem isNamed_of_find? {name : String} (h : fields.find? (Field.isNamed · name) = some f) :
    f.isNamed name = true := by
  simpa using List.find?_some h

/-- Put a record together: each field takes the one value that it finds, or none. -/
def assemble (reading : Reading) (members : List (Key × Tree)) : List (Field σ) → σ → Option σ
  | [], r => some r
  | f :: fields, r =>
    (f.take reading (f.valuesIn members) r).bind (assemble reading members fields)

/-- Without members the record stays as it is. -/
theorem assemble_nil {r : σ} : assemble reading [] fields r = some r := by
  induction fields with
  | nil => rfl
  | cons f fields ih => exact ih

/-- A record is put together by its first field, and then by the others. -/
theorem assemble_cons_eq_some {members : List (Key × Tree)} {r r' : σ} :
    assemble reading members (f :: fields) r = some r' ↔
      ∃ s, f.take reading (f.valuesIn members) r = some s ∧
        assemble reading members fields s = some r' :=
  Option.bind_eq_some_iff

/-- What a record is put together from says everything about the members. -/
theorem assemble_congr {members members' : List (Key × Tree)}
    (h : ∀ f ∈ fields, f.valuesIn members = f.valuesIn members') (r : σ) :
    assemble reading members fields r = assemble reading members' fields r := by
  induction fields generalizing r with
  | nil => rfl
  | cons f fields ih =>
    obtain ⟨hf, hfields⟩ := List.forall_mem_cons.mp h
    rw [assemble, assemble, hf, funext (ih hfields)]

/-- Each field found at most one value, which it could read. -/
theorem values_of_assemble {members : List (Key × Tree)} {r r' : σ}
    (h : assemble reading members fields r = some r') (hf : f ∈ fields) :
    f.valuesIn members = [] ∨
      ∃ t update, f.valuesIn members = [t] ∧ f.decode reading t = .ok update := by
  induction fields generalizing r with
  | nil => exact absurd hf List.not_mem_nil
  | cons g fields ih =>
    obtain ⟨s, htake, hrest⟩ := assemble_cons_eq_some.mp h
    rcases List.mem_cons.mp hf with rfl | hf
    · rcases Field.take_eq_some_iff.mp htake with ⟨hnone, -⟩ | ⟨t, update, hone, hdecode, -⟩
      · exact .inl hnone
      · exact .inr ⟨t, update, hone, hdecode⟩
    · exact ih hrest hf

/-- A member may be taken before all others: the fields that come before its own commute with
    it. -/
theorem assemble_cons (hfields : fields.Pairwise Field.Independent) (hf : f ∈ fields)
    {name : String} (hname : f.isNamed name = true) {members : List (Key × Tree)}
    (habsent : f.valuesIn members = []) {t : Tree} {update : σ → σ}
    (hdecode : f.decode reading t = .ok update) (r : σ) :
    assemble reading ((.text name, t) :: members) fields r
      = assemble reading members fields (update r) := by
  induction fields generalizing r with
  | nil => exact absurd hf List.not_mem_nil
  | cons g fields ih =>
    obtain ⟨hg, hfields⟩ := List.pairwise_cons.mp hfields
    -- The field is first, so it takes the value at once; or it comes later, and the first one lets
    -- it pass.
    rcases List.mem_cons.mp hf with rfl | hf
    · have hothers : ∀ g ∈ fields,
          g.valuesIn ((.text name, t) :: members) = g.valuesIn members := fun h hh =>
        Field.valuesIn_cons_of_not_named ((hg h hh).names name hname) t members
      rw [assemble, assemble, Field.valuesIn_cons_of_named hname, habsent,
        funext (assemble_congr hothers), Field.take_one hdecode]
      rfl
    · have hother := (hg f hf).symm.names name hname
      rw [assemble, assemble, Field.valuesIn_cons_of_not_named hother,
        Field.take_update (hg f hf).updates hdecode, Option.bind_map]
      exact congrArg _ (funext (ih hfields hf))

/-! ### Reading the members of an object -/

/-- Whether a key names one of the fields. -/
def isKnown (fields : List (Field σ)) (name : String) : Bool := fields.any (Field.isNamed · name)

/-- A member of no field is no value for any of them. -/
theorem valuesIn_cons_of_unknown {name : String} {t : Tree} {members : List (Key × Tree)}
    (h : isKnown fields name = false) (hf : f ∈ fields) :
    f.valuesIn ((.text name, t) :: members) = f.valuesIn members := by
  exact Field.valuesIn_cons_of_not_named (by simpa using List.any_eq_false.mp h f hf) t members

/-- A key names one field at most. -/
theorem eq_of_isNamed (hfields : fields.Pairwise Field.Independent) {f g : Field σ}
    (hf : f ∈ fields) (hg : g ∈ fields) {name : String} (hfname : f.isNamed name = true)
    (hgname : g.isNamed name = true) : f = g :=
  Option.some.inj <|
    (find?_isNamed hfields hf hfname).symm.trans (find?_isNamed hfields hg hgname)

theorem eq_of_name_eq (hfields : fields.Pairwise Field.Independent) {f g : Field σ}
    (hf : f ∈ fields) (hg : g ∈ fields) (h : f.name = g.name) : f = g :=
  eq_of_isNamed hfields hf hg f.isNamed_name (h ▸ g.isNamed_name)

/-- What names a field names no other. -/
theorem isNamed_eq_false_of_ne (hfields : fields.Pairwise Field.Independent) {f g : Field σ}
    (hf : f ∈ fields) (hg : g ∈ fields) (hne : g ≠ f) {name : String}
    (hname : f.isNamed name = true) : g.isNamed name = false :=
  Bool.eq_false_iff.mpr fun hgname => hne (eq_of_isNamed hfields hg hf hgname hname)

theorem isKnown_of_isNamed (hf : f ∈ fields) {name : String} (hname : f.isNamed name = true) :
    isKnown fields name = true :=
  List.any_eq_true.mpr ⟨f, hf, hname⟩

/-- The members behind those that were read: what is skipped is in order, no field is given twice,
    and the record is put together from the others. -/
structure Gathers (fields : List (Field σ)) (reading : Reading) (members : List (Key × Tree))
    (seen : List String) (r r' : σ) : Prop where
  admits : Codec.Admits reading (isKnown fields) Tree.isComplete members
  unseen : ∀ f ∈ fields, f.name ∈ seen → f.valuesIn members = []
  assembled : assemble reading members fields r = some r'

section Gathers

variable {members : List (Key × Tree)} {seen seen' : List String} {r r' : σ} {name : String}
  {t : Tree}

/-- A member of a field that was not seen before is the only one of that field. -/
theorem gathers_cons_iff (hfields : fields.Pairwise Field.Independent) (hf : f ∈ fields)
    (hname : f.isNamed name = true) {update : σ → σ} (hdecode : f.decode reading t = .ok update)
    (hseen : f.name ∉ seen) :
    Gathers fields reading ((.text name, t) :: members) seen r r' ↔
      Gathers fields reading members (f.name :: seen) (update r) r' := by
  have hvalues := Field.valuesIn_cons_of_named hname t members
  have hothers : ∀ g ∈ fields, g ≠ f →
      g.valuesIn ((.text name, t) :: members) = g.valuesIn members := fun g hg hne =>
    Field.valuesIn_cons_of_not_named (isNamed_eq_false_of_ne hfields hf hg hne hname) t members
  constructor
  · rintro ⟨hadmits, hunseen, hassembled⟩
    -- Two values for one field would not have been put together.
    have habsent : f.valuesIn members = [] := by
      rcases values_of_assemble hassembled hf with h | ⟨u, _, h, -⟩
      · exact absurd (hvalues.symm.trans h) (List.cons_ne_nil _ _)
      · exact (List.cons.inj (hvalues.symm.trans h)).2
    refine ⟨(Codec.admits_cons_iff.mp hadmits).2, fun g hg hgseen => ?_, ?_⟩
    · by_cases hgf : g = f
      · rw [hgf, habsent]
      · rw [← hothers g hg hgf]
        refine hunseen g hg ((List.mem_cons.mp hgseen).resolve_left fun heq => hgf ?_)
        exact eq_of_name_eq hfields hg hf heq
    · rw [← assemble_cons hfields hf hname habsent hdecode, hassembled]
  · rintro ⟨hadmits, hunseen, hassembled⟩
    -- The field counts as seen behind its member, so there is no other value for it.
    have habsent : f.valuesIn members = [] := hunseen f hf List.mem_cons_self
    refine ⟨Codec.admits_cons_iff.mpr ⟨fun h => ?_, hadmits⟩, fun g hg hgseen => ?_, ?_⟩
    · cases (isKnown_of_isNamed hf hname).symm.trans h
    · have hgf : g ≠ f := by
        rintro rfl
        exact hseen hgseen
      rw [hothers g hg hgf]
      exact hunseen g hg (List.mem_cons_of_mem _ hgseen)
    · rw [assemble_cons hfields hf hname habsent hdecode, hassembled]

/-- A member of no field is skipped. -/
theorem gathers_cons_unknown_iff (hname : isKnown fields name = false) :
    Gathers fields reading ((.text name, t) :: members) seen r r' ↔
      (reading = .direct → t.isComplete = true) ∧ Gathers fields reading members seen r r' := by
  have hvalues : ∀ f ∈ fields, f.valuesIn ((.text name, t) :: members) = f.valuesIn members :=
    fun _ hf => valuesIn_cons_of_unknown hname hf
  constructor
  · rintro ⟨hadmits, hunseen, hassembled⟩
    obtain ⟨hsound, hadmits⟩ := Codec.admits_cons_iff.mp hadmits
    refine ⟨hsound hname, hadmits, fun f hf hf' => ?_, ?_⟩
    · rw [← hvalues f hf, hunseen f hf hf']
    · rw [← assemble_congr hvalues, hassembled]
  · rintro ⟨hsound, hadmits, hunseen, hassembled⟩
    refine ⟨Codec.admits_cons_iff.mpr ⟨fun _ => hsound, hadmits⟩, fun f hf hf' => ?_, ?_⟩
    · rw [hvalues f hf, hunseen f hf hf']
    · rw [assemble_congr hvalues, hassembled]

/-- What is read member by member is what is put together field by field. -/
theorem exists_decodeMembers_iff (hfields : fields.Pairwise Field.Independent) :
    (∃ seen', decodeMembers fields reading members seen r = .ok (seen', r')) ↔
      Gathers fields reading members seen r r' := by
  induction members generalizing seen r with
  | nil =>
    constructor
    · rintro ⟨seen', h⟩
      obtain ⟨-, rfl⟩ := Prod.mk.inj (Except.ok.inj h)
      exact ⟨Codec.admits_nil, fun _ _ _ => rfl, assemble_nil⟩
    · intro h
      obtain rfl := Option.some.inj (assemble_nil.symm.trans h.assembled)
      exact ⟨seen, rfl⟩
  | cons m members ih =>
    obtain ⟨key, t⟩ := m
    cases key with
    | unreadable =>
      -- Neither side goes past a key that cannot be read.
      simp only [decodeMembers, reduceCtorEq, exists_false, false_iff]
      exact fun h => Codec.not_admits_cons_unreadable h.admits
    | text name =>
      cases hfind : fields.find? (Field.isNamed · name) with
      | none =>
        -- The key names no field: the member is skipped on both sides.
        have hunknown : isKnown fields name = false :=
          List.any_eq_false.mpr (List.find?_eq_none.mp hfind)
        rw [gathers_cons_unknown_iff hunknown, ← ih]
        simp only [decodeMembers, hfind]
        split <;> simp_all
      | some f =>
        have hf := List.mem_of_find?_eq_some hfind
        have hvalues := Field.valuesIn_cons_of_named (isNamed_of_find? hfind) t members
        simp only [decodeMembers, hfind]
        -- The key names a field, which may have been given already or may not read the value.
        by_cases hseen : f.name ∈ seen
        · simp only [if_pos hseen, reduceCtorEq, exists_false, false_iff]
          intro h
          cases hvalues.symm.trans (h.unseen f hf hseen)
        · simp only [if_neg hseen]
          cases hdecode : f.decode reading t with
          | error e =>
            simp only [reduceCtorEq, exists_false, false_iff]
            intro h
            rcases values_of_assemble h.assembled hf with hnone | ⟨u, _, hone, hu⟩
            · cases hvalues.symm.trans hnone
            · obtain ⟨rfl, -⟩ := List.cons.inj (hvalues.symm.trans hone)
              cases hdecode.symm.trans hu
          | ok update =>
            rw [gathers_cons_iff hfields hf (isNamed_of_find? hfind) hdecode hseen, ← ih]

/-- A field counts as seen if it was before, or finds a value. -/
theorem mem_seen_iff (hfields : fields.Pairwise Field.Independent)
    (h : decodeMembers fields reading members seen r = .ok (seen', r')) (hf : f ∈ fields) :
    f.name ∈ seen' ↔ f.name ∈ seen ∨ f.valuesIn members ≠ [] := by
  induction members generalizing seen r with
  | nil =>
    obtain ⟨rfl, -⟩ := Prod.mk.inj (Except.ok.inj h)
    simp [Field.valuesIn]
  | cons m members ih =>
    obtain ⟨key, t⟩ := m
    cases key with
    | unreadable => cases h
    | text name =>
      rw [decodeMembers] at h
      split at h
      next g hg =>
        have hgmem := List.mem_of_find?_eq_some hg
        have hgname := isNamed_of_find? hg
        split at h
        · cases h
        · split at h
          · cases h
          · rw [ih h]
            -- The member is one of this field or one of another.
            by_cases hfg : f = g
            · subst hfg
              simp [Field.valuesIn_cons_of_named hgname]
            · have hne : f.name ≠ g.name := fun heq => hfg (eq_of_name_eq hfields hf hgmem heq)
              have hother := isNamed_eq_false_of_ne hfields hgmem hf hfg hgname
              simp [Field.valuesIn_cons_of_not_named hother, hne]
      next hnone =>
        split at h
        · cases h
        · have hother : f.isNamed name = false := by
            simpa using List.find?_eq_none.mp hnone f hf
          rw [ih h, Field.valuesIn_cons_of_not_named hother]

end Gathers

/-- **What an object is read as**, field by field. -/
theorem decode_object_iff {d : Record σ} (hd : d.fields.Pairwise Field.Independent)
    {members : List (Key × Tree)} {ending : Ending} {r : σ} :
    d.decode reading (.object members ending) = .ok r ↔
      ending = .closed ∧ Gathers d.fields reading members [] d.blank r ∧
        ∀ f ∈ d.fields, f.presence = .required → f.valuesIn members ≠ [] := by
  -- Nothing is missing if every required field finds a value.
  have hmissing : ∀ {seen' : List String} {r' : σ},
      decodeMembers d.fields reading members [] d.blank = .ok (seen', r') →
        (firstMissing d.fields seen' = none ↔
          ∀ f ∈ d.fields, f.presence = .required → f.valuesIn members ≠ []) := by
    intro seen' r' h
    rw [firstMissing, List.find?_eq_none]
    refine forall₂_congr fun f hf => ?_
    simp [mem_seen_iff hd h hf]
  rw [← exists_decodeMembers_iff hd]
  simp only [decode, decodeObject]
  constructor
  · intro h
    split at h
    · cases h
    · split at h
      · cases h
      next seen' r' hread =>
        split at h
        · cases h
        next hclosed =>
          split at h
          · cases h
          next hnone =>
            obtain rfl := Except.ok.inj h
            exact ⟨Decidable.not_not.mp hclosed, ⟨seen', hread⟩, (hmissing hread).mp hnone⟩
  · rintro ⟨rfl, ⟨seen', hread⟩, hrequired⟩
    simp [hread, (hmissing hread).mpr hrequired]

/-! ### What may change about the members -/

/-- Setting a field leaves the others as they are. -/
theorem unset_update {g : Field σ} {blank r : σ} (hcommutes : f.Commutes g)
    (hunset : f.Unset blank r) {t : Tree} {update : σ → σ}
    (hdecode : g.decode reading t = .ok update) : f.Unset blank (update r) := by
  intro reading' t' w hw hblank
  rw [hcommutes hw hdecode, hunset hw hblank]

/-- A record is put together as before if each field finds what it may. -/
theorem assemble_of_carries (hfields : fields.Pairwise Field.Independent)
    {members members' : List (Key × Tree)} {blank r r' : σ}
    (hcarries : ∀ f ∈ fields, f.Carries reading blank (f.valuesIn members) (f.valuesIn members'))
    (hunset : ∀ f ∈ fields, f.Unset blank r)
    (h : assemble reading members fields r = some r') :
    assemble reading members' fields r = some r' := by
  induction fields generalizing r with
  | nil => exact h
  | cons f fields ih =>
    obtain ⟨hf, hfields⟩ := List.pairwise_cons.mp hfields
    obtain ⟨hcarries, hcarriesrest⟩ := List.forall_mem_cons.mp hcarries
    obtain ⟨hunset, hunsetrest⟩ := List.forall_mem_cons.mp hunset
    obtain ⟨s, htake, hrest⟩ := assemble_cons_eq_some.mp h
    refine assemble_cons_eq_some.mpr ⟨s, Field.take_of_carries hcarries hunset htake, ?_⟩
    refine ih hfields hcarriesrest (fun g hg => ?_) hrest
    -- The fields behind still have their defaults, for this one does not touch them.
    rcases Field.take_eq_some_iff.mp htake with ⟨-, rfl⟩ | ⟨t, update, -, hdecode, rfl⟩
    · exact hunsetrest g hg
    · exact unset_update (hf g hg).symm.updates (hunsetrest g hg) hdecode

/-- **The members of an object may change** as long as no field notices. -/
theorem decode_object_of_carries {d : Record σ} (hd : d.fields.Pairwise Field.Independent)
    {members members' : List (Key × Tree)} {ending : Ending} {r : σ}
    (hadmits : Codec.Admits reading (isKnown d.fields) Tree.isComplete members →
      Codec.Admits reading (isKnown d.fields) Tree.isComplete members')
    (hcarries : ∀ f ∈ d.fields,
      f.Carries reading d.blank (f.valuesIn members) (f.valuesIn members'))
    (h : d.decode reading (.object members ending) = .ok r) :
    d.decode reading (.object members' ending) = .ok r := by
  rw [decode_object_iff hd] at h ⊢
  obtain ⟨hclosed, hgathers, hrequired⟩ := h
  refine ⟨hclosed, ⟨hadmits hgathers.admits, nofun, ?_⟩, fun f hf hpresence => ?_⟩
  · -- On the blank record every field has its default.
    exact assemble_of_carries hd hcarries (fun f _ _ _ _ _ hblank => hblank) hgathers.assembled
  · exact (hcarries f hf).ne_nil hpresence (hrequired f hf hpresence)

/-! ### What may change about the items -/

section Items

variable {expected : String} {ending : Ending} {index : Nat} {r r' : σ} {t t' : Tree}

/-- An item may be replaced by one that the field at its position reads alike. -/
theorem decodeItems_of_changed {before after : List Tree}
    (hchanged : ∀ f, fields[before.length]? = some f →
      ∀ update, f.decode reading t = .ok update → f.decode reading t' = .ok update)
    (h : decodeItems expected reading ending fields index (before ++ t :: after) r = .ok r') :
    decodeItems expected reading ending fields index (before ++ t' :: after) r = .ok r' := by
  induction fields generalizing before index r with
  | nil => exact h
  | cons f fields ih =>
    cases before with
    | nil =>
      rw [List.nil_append, decodeItems] at h ⊢
      split at h
      · cases h
      next update hdecode =>
        rw [hchanged f rfl update hdecode]
        exact h
    | cons u before =>
      rw [List.cons_append, decodeItems] at h ⊢
      split at h
      · cases h
      next update hdecode => exact ih hchanged h

/-- A default behind all other items is as good as none. -/
theorem decodeItems_append_default (hfields : fields.Pairwise Field.Independent)
    {items : List Tree} (hf : fields[items.length]? = some f) (hpresence : f.presence = .defaulted)
    {blank : σ} (hdefault : f.HoldsDefault reading blank t) (hunset : f.Unset blank r) :
    decodeItems expected reading .closed fields index (items ++ [t]) r
      = decodeItems expected reading .closed fields index items r := by
  obtain ⟨update, hdecode, hblank⟩ := hdefault
  induction items generalizing fields index r with
  | nil =>
    cases fields with
    | nil => cases hf
    | cons g fields =>
      obtain rfl := Option.some.inj hf
      simp [decodeItems, hdecode, hunset hdecode hblank, hpresence]
  | cons u items ih =>
    cases fields with
    | nil => cases hf
    | cons g fields =>
      obtain ⟨hg, hfields⟩ := List.pairwise_cons.mp hfields
      rw [List.cons_append, decodeItems, decodeItems]
      split
      · rfl
      next w hw =>
        have hfmem : f ∈ fields := List.mem_of_getElem? hf
        exact ih hfields hf (unset_update (hg f hfmem).symm.updates hunset hw)

/-- **The items of an array may change** as long as no field notices. -/
theorem decode_array_of_changed {d : Record σ} {before after : List Tree}
    (hchanged : ∀ f, d.fields[before.length]? = some f →
      ∀ update, f.decode reading t = .ok update → f.decode reading t' = .ok update)
    (h : d.decode reading (.array (before ++ t :: after) ending) = .ok r) :
    d.decode reading (.array (before ++ t' :: after) ending) = .ok r := by
  simp only [decode] at h ⊢
  split at h
  · cases h
  next hdepth =>
    rw [if_neg hdepth]
    simp only [decodeArray] at h ⊢
    split at h
    · cases h
    next r' hread =>
      rw [decodeItems_of_changed hchanged hread]
      simpa using h

/-- A defaulted field behind all items may be written at the end of an array or left out. -/
theorem decode_array_append_default {d : Record σ} (hd : d.fields.Pairwise Field.Independent)
    {items : List Tree} (hf : d.fields[items.length]? = some f)
    (hpresence : f.presence = .defaulted)
    (hdefault : f.HoldsDefault reading d.blank t) :
    d.decode reading (.array (items ++ [t]) .closed) = .ok r ↔
      d.decode reading (.array items .closed) = .ok r := by
  have hlength : items.length + 1 ≤ d.fields.length := (List.getElem?_eq_some_iff.mp hf).1
  simp only [decode, decodeArray, reduceCtorEq, if_false,
    decodeItems_append_default hd hf hpresence hdefault fun _ hblank => hblank]
  split <;> simp [afterItems, hlength, Nat.le_of_succ_le hlength]

end Items

end Record

end QueryGraph
