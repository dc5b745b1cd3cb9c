import QueryGraph.Proofs.Json.Canonical
import Mathlib.Data.List.Nodup

namespace QueryGraph.Json

/-!
# Members in another order

* `Tree.valuesAt accepts members`, `Tree.valuesUnder key members`: the values under some keys, or
  under one.
* `Shuffle t t'`: the members of an object somewhere in `t`, no two of one name, stand in another
  order in `t'`.
* `Shuffle.toJson?_eq`: a free value does not show the order.
* `Tree.isReadable_object`: which objects can be set aside.
-/

/-- The name that a key gives, if it can be read. -/
def Key.name? : Key → Option String
  | .text name => some name
  | .unreadable => none

namespace Tree

/-- The values of the members whose keys are accepted. -/
def valuesAt (accepts : String → Bool) (members : List (Key × Tree)) : List Tree :=
  members.filterMap fun m =>
    match m.1 with
    | .text name => if accepts name then some m.2 else none
    | .unreadable => none

section ValuesAt

variable {accepts : String → Bool} {name : String} {t : Tree} {members members' : List (Key × Tree)}

@[simp] theorem valuesAt_nil : valuesAt accepts [] = [] := rfl

theorem valuesAt_cons_of_accepts (h : accepts name = true) :
    valuesAt accepts ((.text name, t) :: members) = t :: valuesAt accepts members := by
  simp [valuesAt, h]

theorem valuesAt_cons_of_not_accepts (h : accepts name = false) :
    valuesAt accepts ((.text name, t) :: members) = valuesAt accepts members := by
  simp [valuesAt, h]

@[simp] theorem valuesAt_cons_unreadable :
    valuesAt accepts ((.unreadable, t) :: members) = valuesAt accepts members := rfl

@[simp] theorem valuesAt_append :
    valuesAt accepts (members ++ members')
      = valuesAt accepts members ++ valuesAt accepts members' :=
  List.filterMap_append

/-- Members in another order have the same values under the accepted keys, in some order. -/
theorem valuesAt_perm (h : members.Perm members') :
    (valuesAt accepts members).Perm (valuesAt accepts members') := h.filterMap _

/-- The values under a key. -/
def valuesUnder (key : String) (members : List (Key × Tree)) : List Tree :=
  valuesAt (fun name => name = key) members

theorem valuesUnder_cons_self (key : String) :
    valuesUnder key ((.text key, t) :: members) = t :: valuesUnder key members :=
  valuesAt_cons_of_accepts (decide_eq_true rfl)

theorem valuesUnder_cons_of_ne {key : String} (h : name ≠ key) :
    valuesUnder key ((.text name, t) :: members) = valuesUnder key members :=
  valuesAt_cons_of_not_accepts (decide_eq_false h)

/-- A member of the key counts at the place where it stands. -/
theorem valuesUnder_insert_self {key : String} :
    valuesUnder key (members ++ (.text key, t) :: members')
      = valuesUnder key members ++ t :: valuesUnder key members' := by
  rw [valuesUnder, valuesAt_append]
  exact congrArg _ (valuesUnder_cons_self key)

theorem mem_valuesUnder {key : String} (h : (.text key, t) ∈ members) :
    t ∈ valuesUnder key members :=
  List.mem_filterMap.mpr ⟨_, h, by simp⟩

/-- A value that stands alone under its key is the value of the member of that key. -/
theorem eq_of_valuesUnder_insert {key : String} {v : Tree}
    (h : valuesUnder key (members ++ (.text key, t) :: members') = [v]) : t = v := by
  rw [valuesUnder_insert_self] at h
  have hmem : t ∈ [v] := h ▸ by simp
  exact List.mem_singleton.mp hmem

/-- A member of another key may be put anywhere. -/
theorem valuesUnder_insert_of_ne {key : String} {k : Key} (h : k ≠ .text key) :
    valuesUnder key (members ++ (k, t) :: members') = valuesUnder key (members ++ members') := by
  cases k with
  | unreadable => simp [valuesUnder]
  | text name =>
    have hne : name ≠ key := fun heq => h (congrArg _ heq)
    rw [valuesUnder, valuesAt_append]
    exact (congrArg _ (valuesUnder_cons_of_ne hne)).trans valuesAt_append.symm

end ValuesAt

end Tree

/-- The members of an object somewhere in the first tree, no two of one name, stand in another
    order in the second. -/
inductive Shuffle : Tree → Tree → Prop
  | members {members members' : List (Key × Tree)} {ending : Ending}
      (hnodup : (members.filterMap fun m => m.1.name?).Nodup) (hperm : members.Perm members') :
      Shuffle (.object members ending) (.object members' ending)
  | item {before after : List Tree} {t t' : Tree} {ending : Ending} (h : Shuffle t t') :
      Shuffle (.array (before ++ t :: after) ending) (.array (before ++ t' :: after) ending)
  | member {before after : List (Key × Tree)} {key : Key} {t t' : Tree} {ending : Ending}
      (h : Shuffle t t') :
      Shuffle (.object (before ++ (key, t) :: after) ending)
        (.object (before ++ (key, t') :: after) ending)

/-- A value without parts. -/
def Tree.IsScalar : Tree → Prop
  | .null | .bool _ | .number _ | .string _ => True
  | .array _ _ | .object _ _ | .malformed => False

/-- There is nothing to be put in another order about a scalar. -/
theorem Shuffle.not_isScalar {t t' : Tree} (h : Shuffle t t') : ¬t.IsScalar := by
  cases h <;> exact id

/-- Being in another order is symmetric. -/
theorem Shuffle.symm {t t' : Tree} (h : Shuffle t t') : Shuffle t' t := by
  induction h with
  | members hnodup hperm =>
    exact .members ((hperm.filterMap _).nodup_iff.mp hnodup) hperm.symm
  | item _ ih => exact .item ih
  | member _ ih => exact .member ih

/-! ### Sorting members of different names -/

/-- Two members may be inserted in either order, the smaller name named first. -/
theorem insertMember_comm_of_lt {k k' : String} (hlt : k < k') (v v' : Json)
    (sorted : List (String × Json)) :
    insertMember k v (insertMember k' v' sorted)
      = insertMember k' v' (insertMember k v sorted) := by
  have hne : k ≠ k' := by
    rintro rfl
    exact String.lt_irrefl _ hlt
  have hasymm : ¬k' < k := String.lt_asymm hlt
  -- The cases follow the place of the greater name; behind it the smaller one is decided first.
  induction sorted with
  | nil => simp [insertMember, hne, hne.symm, hlt, hasymm]
  | cons m sorted ih =>
    by_cases heq' : k' = m.1
    · subst heq'
      simp [insertMember, hne, hne.symm, hlt, hasymm]
    by_cases hlt' : k' < m.1
    · have hk : k < m.1 := String.lt_trans hlt hlt'
      have hkne : k ≠ m.1 := by
        rintro rfl
        exact String.lt_irrefl _ hk
      simp [insertMember, hne, hne.symm, hlt, hasymm, heq', hlt', hk, hkne]
    -- The greater name belongs further down; the smaller one may belong anywhere.
    by_cases heq : k = m.1
    · subst heq
      simp [insertMember, hne.symm, hasymm]
    by_cases hk : k < m.1
    · simp [insertMember, hne.symm, hasymm, heq', hlt', hk, heq]
    · simp [insertMember, heq', hlt', hk, heq, ih]

/-- Members of different names may be put into a list in either order. -/
theorem insertMember_comm {k k' : String} (hne : k ≠ k') (v v' : Json)
    (sorted : List (String × Json)) :
    insertMember k v (insertMember k' v' sorted)
      = insertMember k' v' (insertMember k v sorted) := by
  by_cases hlt : k < k'
  · exact insertMember_comm_of_lt hlt v v' sorted
  · exact (insertMember_comm_of_lt (lt_of_ne_of_not_lt hne hlt) v' v sorted).symm

/-- Members of different names are sorted into the same list from any order. -/
theorem sortMembers_perm {members members' : List (String × Json)} (hperm : members.Perm members')
    (hnodup : (members.map Prod.fst).Nodup) : sortMembers members = sortMembers members' := by
  refine hperm.foldl_eq' (fun a ha b hb sorted => ?_) []
  by_cases hkey : a.1 = b.1
  · rw [List.inj_on_of_nodup_map hnodup ha hb hkey]
  · exact insertMember_comm (Ne.symm hkey) b.2 a.2 sorted

/-! ### Free values -/

namespace Tree

/-- The keys of an object that can be read are the names that are written. -/
theorem map_fst_of_toMembers? {members : List (Key × Tree)} {ms : List (String × Json)}
    (h : toMembers? members = some ms) :
    ms.map Prod.fst = members.filterMap fun m => m.1.name? := by
  induction members generalizing ms with
  | nil =>
    obtain rfl := Option.some.inj h
    rfl
  | cons m members ih =>
    obtain ⟨key, t⟩ := m
    simp only [toMembers?] at h
    split at h
    next k v rest _ hrest =>
      obtain rfl := Option.some.inj h
      simp [ih hrest, Key.name?]
    · cases h

/-- Members that can be read can be read in any order, and give the same members in some order. -/
theorem toMembers?_perm {members members' : List (Key × Tree)} (hperm : members.Perm members')
    {ms : List (String × Json)} (h : toMembers? members = some ms) :
    ∃ ms', toMembers? members' = some ms' ∧ ms.Perm ms' := by
  -- Only the swap of two neighbours has anything to show.
  induction hperm generalizing ms with
  | nil => exact ⟨ms, h, .refl _⟩
  | cons m _ ih =>
    obtain ⟨key, t⟩ := m
    simp only [toMembers?] at h ⊢
    split at h
    next k v rest hv hrest =>
      obtain rfl := Option.some.inj h
      obtain ⟨rest', hrest', hperm'⟩ := ih hrest
      exact ⟨(k, v) :: rest', by rw [hv, hrest'], hperm'.cons _⟩
    · cases h
  | swap m m' members =>
    obtain ⟨key, t⟩ := m
    obtain ⟨key', t'⟩ := m'
    simp only [toMembers?] at h ⊢
    split at h
    next k' v' rest hv' hrest =>
      obtain rfl := Option.some.inj h
      split at hrest
      next k v rest' hv hrest' =>
        obtain rfl := Option.some.inj hrest
        exact ⟨(k, v) :: (k', v') :: rest', by rw [hv, hv', hrest'], .swap _ _ _⟩
      · cases hrest
    · cases h
  | trans _ _ ih₁ ih₂ =>
    obtain ⟨ms₁, h₁, hperm₁⟩ := ih₁ h
    obtain ⟨ms₂, h₂, hperm₂⟩ := ih₂ h₁
    exact ⟨ms₂, h₂, hperm₁.trans hperm₂⟩

/-- One item of an array may be replaced by another one that stands for the same value. -/
theorem toItems?_congr {t t' : Tree} (h : t.toJson? = t'.toJson?) (before after : List Tree) :
    toItems? (before ++ t :: after) = toItems? (before ++ t' :: after) := by
  induction before with
  | nil => simp only [List.nil_append, toItems?, h]
  | cons u before ih => simp only [List.cons_append, toItems?, ih]

/-- One value among the members may be replaced by another one that stands for the same value. -/
theorem toMembers?_congr {t t' : Tree} (h : t.toJson? = t'.toJson?) (key : Key)
    (before after : List (Key × Tree)) :
    toMembers? (before ++ (key, t) :: after) = toMembers? (before ++ (key, t') :: after) := by
  induction before with
  | nil => simp only [List.nil_append, toMembers?, h]
  | cons m before ih => simp only [List.cons_append, toMembers?, ih]

end Tree

/-- Objects whose members differ in their order alone are the same value. -/
theorem Tree.toJson?_perm {members members' : List (Key × Tree)}
    (hnodup : (members.filterMap fun m => m.1.name?).Nodup) (hperm : members.Perm members')
    (ending : Ending) :
    (Tree.object members ending).toJson? = (Tree.object members' ending).toJson? := by
  have hsorted : (toMembers? members).map (fun ms => Json.object (sortMembers ms))
      = (toMembers? members').map fun ms => .object (sortMembers ms) := by
    -- Either all members can be read, in both orders, or one cannot, wherever it stands.
    cases hms : toMembers? members with
    | some ms =>
      obtain ⟨ms', hms', hperm'⟩ := toMembers?_perm hperm hms
      rw [← map_fst_of_toMembers? hms] at hnodup
      rw [hms', Option.map_some, Option.map_some, sortMembers_perm hperm' hnodup]
    | none =>
      cases hms' : toMembers? members' with
      | none => rfl
      | some ms' =>
        obtain ⟨ms, hms₁, -⟩ := toMembers?_perm hperm.symm hms'
        cases hms.symm.trans hms₁
  rw [toJson?, toJson?, hsorted]

/-- **A free value does not show the order of the members.** -/
theorem Shuffle.toJson?_eq {t t' : Tree} (h : Shuffle t t') : t.toJson? = t'.toJson? := by
  induction h with
  | members hnodup hperm => exact Tree.toJson?_perm hnodup hperm _
  | @item before after t t' ending _ ih =>
    rw [Tree.toJson?, Tree.toJson?, Tree.toItems?_congr ih before after]
  | @member before after key t t' ending _ ih =>
    rw [Tree.toJson?, Tree.toJson?, Tree.toMembers?_congr ih key before after]

/-! ### Setting aside -/

/-- Whether a value can be set aside does not depend on the order. -/
theorem Shuffle.isReadable_eq {t t' : Tree} (h : Shuffle t t') : t.isReadable = t'.isReadable := by
  rw [Tree.isReadable, Tree.isReadable, h.toJson?_eq]

theorem Shuffle.isComplete_eq {t t' : Tree} (h : Shuffle t t') : t.isComplete = t'.isComplete := by
  cases h <;> rfl

namespace Tree

/-- Items can be set aside together if each of them can. -/
theorem isSome_toItems?_iff {items : List Tree} :
    (toItems? items).isSome ↔ ∀ t ∈ items, t.isReadable = true := by
  induction items with
  | nil => simp [toItems?]
  | cons t items ih =>
    rw [List.forall_mem_cons, ← ih, isReadable, toItems?]
    cases t.toJson? <;> cases toItems? items <;> simp

/-- An array can be set aside if all its items can. -/
theorem isReadable_array {items : List Tree} {ending : Ending} :
    (Tree.array items ending).isReadable = true ↔
      ending = .closed ∧ ∀ t ∈ items, t.isReadable = true := by
  rw [← isSome_toItems?_iff, isReadable, toJson?]
  split <;> simp_all

/-- Members can be set aside together if each key can be read and each value can be set aside. -/
theorem isSome_toMembers?_iff {members : List (Key × Tree)} :
    (toMembers? members).isSome ↔ ∀ m ∈ members, m.1 ≠ .unreadable ∧ m.2.isReadable = true := by
  induction members with
  | nil => simp [toMembers?]
  | cons m members ih =>
    obtain ⟨key, t⟩ := m
    rw [List.forall_mem_cons, ← ih, isReadable]
    cases key <;> cases ht : t.toJson? <;> cases hms : toMembers? members <;>
      simp [toMembers?, ht, hms]

/-- An object can be set aside if all its keys and values can. -/
theorem isReadable_object {members : List (Key × Tree)} {ending : Ending} :
    (Tree.object members ending).isReadable = true ↔
      ending = .closed ∧ ∀ m ∈ members, m.1 ≠ .unreadable ∧ m.2.isReadable = true := by
  rw [← isSome_toMembers?_iff, isReadable, toJson?]
  split <;> simp_all

/-- One more member matters only through its value. -/
theorem isReadable_object_insert {before after : List (Key × Tree)} {name : String} {t : Tree}
    {ending : Ending} :
    (Tree.object (before ++ (.text name, t) :: after) ending).isReadable = true ↔
      t.isReadable = true ∧ (Tree.object (before ++ after) ending).isReadable = true := by
  simp only [isReadable_object, List.forall_mem_append, List.forall_mem_cons, ne_eq, reduceCtorEq,
    not_false_eq_true, true_and]
  tauto

/-- One more item matters only through itself. -/
theorem isReadable_array_insert {before after : List Tree} {t : Tree} {ending : Ending} :
    (Tree.array (before ++ t :: after) ending).isReadable = true ↔
      t.isReadable = true ∧ (Tree.array (before ++ after) ending).isReadable = true := by
  simp only [isReadable_array, List.forall_mem_append, List.forall_mem_cons]
  tauto

/-- One more item at the end matters only through itself. -/
theorem isReadable_array_append_singleton {items : List Tree} {t : Tree} {ending : Ending} :
    (Tree.array (items ++ [t]) ending).isReadable = true ↔
      t.isReadable = true ∧ (Tree.array items ending).isReadable = true := by
  rw [isReadable_array_insert, List.append_nil]

end Tree

end QueryGraph.Json
