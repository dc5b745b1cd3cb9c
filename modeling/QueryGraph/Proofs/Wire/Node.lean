import QueryGraph.Proofs.Codec.Laws
import QueryGraph.Wire.Node

namespace QueryGraph

/-!
# Nodes and edges read back

* `readsBack_…`: each codec of a part of a graph reads what it writes.
* `FilterCondition.Settled k`: a condition whose value can be written, at most `k` deep.
* `readsBack_node`, `yields_node`: a node is read back if its conditions are settled, and the
  conditions of a node that was read are.
-/

/-- The value of the condition is read back if it is written, and nests at most this deep. -/
structure FilterCondition.Settled (k : Nat) (c : FilterCondition) : Prop where
  isCanonical : c.value.IsCanonical
  depth_le : c.value.depth ≤ k

/-- All conditions of the filter are settled. -/
def FilterConfig.Settled (k : Nat) (c : FilterConfig) : Prop := ∀ x ∈ c.conditions, x.Settled k

/-- Free values occur in filters only. -/
def Content.Settled (k : Nat) : Content → Prop
  | .filter c => c.Settled k
  | .event _ | .unionAll | .join _ | .aggregate _ | .output _ => True

namespace Wire

open Codec (ReadsBack readsBack_string readsBack_names readsBack_optional readsBack_list)
open Json (Tree Key)
open Record (Restores)

variable {k : Nat}

/-! ### Enumerations and ids -/

/-- A comparison is written under its first name, which it is read by. -/
theorem readsBack_comparison (c : Comparison) : comparison.ReadsBack k c :=
  readsBack_names (by cases c <;> rfl)

theorem readsBack_joinType (t : JoinType) : joinType.ReadsBack k t :=
  readsBack_names (by cases t <;> rfl)

theorem readsBack_aggregateFunction (f : AggregateFunction) : aggregateFunction.ReadsBack k f :=
  readsBack_names (by cases f <;> rfl)

theorem readsBack_nodeId (id : NodeId) : nodeId.ReadsBack k id :=
  (readsBack_string id.text).convert rfl

theorem readsBack_edgeId (id : EdgeId) : edgeId.ReadsBack k id :=
  (readsBack_string id.text).convert rfl

/-- A text that may be left open is written as `null` if it is. -/
theorem readsBack_optionalString (s : Option String) : Codec.string.optional.ReadsBack k s :=
  readsBack_optional fun x _ => ⟨readsBack_string x, nofun⟩

/-! ### Configurations -/

/-- A source is written with its tag, and with a path if it has one. -/
theorem readsBack_fieldSource (s : FieldSource) : fieldSource.ReadsBack (k + 1) s := by
  cases s with
  | column =>
    exact Codec.readsBack_internallyTagged (a := Codec.bareAlternative "column" .column) rfl
      (by simp) (Nat.zero_le k) rfl
  | parameter path =>
    exact Codec.readsBack_recordAlternative rfl rfl rfl (by decide) (by decide) <|
      .field (readsBack_string path) <|
      .nil path

/-- A field of an event, with its source in it. -/
theorem readsBack_eventField (f : EventField) : eventField.ReadsBack (k + 2) f :=
  Record.readsBack (by decide) <|
    .field (readsBack_string f.name) <|
    .orDefault <| .field (readsBack_fieldSource f.source) <|
    .nil f

/-- The configuration of an event. -/
theorem readsBack_eventConfig (c : EventConfig) : eventConfig.ReadsBack (k + 4) c :=
  Record.readsBack (by decide) <|
    .orDefault <| .field (readsBack_optionalString c.eventName) <|
    .orDefault <| .field (readsBack_list fun f _ => readsBack_eventField f) <|
    .nil c

/-- A condition of a join. -/
theorem readsBack_joinCondition (c : JoinCondition) : joinCondition.ReadsBack (k + 1) c :=
  Record.readsBack (by decide) <|
    .field (readsBack_string c.left) <|
    .orDefault <| .field (readsBack_comparison c.operator) <|
    .field (readsBack_string c.right) <|
    .nil c

/-- The configuration of a join. -/
theorem readsBack_joinConfig (c : JoinConfig) : joinConfig.ReadsBack (k + 3) c :=
  Record.readsBack (by decide) <|
    .orDefault <| .field (readsBack_optional fun t _ => ⟨readsBack_joinType t, nofun⟩) <|
    .orDefault <| .field (readsBack_list fun x _ => readsBack_joinCondition x) <|
    .nil c

/-- An aggregation, whose field may be left open. -/
theorem readsBack_aggregation (a : Aggregation) : aggregation.ReadsBack (k + 1) a :=
  Record.readsBack (by decide) <|
    .field (readsBack_aggregateFunction a.function) <|
    .orDefault <| .field (readsBack_optionalString a.field) <|
    .field (readsBack_string a.name) <|
    .nil a

/-- The configuration of an aggregate. -/
theorem readsBack_aggregateConfig (c : AggregateConfig) : aggregateConfig.ReadsBack (k + 3) c :=
  Record.readsBack (by decide) <|
    .orDefault <| .field (readsBack_list fun s _ => readsBack_string s) <|
    .orDefault <| .field (readsBack_list fun a _ => readsBack_aggregation a) <|
    .nil c

/-- The configuration of an output, written under the first of its keys. -/
theorem readsBack_outputConfig (c : OutputConfig) : outputConfig.ReadsBack (k + 1) c :=
  Record.readsBack (by decide) <|
    .orNamed "destination" <| .orDefault <| .field (readsBack_optionalString c.viewName) <|
    .nil c

/-- A condition of a filter is read back if its value can be written. -/
theorem readsBack_filterCondition {c : FilterCondition} (h : c.Settled k) :
    filterCondition.ReadsBack (k + 1) c :=
  Record.readsBack (by decide) <|
    .field (readsBack_string c.field) <|
    .orDefault <| .field (readsBack_comparison c.operator) <|
    .orDefault <| .field (Codec.readsBack_value h.isCanonical h.depth_le) <|
    .nil c

/-- The configuration of a filter is read back if all its values can be written. -/
theorem readsBack_filterConfig {c : FilterConfig} (h : c.Settled k) :
    filterConfig.ReadsBack (k + 3) c :=
  Record.readsBack (by decide) <|
    .orDefault <| .field (readsBack_list fun x hx => readsBack_filterCondition (h x hx)) <|
    .nil c

/-- The value of a condition that was read can be written, as it was read from a tree. -/
theorem yields_filterCondition : filterCondition.Yields (k + 1) (FilterCondition.Settled k) := by
  refine Record.yields ⟨.null, Nat.zero_le k⟩ (List.forall_mem_cons.mpr
    ⟨?_, List.forall_mem_cons.mpr ⟨?_, List.forall_mem_singleton.mpr ?_⟩⟩)
  · exact Field.keeps_of_set fun _ _ h => ⟨h.isCanonical, h.depth_le⟩
  · exact .orDefault (Field.keeps_of_set fun _ _ h => ⟨h.isCanonical, h.depth_le⟩)
  · exact .orDefault ((Codec.yields_value k).field fun _ _ hv _ => ⟨hv.1, hv.2⟩)

theorem yields_filterConfig : filterConfig.Yields (k + 3) (FilterConfig.Settled k) := by
  refine Record.yields (by simp [FilterConfig.Settled, filterRecord])
    (List.forall_mem_singleton.mpr ?_)
  exact .orDefault (yields_filterCondition.list.field fun _ _ hconditions _ => hconditions)

/-! ### Nodes -/

/-- Whatever kind of configuration was read, its free values can be written. -/
theorem yields_contents : ∀ a ∈ contents, a.Yields (k + 3) (Content.Settled k) := by
  -- Only filters have anything to show.
  have hfree : ∀ {α : Type} {c : Codec α} {kind : Kind} {make : α → Content},
      (∀ a, (make a).Settled k) → (configured c kind make).Yields (k + 3) (Content.Settled k) :=
    fun hmake => Codec.Yields.alternative (Q := fun _ => True) (fun _ _ _ _ _ => trivial)
      fun a _ => hmake a
  intro a ha
  simp only [contents, List.mem_cons, List.not_mem_nil, or_false] at ha
  rcases ha with rfl | rfl | rfl | rfl | rfl | rfl
  · exact hfree fun _ => trivial
  · intro reading payload v _ h
    -- A union is read from `null`, or from an object whose members do not count.
    simp only [unionAllContent] at h
    split at h
    · obtain rfl := Except.ok.inj h
      trivial
    · obtain rfl := Except.ok.inj h
      trivial
    · cases h
  · exact hfree fun _ => trivial
  · exact yields_filterConfig.alternative fun _ h => h
  · exact hfree fun _ => trivial
  · exact hfree fun _ => trivial

/-- The free values of a node that was read can be written. -/
theorem yields_node : node.Yields (k + 4) fun n => n.content.Settled k := by
  intro reading t n hk h
  simp only [node, decodeNode] at h
  split at h
  next members ending =>
    split at h
    · cases h
    · split at h
      · cases h
      next found rest htake =>
        split at h
        · cases h
        next hclosed =>
          split at h
          · cases h
          next id =>
            obtain rfl := Decidable.not_not.mp hclosed
            -- What is left when the id is taken out nests no deeper than all the members did.
            have hrest : Tree.membersDepth rest ≤ k + 3 :=
              (Codec.membersDepth_takeMember htake).trans (Nat.le_of_succ_le_succ hk)
            obtain ⟨c, hcontent, rfl⟩ := exists_of_map_eq_ok h
            exact Codec.Adjacent.yields_decodeMembers yields_contents hrest hcontent
  · cases h

/-- A node is read back if its kind and its configuration, as they are written, are. -/
theorem readsBack_parts (id : NodeId) {content : Content} {parts : List (String × Json)}
    (hencode : encodeNode ⟨id, content⟩ = .object (("id", nodeId.encode id) :: parts))
    (hkeys : ∀ m ∈ parts, m.1 ≠ "id") (hdepth : Json.membersDepth parts ≤ k)
    (hdecode : Codec.Adjacent.decodeMembers "kind" "config" contents .buffered
      (Tree.ofMembers parts) .closed = .ok content) : node.ReadsBack (k + 1) ⟨id, content⟩ := by
  constructor
  · show (encodeNode ⟨id, content⟩).depth ≤ k + 1
    rw [hencode]
    exact Nat.succ_le_succ (Nat.max_le.mpr ⟨Nat.zero_le k, hdepth⟩)
  · intro reading
    -- The id is the first member written, so it is found and taken out at once.
    have htake : Codec.takeMember "id" nodeId.decode reading
        (Tree.ofMembers (("id", nodeId.encode id) :: parts)) none
        = .ok (some id, Tree.ofMembers parts) := by
      rw [Tree.ofMembers, Codec.takeMember, if_pos rfl, (readsBack_nodeId (k := k) id).decode]
      exact Codec.takeMember_ofMembers reading id hkeys
    show decodeNode reading (.ofJson (encodeNode ⟨id, content⟩)) = _
    rw [hencode, Tree.ofJson, decodeNode]
    simp only [htake, hdecode, reduceCtorEq, if_false, ne_eq, not_true_eq_false]
    rfl

/-- A node with a configuration is read back if the configuration is. -/
theorem readsBack_configured (id : NodeId) {α : Type} {c : Codec α} {a : α} {content : Content}
    {make : α → Content} (hencode : encodeConfig content = some (c.encode a))
    (hmake : make a = content)
    (hname : Codec.ofName contents (fun a => [a.name]) content.kind.name
      = .ok (configured c content.kind make))
    (h : c.ReadsBack k a) : node.ReadsBack (k + 1) ⟨id, content⟩ := by
  have hparts : encodeNode ⟨id, content⟩ = .object [("id", nodeId.encode id),
      ("kind", .string content.kind.name), ("config", c.encode a)] := by
    rw [encodeNode, hencode]
    rfl
  refine readsBack_parts id hparts (by simp) ?_ ?_
  · exact Nat.max_le.mpr ⟨Nat.zero_le k, Nat.max_le.mpr ⟨h.depth_le, Nat.zero_le k⟩⟩
  · refine Codec.Adjacent.decodeMembers_pair (by decide) (a := configured c content.kind make) ?_ ?_
    · simp only [Codec.names, Tree.ofJson, Codec.mention, hname, Codec.decodeUnit, if_true]
    · show (c.decode .buffered (.ofJson (c.encode a))).map make = _
      rw [h.decode, Except.map, hmake]

/-- **A node is read back** if its free values are. -/
theorem readsBack_node {n : Node} (h : n.content.Settled (k + 1)) : node.ReadsBack (k + 5) n := by
  obtain ⟨id, content⟩ := n
  cases content with
  | event c => exact readsBack_configured id rfl rfl rfl (readsBack_eventConfig c)
  -- A union is written without a configuration, and read without one.
  | unionAll =>
    have hparts : encodeNode ⟨id, .unionAll⟩
        = .object [("id", nodeId.encode id), ("kind", .string Kind.unionAll.name)] := rfl
    exact readsBack_parts id hparts (by simp) (Nat.zero_le _) rfl
  | join c => exact readsBack_configured id rfl rfl rfl (readsBack_joinConfig c)
  | filter c => exact readsBack_configured id rfl rfl rfl (readsBack_filterConfig h)
  | aggregate c => exact readsBack_configured id rfl rfl rfl (readsBack_aggregateConfig c)
  | output c => exact readsBack_configured id rfl rfl rfl (readsBack_outputConfig c)

/-! ### Edges and surroundings -/

/-- An edge is read back; a part that is left open is not written at all. -/
theorem readsBack_edge (e : Edge) : edge.ReadsBack (k + 1) e :=
  Record.readsBack (by decide) <|
    .hidingNull (by decide) (fun u hu => by obtain rfl := Except.ok.inj hu; rfl)
      (.orDefault <| .field (readsBack_optional fun id _ => ⟨readsBack_edgeId id, nofun⟩) <|
    .field (readsBack_nodeId e.source) <|
    .field (readsBack_nodeId e.target) <|
    .hidingNull (by decide) (fun u hu => by obtain rfl := Except.ok.inj hu; rfl)
      (.orNamed "sourceHandle" <| .orDefault <| .field (readsBack_optionalString e.sourceHandle) <|
    .hidingNull (by decide) (fun u hu => by obtain rfl := Except.ok.inj hu; rfl)
      (.orNamed "targetHandle" <| .orDefault <| .field (readsBack_optionalString e.targetHandle) <|
    .nil e)))

/-- The surroundings of a graph are read back. -/
theorem readsBack_context (c : Context) : context.ReadsBack (k + 1) c :=
  Record.readsBack (by decide) <|
    .field (readsBack_string c.database) <|
    .field (Codec.readsBack_word c.game) <|
    .nil c

end Wire

end QueryGraph
