import QueryGraph.Proofs.Node.Grammar
import QueryGraph.Proofs.Plan.Success

namespace QueryGraph

open Query (isIdentifier IsQueryText IsStatement createView)
open Text (lexemes)

/-!
# The programs of a plan are statements

* `Expressible`: what a node needs, apart from names that are identifiers, to have a place in
  the grammar of queries.
* `Solves.isQueryText`: the fragments of expressible nodes with expressible ancestors are
  queries, unless the nodes are outputs.
* `programs_are_statements`: so each program creates one view from one query.
* `inexpressible_programs`: where a node is not expressible, this can fail, though the plan is
  a success.
-/

/-- A node with something to select, fed by no output, and if it is a union, then by nodes with
    names of one line. -/
structure Expressible (settings : Settings) (nodes : List Node) (edges : List Edge)
    (id : NodeId) : Prop where
  selects : ∀ n, Node.find? nodes id = some n → n.content.Selects settings
  no_output : ∀ e ∈ liveInto nodes edges id, ∀ n, Node.find? nodes e.source = some n →
    n.kind ≠ .output
  one_line : ∀ n, Node.find? nodes id = some n → n.kind = .unionAll →
    ∀ e ∈ liveInto nodes edges id, '\n' ∉ e.source.text.toList

variable {settings : Settings} {context : Context} {nodes : List Node} {edges : List Edge}

/-- A snapshot that is expressible throughout. -/
theorem expressible_of_forall (hselects : ∀ n ∈ nodes, n.content.Selects settings)
    (hedges : ∀ e ∈ edges, ∀ n ∈ nodes, n.id = e.source → n.kind ≠ .output)
    (hids : ∀ n ∈ nodes, '\n' ∉ n.id.text.toList) (id : NodeId) :
    Expressible settings nodes edges id where
  selects n hn := hselects n (List.mem_of_find?_eq_some hn)
  no_output e he n hn := by
    have hedge : e ∈ edges := (List.mem_filter.mp (List.mem_filter.mp he).1).1
    exact hedges e hedge n (List.mem_of_find?_eq_some hn) (by simpa using List.find?_some hn)
  one_line n hn hunion e he := by
    -- The source of a live edge is a node of the snapshot.
    obtain ⟨m, hm, hid⟩ := List.mem_map.mp (isLive_of_mem_liveInto he).1.1
    exact hid ▸ hids m hm

/-! ### Queries along the edges -/

/-- The inputs of an expressible node are queries if the fragments are that feed it. -/
theorem Expressible.isQueryText_inputs {o : Outcomes} {id : NodeId}
    (h : Expressible settings nodes edges id)
    (hsources : ∀ e ∈ liveInto nodes edges id, ∀ n f, Node.find? nodes e.source = some n →
      n.kind ≠ .output → o.output? e.source = some f → IsQueryText f.text) :
    ∀ i ∈ o.inputs (liveInto nodes edges id), IsQueryText i.text := by
  intro i hi
  obtain ⟨e, he, -, hf⟩ := Outcomes.exists_of_mem_inputs hi
  obtain ⟨n, hn⟩ := exists_find?_source he
  exact hsources e he n i.fragment hn (h.no_output e he n hn) hf

/-- In a solution the fragment of a node is a query, if the node and all its ancestors are
    expressible and it is no output. -/
theorem Solves.isQueryText {o : Outcomes} (h : Solves settings context nodes edges o)
    (hacyclic : Acyclic nodes edges)
    (hnames : ∀ name ∈ configuredNames settings context nodes, isIdentifier name = true)
    {id : NodeId} (hexpressible : ∀ u, Relation.ReflTransGen (Feeds nodes edges) u id →
      Expressible settings nodes edges u)
    {n : Node} (hn : Node.find? nodes id = some n) (hkind : n.kind ≠ .output) {f : Fragment}
    (hf : o.output? id = some f) : IsQueryText f.text := by
  -- The induction goes along the edges, which an acyclic snapshot allows.
  induction id using (wellFounded_feeds_iff.mpr hacyclic).induction generalizing n f with
  | _ id ih =>
    have hself := hexpressible id .refl
    -- What leads to a source leads to the node, so the sources have expressible ancestors.
    have hinputs := hself.isQueryText_inputs fun e he m g hm hm_kind hg => by
      have hfeeds := feeds_iff.mpr ⟨e, he, rfl⟩
      exact ih e.source hfeeds (fun u hu => hexpressible u (hu.tail hfeeds)) hm hm_kind hg
    obtain ⟨n', hn', hdue⟩ := h.due_of_output hf
    obtain rfl : n = n' := Option.some.inj (hn.symm.trans hn')
    refine Node.isQueryText_of_compile (Outcomes.compile_of_due hdue).2
      (forall_names_of_mem (List.mem_of_find?_eq_some hn) hnames) hkind (hself.selects n hn)
      (fun hunion i hi => ?_) hinputs
    obtain ⟨e, he, hnode, -⟩ := Outcomes.exists_of_mem_inputs hi
    exact hnode ▸ hself.one_line n hn hunion e he

/-! ### Programs -/

/-- An abandoned plan has no programs. -/
theorem acyclic_of_mem_programs {program : NodeId × String}
    (h : program ∈ (compile settings nodes edges context).programs) : Acyclic nodes edges := by
  by_contra hacyclic
  rw [compile_of_not_acyclic settings context hacyclic] at h
  exact absurd h List.not_mem_nil

/-- A program is the fragment of an output. -/
theorem exists_output_of_mem_programs {program : NodeId × String}
    (h : program ∈ (compile settings nodes edges context).programs) :
    ∃ n f, Node.find? nodes program.1 = some n ∧ n.kind = .output ∧
      (compile settings nodes edges context).output? program.1 = some f ∧
      program.2 = f.text := by
  obtain ⟨order, -, hcompile⟩ :=
    compile_of_acyclic settings context (acyclic_of_mem_programs h)
  rw [hcompile] at h ⊢
  obtain ⟨id, hid, hprogram⟩ := List.mem_filterMap.mp h
  obtain ⟨f, hf, rfl⟩ := Option.map_eq_some_iff.mp hprogram
  -- Programs are listed for sinks, and of these there is one kind.
  have hterminal := (List.mem_filter.mp hid).2
  rw [isTerminal, Bool.and_eq_true] at hterminal
  cases hn : Node.find? nodes id with
  | none => simp [hn] at hterminal
  | some n =>
    rw [hn] at hterminal
    exact ⟨n, f, rfl, n.kind.isSink_iff.mp hterminal.1, hf, rfl⟩

/-- **Programs are statements.**  Let all names that queries take over be identifiers.  A program
    whose node and all its ancestors are expressible is a single statement that creates a view
    from a query, and nothing within the query creates another one.  Nothing is asked of the
    rest of the snapshot, which may have failed. -/
theorem programs_are_statements (settings : Settings) (context : Context) (nodes : List Node)
    (edges : List Edge)
    (hnames : ∀ name ∈ configuredNames settings context nodes, isIdentifier name = true) :
    let p := compile settings nodes edges context
    ∀ program ∈ p.programs,
      (∀ u, Relation.ReflTransGen (Feeds nodes edges) u program.1 →
        Expressible settings nodes edges u) →
      IsStatement (lexemes program.2) ∧ createView <+: lexemes program.2 ∧
        ¬ createView <:+: (lexemes program.2).tail := by
  intro p program hprogram hexpressible
  have hacyclic := acyclic_of_mem_programs hprogram
  have hsolves := solves_compile settings context hacyclic
  obtain ⟨n, f, hn, hkind, hf, htext⟩ := exists_output_of_mem_programs hprogram
  -- The output itself makes no query, but all that comes before it does.
  have hinputs := (hexpressible program.1 .refl).isQueryText_inputs fun e he m g hm hm_kind hg => by
    have hfeeds := feeds_iff.mpr ⟨e, he, rfl⟩
    exact hsolves.isQueryText hacyclic hnames (fun u hu => hexpressible u (hu.tail hfeeds)) hm
      hm_kind hg
  obtain ⟨n', hn', hdue⟩ := hsolves.due_of_output hf
  obtain rfl : n = n' := Option.some.inj (hn.symm.trans hn')
  have hstatement : IsStatement (lexemes f.text) :=
    Node.isStatement_of_compile (Outcomes.compile_of_due hdue).2
      (forall_names_of_mem (List.mem_of_find?_eq_some hn) hnames) hkind hinputs
  rw [htext]
  exact ⟨hstatement, hstatement.opens_once⟩

/-- An event, a filter of it, the union and the join of both, groups of these and a view. -/
def layeredNodes : List Node :=
  [⟨⟨"event"⟩, .event ⟨some "CREATE OR REPLACE VIEW", [⟨"level", .parameter "a.level"⟩,
      ⟨"user", .column⟩]⟩⟩,
    ⟨⟨"filter"⟩, .filter ⟨[⟨"user", .notInSet, .array [.string "CREATE OR", .null]⟩]⟩⟩,
    ⟨⟨"CREATE OR"⟩, .unionAll⟩,
    ⟨⟨"join"⟩, .join ⟨some .full, [⟨"l.user", .eq, "r.user"⟩, ⟨"l.level", .isNull, ""⟩]⟩⟩,
    ⟨⟨"groups"⟩, .aggregate ⟨["level"], [⟨.countDistinct, some "user", "CREATE"⟩]⟩⟩,
    ⟨⟨"view"⟩, .output ⟨some " OR "⟩⟩]

/-- The edges between these nodes. -/
def layeredEdges : List Edge :=
  [⟨none, ⟨"event"⟩, ⟨"filter"⟩, none, none⟩, ⟨none, ⟨"event"⟩, ⟨"CREATE OR"⟩, none, none⟩,
    ⟨none, ⟨"filter"⟩, ⟨"CREATE OR"⟩, none, none⟩, ⟨none, ⟨"CREATE OR"⟩, ⟨"join"⟩, none, none⟩,
    ⟨none, ⟨"filter"⟩, ⟨"join"⟩, none, none⟩, ⟨none, ⟨"join"⟩, ⟨"groups"⟩, none, none⟩,
    ⟨none, ⟨"groups"⟩, ⟨"view"⟩, none, none⟩]

/-- A statement with every kind of node in it, and with the words that create a view in names, in
    literals and in comments. -/
theorem programs_are_statements_layered :
    let p := compile Settings.default layeredNodes layeredEdges ⟨"games", 7⟩
    p.success = true ∧ p.programs.length = 1 ∧ ∀ program ∈ p.programs,
      IsStatement (lexemes program.2) ∧ createView <+: lexemes program.2 ∧
        ¬ createView <:+: (lexemes program.2).tail := by
  intro p
  have hnames : ∀ name ∈ configuredNames Settings.default ⟨"games", 7⟩ layeredNodes,
      isIdentifier name = true := by decide +kernel
  have hexpressible := @expressible_of_forall Settings.default layeredNodes layeredEdges
    (by decide) (by decide) (by decide)
  exact ⟨by decide +kernel, by decide +kernel, fun program hprogram =>
    programs_are_statements Settings.default ⟨"games", 7⟩ layeredNodes layeredEdges hnames
      program hprogram fun u _ => hexpressible u⟩

/-- Settings without columns to fall back on. -/
def bareSettings : Settings :=
  { Settings.default with eventsTable := "e", fallbackColumns := [] }

/-- Three ways in which a node is not expressible: an event that selects nothing, an output that
    feeds another one, and a union of nodes whose names have two lines. -/
def inexpressible : List (List Node × List Edge) :=
  [([⟨⟨"event"⟩, .event ⟨none, []⟩⟩, ⟨⟨"view"⟩, .output ⟨some "v"⟩⟩],
      [⟨none, ⟨"event"⟩, ⟨"view"⟩, none, none⟩]),
    ([⟨⟨"event"⟩, .event ⟨none, [⟨"c", .column⟩]⟩⟩, ⟨⟨"inner"⟩, .output ⟨some "u"⟩⟩,
        ⟨⟨"outer"⟩, .output ⟨some "v"⟩⟩],
      [⟨none, ⟨"event"⟩, ⟨"inner"⟩, none, none⟩, ⟨none, ⟨"inner"⟩, ⟨"outer"⟩, none, none⟩]),
    ([⟨⟨"a\nb"⟩, .event ⟨none, [⟨"c", .column⟩]⟩⟩, ⟨⟨"union"⟩, .unionAll⟩,
        ⟨⟨"view"⟩, .output ⟨some "v"⟩⟩],
      [⟨none, ⟨"a\nb"⟩, ⟨"union"⟩, none, none⟩, ⟨none, ⟨"a\nb"⟩, ⟨"union"⟩, none, none⟩,
        ⟨none, ⟨"union"⟩, ⟨"view"⟩, none, none⟩])]

/-- In all three of them the names are identifiers, and the compilation is a success, but the
    program is not a statement. -/
theorem inexpressible_programs :
    inexpressible.Forall fun (nodes, edges) =>
      (∀ name ∈ configuredNames bareSettings ⟨"g", 7⟩ nodes, isIdentifier name = true) ∧
        (compile bareSettings nodes edges ⟨"g", 7⟩).success = true ∧
        ∃ program ∈ (compile bareSettings nodes edges ⟨"g", 7⟩).programs,
          ¬ IsStatement (lexemes program.2) := by
  -- What is behind `AS` would have to be long enough, and to select something.
  have hform : ∀ ls, IsStatement ls →
      4 ≤ (ls.drop 6).length ∧
        ((ls.drop 6).dropWhile (· = .comment)).head? = some (.word "SELECT") := by
    rintro _ ⟨space, view, q, -, -, hq, rfl⟩
    exact ⟨hq.length_le, hq.selects⟩
  have hchecked : ∀ snapshot ∈ inexpressible,
      (∀ name ∈ configuredNames bareSettings ⟨"g", 7⟩ snapshot.1, isIdentifier name = true) ∧
        (compile bareSettings snapshot.1 snapshot.2 ⟨"g", 7⟩).success = true ∧
        ∃ program ∈ (compile bareSettings snapshot.1 snapshot.2 ⟨"g", 7⟩).programs,
          ¬ (4 ≤ ((lexemes program.2).drop 6).length ∧
            (((lexemes program.2).drop 6).dropWhile (· = .comment)).head?
              = some (.word "SELECT")) := by decide +kernel
  rw [List.forall_iff_forall_mem]
  intro snapshot hsnapshot
  obtain ⟨hnames, hsuccess, program, hprogram, hnot⟩ := hchecked snapshot hsnapshot
  exact ⟨hnames, hsuccess, program, hprogram, fun h => hnot (hform _ h)⟩

end QueryGraph
