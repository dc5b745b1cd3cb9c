import Mathlib.Logic.Function.Iterate
import QueryGraph.Proofs.Node.Literal
import QueryGraph.Proofs.Plan.Success

namespace QueryGraph

open scoped List

/-!
# Literals in the fragments of a plan

* `Nests`: a walk of live edges, with the number of times that it indents what it starts with.
* `Solves.piece_infix`: what is quoted at the start of a walk is in the fragment at its end,
  indented that many times.
* `one_line_literal_survives`: so literals without line feeds come through unchanged.
* `two_line_literal_is_moved`: others do not.
-/

/-- A walk of live edges, and how many of the nodes that it comes to indent their inputs. -/
inductive Nests (nodes : List Node) (edges : List Edge) (u : NodeId) : NodeId → Nat → Prop
  | start : Nests nodes edges u u 0
  | step {v w : NodeId} {n : Node} {depth : Nat} (hwalk : Nests nodes edges u v depth)
      (hfeeds : Feeds nodes edges v w) (hn : Node.find? nodes w = some n) :
      Nests nodes edges u w (if n.kind.indents then depth + 1 else depth)

variable {settings : Settings} {context : Context} {nodes : List Node} {edges : List Edge}

/-- What a node leads to is at the end of a walk, which indents it some number of times. -/
theorem exists_nests {u v : NodeId} (h : Relation.ReflTransGen (Feeds nodes edges) u v) :
    ∃ depth, Nests nodes edges u v depth := by
  induction h with
  | refl => exact ⟨0, .start⟩
  | tail _ hfeeds ih =>
    obtain ⟨depth, hwalk⟩ := ih
    obtain ⟨e, he, -⟩ := feeds_iff.mp hfeeds
    obtain ⟨n, hn⟩ := exists_find?_target he
    exact ⟨_, .step hwalk hfeeds hn⟩

/-- What is enclosed in a solid character still is, however often it is indented. -/
theorem Text.Enclosed.iterate {c : Char} {cs : List Char} (hc : Text.IsSolid c)
    (h : Text.Enclosed c cs) (depth : Nat) : Text.Enclosed c (Text.indentInside^[depth] cs) := by
  induction depth with
  | zero => exact h
  | succ depth ih =>
    rw [Function.iterate_succ_apply']
    exact ih.indentInside hc

/-- What is quoted in the fragment at the start of a walk is in the fragment at its end; every
    node on the way that indents its inputs has moved the lines once. -/
theorem Solves.piece_infix {o : Outcomes} (h : Solves settings context nodes edges o)
    {u v : NodeId} {depth : Nat} (hwalk : Nests nodes edges u v depth) {f : Fragment}
    (hf : o.output? v = some f) :
    ∃ g, o.output? u = some g ∧ ∀ piece, Text.Enclosed '\'' piece →
      piece <:+: g.text.toList → Text.indentInside^[depth] piece <:+: f.text.toList := by
  induction hwalk generalizing f with
  | start => exact ⟨f, hf, fun _ _ hpiece => hpiece⟩
  | @step v w n depth _ hfeeds hn ih =>
    obtain ⟨n', inputs, hn', hcompile, hinputs⟩ := h.exists_compile hf
    obtain rfl : n = n' := Option.some.inj (hn.symm.trans hn')
    obtain ⟨e, he, rfl⟩ := feeds_iff.mp hfeeds
    -- A node with a fragment has one for each of its inputs, the one on the walk among them.
    obtain ⟨f', hf', hmem⟩ := hinputs e he
    obtain ⟨g, hg, hpieces⟩ := ih hf'
    refine ⟨g, hg, fun piece hpiece hin => ?_⟩
    have henclosed := hpiece.iterate Text.isSolid_quote depth
    -- What the node does to the moved piece is one more step, or none.
    have hnext := Node.input_infix hcompile hmem henclosed (hpieces piece hpiece hin)
    by_cases hindents : n.kind.indents = true
    · rw [if_pos hindents] at hnext ⊢
      rwa [Function.iterate_succ_apply']
    · rwa [if_neg hindents] at hnext ⊢

/-- **Literals of one line survive nesting.**  The literal of a text that a filter compares with,
    or of the name of an event, is in the fragment of every node that its node leads to, as it
    was written if the text has no line feed.  Whatever the text, indentation is all that
    happens to it: once for every join, filter or aggregate on the way. -/
theorem one_line_literal_survives (settings : Settings) (context : Context) (nodes : List Node)
    (edges : List Edge) :
    let p := compile settings nodes edges context
    ∀ u n s, Node.find? nodes u = some n → n.content.Quotes s →
      ∀ v f, p.output? v = some f →
        ('\n' ∉ s.toList → Relation.ReflTransGen (Feeds nodes edges) u v →
          (Text.quote s).toList <:+: f.text.toList) ∧
        ∀ depth, Nests nodes edges u v depth →
          Text.indentInside^[depth] (Text.quote s).toList <:+: f.text.toList := by
  intro p u n s hn hquotes v f hf
  by_cases hacyclic : Acyclic nodes edges
  · have h := solves_compile settings context hacyclic
    have hnested : ∀ depth, Nests nodes edges u v depth →
        Text.indentInside^[depth] (Text.quote s).toList <:+: f.text.toList := by
      intro depth hwalk
      -- The fragment at the start of the walk quotes the text, so the rest is about what is
      -- quoted.
      obtain ⟨g, hg, hpieces⟩ := h.piece_infix hwalk hf
      obtain ⟨n', inputs, hn', hcompile, -⟩ := h.exists_compile hg
      obtain rfl : n = n' := Option.some.inj (hn.symm.trans hn')
      exact hpieces _ (Text.enclosed_quote s) (Node.quote_infix hcompile hquotes)
    refine ⟨fun hfeed hleads => ?_, hnested⟩
    obtain ⟨depth, hwalk⟩ := exists_nests hleads
    have hfixed := Text.indentInside_of_no_feed (Text.feed_not_mem_quote hfeed)
    -- Indentation has nothing to move in a literal of one line, however often it comes.
    have hpiece := hnested depth hwalk
    rwa [Function.iterate_fixed hfixed] at hpiece
  · -- An abandoned plan has no fragments.
    rw [show p = _ from compile_of_not_acyclic settings context hacyclic] at hf
    simp [Plan.output?, Plan.aborted] at hf

/-- An event with a name, and a filter that lets it through. -/
def filteredEvent (name : String) : List Node × List Edge :=
  ([⟨⟨"kept"⟩, .filter ⟨[]⟩⟩, ⟨⟨"event"⟩, .event ⟨some name, []⟩⟩],
    [⟨none, ⟨"event"⟩, ⟨"kept"⟩, none, none⟩])

/-- The event leads to the filter. -/
theorem filteredEvent_leads (name : String) :
    Relation.ReflTransGen (Feeds (filteredEvent name).1 (filteredEvent name).2)
      ⟨"event"⟩ ⟨"kept"⟩ :=
  .single ⟨⟨none, ⟨"event"⟩, ⟨"kept"⟩, none, none⟩,
    by simp [liveEdges, filteredEvent, Edge.IsLive], rfl, rfl⟩

/-- A name with a quote and a carriage return comes through the filter. -/
theorem one_line_literal_survives_filtered :
    let s := "it's\r here"
    let p := compile Settings.default (filteredEvent s).1 (filteredEvent s).2 ⟨"games", 7⟩
    ∃ f, p.output? ⟨"kept"⟩ = some f ∧ (Text.quote s).toList <:+: f.text.toList := by
  intro s p
  have hsome : (p.output? ⟨"kept"⟩).isSome := by decide +kernel
  obtain ⟨f, hf⟩ := Option.isSome_iff_exists.mp hsome
  have hsurvives := one_line_literal_survives Settings.default ⟨"games", 7⟩ (filteredEvent s).1
    (filteredEvent s).2 ⟨"event"⟩ ⟨⟨"event"⟩, .event ⟨some s, []⟩⟩ s rfl
    (by unfold Content.Quotes; decide +kernel) ⟨"kept"⟩ f hf
  exact ⟨f, hf, hsurvives.1 (by decide) (filteredEvent_leads s)⟩

/-- The filter moves the second line of a name, so that the literal of the event is lost. -/
theorem two_line_literal_is_moved :
    let s := "two\nlines"
    let settings : Settings :=
      { Settings.default with fallbackColumns := [], eventsTable := "e", subqueryAlias := "s" }
    let p := compile settings (filteredEvent s).1 (filteredEvent s).2 ⟨"g", 7⟩
    ∃ n f g, Node.find? (filteredEvent s).1 ⟨"event"⟩ = some n ∧ n.content.Quotes s ∧
      p.output? ⟨"event"⟩ = some g ∧
      Relation.ReflTransGen (Feeds (filteredEvent s).1 (filteredEvent s).2)
        ⟨"event"⟩ ⟨"kept"⟩ ∧
      p.output? ⟨"kept"⟩ = some f ∧ ¬ (Text.quote s).toList <:+: f.text.toList := by
  intro s settings p
  have hcompiled : (p.output? ⟨"event"⟩).isSome := by decide +kernel
  obtain ⟨g, hg⟩ := Option.isSome_iff_exists.mp hcompiled
  -- The literal is looked for in the text of the filter, and not found.
  have hlost : ((p.output? ⟨"kept"⟩).any fun f =>
      !decide ((Text.quote s).toList <:+: f.text.toList)) = true := by decide +kernel
  obtain ⟨f, hf, hmoved⟩ := (Option.any_eq_true _ _).mp hlost
  have hnot : ¬ (Text.quote s).toList <:+: f.text.toList := by simpa using hmoved
  exact ⟨⟨⟨"event"⟩, .event ⟨some s, []⟩⟩, f, g, rfl,
    by unfold Content.Quotes; decide +kernel, hg, filteredEvent_leads s, hf, hnot⟩

end QueryGraph
