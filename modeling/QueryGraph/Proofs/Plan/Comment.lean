import QueryGraph.Proofs.Node.Comment
import QueryGraph.Proofs.Plan.Spelling

namespace QueryGraph

open Text (EndsOutside Leads Mode SameButComments)

/-!
# Names of nodes stay in comments

* `relates_comments`: the texts of a snapshot and of the renamed one are the same but for their
  comments.
* `names_stay_in_comments`: without its comments, the plan of a renamed snapshot is the renamed
  plan.
-/

/-- The plan with the comments in every query text deleted. -/
def Plan.withoutComments (p : Plan) : Plan := p.mapTexts Text.eraseComments

/-- Neither the old nor the new name of a node that feeds a union has a line feed in it. -/
def UnionsNameLines (nodes : List Node) (edges : List Edge) (f : NodeId → NodeId) : Prop :=
  ∀ e ∈ liveEdges nodes edges, (Node.find? nodes e.target).map Node.kind = some .unionAll →
    '\n' ∉ e.source.text.toList ∧ '\n' ∉ (f e.source).text.toList

instance (nodes : List Node) (edges : List Edge) (f : NodeId → NodeId) :
    Decidable (UnionsNameLines nodes edges f) :=
  inferInstanceAs (Decidable (∀ e ∈ liveEdges nodes edges, _ → _))

section Snapshot

variable {settings : Settings} {context : Context} {nodes : List Node} {edges : List Edge}
  {f : NodeId → NodeId}

/-- Only the names of nodes that feed a union count. -/
theorem UnionsNameLines.congr {h : NodeId → NodeId} (hlines : UnionsNameLines nodes edges f)
    (heq : ∀ id ∈ nodes.map Node.id, h id = f id) : UnionsNameLines nodes edges h := by
  intro e he hkind
  have hlive : e.IsLive nodes := by simpa [liveEdges] using (List.mem_filter.mp he).2
  rw [heq e.source hlive.1]
  exact hlines e he hkind

/-- Renaming nodes relates the texts of both snapshots by their comments: only the headers of unions
    name nodes, and these are comments of one line. -/
theorem relates_comments
    (hnames : ∀ name ∈ configuredNames settings context nodes, EndsOutside name)
    (hlines : UnionsNameLines nodes edges f) :
    Relates settings context nodes edges f (fun _ => SameButComments Mode.IsSettled)
      (fun _ => SameButComments Mode.Outside) where
  composes _ := Text.composes_sameButComments
  along _ _ _ h := h
  framed hn := Content.framed_sameButComments
    (forall_names_of_mem (List.mem_of_find?_eq_some hn) hnames)
  header := by
    intro id n hn hkind i i' hfeeds hi position
    obtain ⟨e, he, hsource, htarget⟩ := hfeeds
    obtain ⟨hold, hnew⟩ := hlines e he (by rw [htarget, hn, Option.map_some, hkind])
    rw [hsource] at hold hnew
    exact UnionAll.sameButComments_header hold (hi.node_eq ▸ hnew) position

end Snapshot

/-- **Names of nodes stay in comments.**  Suppose that the names that queries take over as they
    are each lead a lexer out of all literals and comments that they lead it into, and that the
    old and the new names of nodes that feed unions are on one line.  When the nodes get their
    new names, which are all different, the plan is the renamed plan, and its texts are the same
    but for their comments: those of all fragments, however deep the unions are in them, of all
    programs, and the final one. -/
theorem names_stay_in_comments (settings : Settings) (context : Context) (nodes : List Node)
    (edges : List Edge) (f : NodeId → NodeId)
    (hf : ∀ u ∈ mentionedIds nodes edges, ∀ v ∈ mentionedIds nodes edges, f u = f v → u = v)
    (hnames : ∀ name ∈ configuredNames settings context nodes,
      (Mode.code.after name.toList).isOutside = true)
    (hlines : UnionsNameLines nodes edges f) :
    (compile settings (renameNodes f nodes) (renameEdges f edges) context).withoutComments
      = ((compile settings nodes edges context).rename f).withoutComments := by
  -- The new names are extended to an injective renaming of all ids.
  obtain ⟨h, hinj, hids, hnodes, hedges, hplan⟩ := exists_names nodes edges hf
  have hwhole : ∀ name ∈ configuredNames settings context nodes, EndsOutside name :=
    fun name hname => .of_code (hnames name hname)
  rw [← hplan, ← hnodes, ← hedges]
  exact mapTexts_compile_rename hinj (relates_comments hwhole (hlines.congr hids))
    fun _ _ _ _ hsame => hsame.eraseComments_eq

/-- Unions on two levels, with a filter between them, and a view on all. -/
def nestedUnions : List Node :=
  [⟨⟨"event"⟩, .event ⟨some "start", [⟨"level", .parameter "it's"⟩]⟩⟩, ⟨⟨"inner"⟩, .unionAll⟩,
    ⟨⟨"filter"⟩, .filter ⟨[⟨"level", .eq, .string "-- '"⟩]⟩⟩, ⟨⟨"outer"⟩, .unionAll⟩,
    ⟨⟨"view"⟩, .output ⟨some "all"⟩⟩]

/-- The edges between these nodes. -/
def nestedEdges : List Edge :=
  [⟨none, ⟨"event"⟩, ⟨"inner"⟩, none, none⟩, ⟨none, ⟨"event"⟩, ⟨"inner"⟩, none, none⟩,
    ⟨none, ⟨"inner"⟩, ⟨"filter"⟩, none, none⟩, ⟨none, ⟨"filter"⟩, ⟨"outer"⟩, none, none⟩,
    ⟨none, ⟨"event"⟩, ⟨"outer"⟩, none, none⟩, ⟨none, ⟨"outer"⟩, ⟨"view"⟩, none, none⟩]

/-- Names with quotes, hyphens and parentheses, in headers that the filter has indented. -/
theorem names_stay_in_comments_nested :
    let f : NodeId → NodeId := fun id => ⟨"it's\r ' -- (" ++ id.text⟩
    let p := compile Settings.default nestedUnions nestedEdges ⟨"games", 7⟩
    let p' := compile Settings.default (renameNodes f nestedUnions) (renameEdges f nestedEdges)
      ⟨"games", 7⟩
    (∀ u ∈ mentionedIds nestedUnions nestedEdges, ∀ v ∈ mentionedIds nestedUnions nestedEdges,
        f u = f v → u = v) ∧
      (∀ name ∈ configuredNames Settings.default ⟨"games", 7⟩ nestedUnions,
        (Mode.code.after name.toList).isOutside = true) ∧
      UnionsNameLines nestedUnions nestedEdges f ∧ p.outputs.length = 5 ∧
      p'.finalText ≠ p.finalText ∧ p'.withoutComments = (p.rename f).withoutComments := by
  intro f p p'
  have hf : ∀ u ∈ mentionedIds nestedUnions nestedEdges,
      ∀ v ∈ mentionedIds nestedUnions nestedEdges, f u = f v → u = v := by decide +kernel
  have hnames : ∀ name ∈ configuredNames Settings.default ⟨"games", 7⟩ nestedUnions,
      (Mode.code.after name.toList).isOutside = true := by decide +kernel
  have hlines : UnionsNameLines nestedUnions nestedEdges f := by decide +kernel
  exact ⟨hf, hnames, hlines, by decide +kernel, by decide +kernel,
    names_stay_in_comments Settings.default ⟨"games", 7⟩ nestedUnions nestedEdges f hf hnames
      hlines⟩

/-- A union of an event with itself. -/
def selfUnion (fields : List EventField) : List Node :=
  [⟨⟨"e"⟩, .event ⟨none, fields⟩⟩, ⟨⟨"u"⟩, .unionAll⟩]

/-- The two edges from the event to the union. -/
def selfUnionEdges : List Edge :=
  [⟨none, ⟨"e"⟩, ⟨"u"⟩, none, none⟩, ⟨none, ⟨"e"⟩, ⟨"u"⟩, none, none⟩]

/-- Another name for the event. -/
def renameEvent (name : String) : NodeId → NodeId :=
  fun id => if id = ⟨"e"⟩ then ⟨name⟩ else id

/-- Neither condition can be left out.  A name on two lines leaves its comment; behind a table
    name that begins a literal the second comment is within the literal; and so it is behind a
    column name that begins a comment, if the path next to it is on two lines. -/
theorem names_leave_comments :
    let injective := fun name => ∀ u ∈ mentionedIds (selfUnion []) selfUnionEdges,
      ∀ v ∈ mentionedIds (selfUnion []) selfUnionEdges,
        renameEvent name u = renameEvent name v → u = v
    let plan := fun settings fields =>
      compile settings (selfUnion fields) selfUnionEdges ⟨"g", 7⟩
    let renamed := fun settings fields name =>
      compile settings (renameNodes (renameEvent name) (selfUnion fields))
        (renameEdges (renameEvent name) selfUnionEdges) ⟨"g", 7⟩
    let plain : Settings := { Settings.default with eventsTable := "t", fallbackColumns := ["*"] }
    let quoting : Settings := { plain with eventsTable := "it's" }
    let commenting : Settings := { plain with parametersColumn := "p--" }
    let fields : List EventField := [⟨"f", .parameter "$\n"⟩]
    (injective "a\nb" ∧ (renamed plain [] "a\nb").withoutComments
        ≠ ((plan plain []).rename (renameEvent "a\nb")).withoutComments) ∧
      (injective "a" ∧ (renamed quoting [] "a").withoutComments
        ≠ ((plan quoting []).rename (renameEvent "a")).withoutComments) ∧
      (injective "a" ∧ (renamed commenting fields "a").withoutComments
        ≠ ((plan commenting fields).rename (renameEvent "a")).withoutComments) := by
  intro injective plan renamed plain quoting commenting fields
  -- The plans have other final texts.
  have hline : (renamed plain [] "a\nb").withoutComments.finalText
      ≠ ((plan plain []).rename (renameEvent "a\nb")).withoutComments.finalText := by
    decide +kernel
  have hquote : (renamed quoting [] "a").withoutComments.finalText
      ≠ ((plan quoting []).rename (renameEvent "a")).withoutComments.finalText := by
    decide +kernel
  have hcomment : (renamed commenting fields "a").withoutComments.finalText
      ≠ ((plan commenting fields).rename (renameEvent "a")).withoutComments.finalText := by
    decide +kernel
  exact ⟨⟨by decide +kernel, fun h => hline (congrArg Plan.finalText h)⟩,
    ⟨by decide +kernel, fun h => hquote (congrArg Plan.finalText h)⟩,
    ⟨by decide +kernel, fun h => hcomment (congrArg Plan.finalText h)⟩⟩

end QueryGraph
