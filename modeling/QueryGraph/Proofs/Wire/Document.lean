import QueryGraph.Proofs.Wire.Node
import QueryGraph.Wire.Document

namespace QueryGraph.Document

/-!
# Documents read back

* `yields_codec`: the free values in a document that was read can be written.
* `readsBack_codec`: a document is read back if its free values can be written.
* `ofText_text`: what is written for a document that was read is read as the same document.
-/

/-- The free values of the nodes can be written, at most this deep. -/
def Settled (k : Nat) (d : Document) : Prop := ∀ n ∈ d.nodes, n.content.Settled k

/-- The free values of a document that was read can be written. -/
theorem yields_codec (k : Nat) : codec.Yields (k + 6) (Settled k) := by
  refine Record.yields (by simp [Settled, record]) (List.forall_mem_cons.mpr
    ⟨?_, List.forall_mem_cons.mpr ⟨?_, List.forall_mem_singleton.mpr ?_⟩⟩)
  · exact .orDefault (Wire.yields_node.list.field fun _ _ hnodes _ => hnodes)
  · exact .orDefault (Field.keeps_of_set fun _ _ h => h)
  · exact Field.keeps_of_set fun _ _ h => h

/-- A document is read back if its free values can be written. -/
theorem readsBack_codec {k : Nat} {d : Document} (h : d.Settled (k + 1)) :
    codec.ReadsBack (k + 7) d :=
  Record.readsBack (by decide) <|
    .orDefault <| .field (Codec.readsBack_list fun n hn => Wire.readsBack_node (h n hn)) <|
    .orDefault <| .field (Codec.readsBack_list fun e _ => Wire.readsBack_edge e) <|
    .field (Wire.readsBack_context d.context) <|
    .nil d

/-- **Documents read back.**  What is written for a document that was read from some text is read
    as the same document. -/
theorem ofText_text {text : String} {d : Document} (h : ofText text = .ok d) :
    ofText d.text = .ok d := by
  have hsettled : d.Settled 121 := (yields_codec 121).of_decodeText h
  exact (readsBack_codec hsettled).decodeText

/-- A text with its members in another order than they are written, with defaults left out, an
    array for a record, an escape, and keys that are not sorted. -/
def sampleText : String :=
  "\x7b\"nodes\":[\x7b\"config\":\x7b\"conditions\":[\x7b\"field\":\"x\",\"value\":" ++
    "\x7b\"b\":[1],\"a\":\"\\u00e9\"\x7d\x7d]\x7d,\"kind\":\"filter\",\"id\":\"f\"\x7d]," ++
    "\"context\":[\"g\",7]\x7d"

theorem ofText_text_sample :
    ∃ d, ofText sampleText = .ok d ∧ d.nodes.map Node.kind = [.filter] ∧
      ofText d.text = .ok d := by
  have hread : ((ofText sampleText).toOption.map fun d => d.nodes.map Node.kind)
      = some [.filter] := by decide +kernel
  obtain ⟨d, hd, hkinds⟩ := Option.map_eq_some_iff.mp hread
  have hok : ofText sampleText = .ok d := by
    cases h : ofText sampleText with
    | error e => rw [h] at hd; cases hd
    | ok d' => rw [h] at hd; exact congrArg _ (Option.some.inj hd)
  exact ⟨d, hok, hkinds, ofText_text hok⟩

end QueryGraph.Document
