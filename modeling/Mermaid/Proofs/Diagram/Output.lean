import Mermaid.Diagram.Output
import Mermaid.Proofs.Diagram.Record
import Mermaid.Proofs.Json.Ascii

/-! What is shown of diagrams. As JSON, nothing of them is lost. -/
namespace Mermaid

theorem Diagram.exists_record_obj (d : Diagram) : ∃ fields, d.record = .obj fields := by
  cases d <;> exact ⟨_, rfl⟩

/-- A diagram's JSON is ASCII with one line feed at its end. It is read as the record of the diagram, and
the diagram is what is made of the record; so no other diagram has the same text. -/
theorem render_json_lossless (d : Diagram) (hd : d.NamesDistinct) :
    ∃ body, d.render .json = .ok (body ++ "\n") ∧
      Json.Ascii (body ++ "\n").toList ∧ body.toList.getLast? = some '\x7d' ∧
      Json.read? (body ++ "\n") = some d.record ∧ Diagram.ofRecord? d.record = some d ∧
      ∀ d' : Diagram, d'.NamesDistinct → d'.render .json = d.render .json → d' = d := by
  have hread : Json.read? (d.record.render ++ "\n") = some d.record :=
    Json.read?_render (d.distinct_record hd)
  refine ⟨d.record.render, rfl, ?_, ?_, hread, Diagram.ofRecord?_record d, fun d' hd' hsame => ?_⟩
  · rw [String.toList_append]
    exact (Json.ascii_render d.record).append (by decide)
  · obtain ⟨fields, hfields⟩ := d.exists_record_obj
    rw [hfields]
    exact Json.getLast?_render_obj fields
  · have htext : d'.record.render ++ "\n" = d.record.render ++ "\n" := Except.ok.inj hsame
    have hrecord : some d'.record = some d.record := by
      rw [← hread, ← htext, Json.read?_render (d'.distinct_record hd')]
    have hdiagram : some d' = some d := by
      rw [← Diagram.ofRecord?_record d', Option.some.inj hrecord, Diagram.ofRecord?_record d]
    exact Option.some.inj hdiagram

/-- Marks, a control character and one beyond the Basic Multilingual Plane, in subgraphs within one
another. -/
def nestedDiagram : Diagram := .flowchart
  { nodes := ⟨[("A", { id := "A", text := "\"go\"\\\x00\n\x7f😀", shape := .rhombus, line := 3 }),
      ("é", .bare "é" (-1))]⟩
    edges := [{ source := "A", target := "é", label := some "" }]
    subgraphs := [
      { id := "S"
        title := some "\t"
        children := [
          { id := "T", direction := some .leftRight, hasCustomDirection := false,
            members := ["A", "é"] }] }] }

theorem render_json_lossless_nestedDiagram :
    nestedDiagram.NamesDistinct ∧
    ∃ body, nestedDiagram.render .json = .ok (body ++ "\n") ∧
      Json.Ascii (body ++ "\n").toList ∧ body.toList.getLast? = some '\x7d' ∧
      Json.read? (body ++ "\n") = some nestedDiagram.record ∧
      Diagram.ofRecord? nestedDiagram.record = some nestedDiagram ∧
      ∀ d' : Diagram, d'.NamesDistinct → d'.render .json = nestedDiagram.render .json →
        d' = nestedDiagram := by
  have hnames : nestedDiagram.NamesDistinct := by decide
  exact ⟨hnames, render_json_lossless nestedDiagram hnames⟩

end Mermaid
