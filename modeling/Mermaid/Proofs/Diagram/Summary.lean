import Mermaid.Diagram.Output
import Mermaid.Proofs.Diagram.Integrity
import Mermaid.Proofs.Diagram.Sightings
import Mermaid.Proofs.Flowchart.Subgraphs
import Mermaid.Proofs.Json.Ascii

/-! What is shown of the diagram of a text holds no control sequence, but where the title of a class diagram
has one, and no control character at all that the title does not hold. -/
namespace Mermaid
open Text

section
variable {d : Char} (hd : Control d)
include hd

theorem lacks_of_identifier {text : String} {t : Token} (ht : t ∈ scan text) (hkind : t.kind = .identifier) :
    Lacks d t.lexeme := by
  intro hmem
  rcases List.mem_append.mp ht with htoken | hend
  swap
  · rw [List.mem_singleton.mp hend] at hkind
    cases hkind
  rcases Stream.inWord_of_identifier htoken hkind _ hmem with hword | rfl | rfl
  · rw [hd.hidden.2] at hword
    cases hword
  · exact absurd hd (by decide)
  · exact absurd hd (by decide)

theorem Provenance.lacks {α β : Type} {text : String} {sightings : List (Sighting α)} {name : β → String}
    {line : β → Int} {r : Registry β} (h : Provenance (scan text) sightings name line r)
    (hkeyed : r.Keyed name) : ∀ key ∈ r.keys, Lacks d key := by
  rw [← hkeyed.map_values, List.forall_mem_map]
  intro b hb
  obtain ⟨t, ht, hkind, hname, -⟩ := h.origin b hb
  rw [← hname]
  exact lacks_of_identifier hd ht hkind

namespace Summary

theorem lacks_quotedLabel (label : Option String) : Lacks d (quotedLabel label) := by
  rw [quotedLabel.eq_def]
  split
  · exact List.not_mem_nil
  · exact List.not_mem_nil
  · exact lacks_append.mpr ⟨lacks_of_legible hd (by decide), lacks_quote hd _⟩

theorem lacks_countLine {what : String} (h : Legible what.toList) (n : Nat) : Lacks d (countLine what n) := by
  rw [countLine, lacks_append, lacks_append]
  exact ⟨⟨lacks_of_legible hd h, lacks_of_legible hd (by decide)⟩, lacks_toString hd n⟩

theorem lacks_ends {source target : String} (hsource : Lacks d source) (htarget : Lacks d target) :
    Lacks d (ends source target) := by
  simp only [ends, lacks_append]
  exact ⟨⟨⟨hsource, lacks_of_legible hd (by decide)⟩, htarget⟩, lacks_of_legible hd (by decide)⟩

end Summary

namespace Flowchart
open Summary

theorem lacks_nodeLine {n : Node} (h : Lacks d n.id) : Lacks d (nodeLine n) := by
  have hshape : ∀ shape : NodeShape, Legible shape.name.toList := by
    intro shape
    cases shape <;> decide
  simp only [nodeLine, lacks_append]
  exact ⟨⟨⟨⟨⟨lacks_of_legible hd (by decide), h⟩, lacks_of_legible hd (by decide)⟩,
    lacks_of_legible hd (hshape _)⟩, lacks_of_legible hd (by decide)⟩, lacks_quote hd _⟩

theorem lacks_edgeLine {e : Edge} (hsource : Lacks d e.source) (htarget : Lacks d e.target) :
    Lacks d (edgeLine e) := by
  have hstyle : ∀ style : EdgeStyle, Legible style.name.toList := by
    intro style
    cases style <;> decide
  have hhead : ∀ head : ArrowHead, Legible head.name.toList := by
    intro head
    cases head <;> decide
  simp only [edgeLine, lacks_append]
  exact ⟨⟨⟨⟨⟨lacks_of_legible hd (by decide), lacks_ends hd hsource htarget⟩,
    lacks_of_legible hd (hstyle _)⟩, lacks_of_legible hd (by decide)⟩, lacks_of_legible hd (hhead _)⟩,
    lacks_quotedLabel hd _⟩

theorem lacks_groupLine {id : String} {members : List String} (h : Lacks d id)
    (hmembers : ∀ m ∈ members, Lacks d m) : Lacks d (groupLine id members) := by
  simp only [groupLine, lacks_append]
  exact ⟨⟨⟨lacks_of_legible hd (by decide), h⟩, lacks_of_legible hd (by decide)⟩,
    lacks_intercalate (lacks_of_legible hd (by decide)) hmembers⟩

omit hd in
theorem exists_summary {c : Flowchart} (h : c.Integrity) : ∃ lines, c.summary = .ok lines := by
  obtain ⟨g, hg, -⟩ := DiagramGraph.exists_ofFlowchart h
  exact ⟨_, by rw [summary, hg]; rfl⟩

/-- Nothing in the summary of a chart with integrity but its nodes and its subgraphs is named by a text. -/
theorem lacks_summary {c : Flowchart} (hc : c.Integrity) (hnodes : ∀ id ∈ c.nodes.keys, Lacks d id)
    (hsubgraphs : ∀ s ∈ c.allSubgraphs, Lacks d s.id) {lines : List String} (h : c.summary = .ok lines) :
    ∀ line ∈ lines, Lacks d line := by
  obtain ⟨g, hg, -⟩ := DiagramGraph.exists_ofFlowchart hc
  have hgroups : ∀ group ∈ g.groups, Lacks d (groupLine group.1 group.2) := by
    intro group hgroup
    rw [DiagramGraph.groups_ofFlowchart hg] at hgroup
    obtain ⟨s, hs, rfl⟩ := List.mem_map.mp hgroup
    obtain ⟨t, ht, hst⟩ := Subgraph.mem_unfold.mp hs
    exact lacks_groupLine hd (hsubgraphs s hs) fun m hm => hnodes m ((hc.subgraphs t ht s hst).members hm)
  have hdirection : ∀ direction : Direction, Legible direction.name.toList := by
    intro direction
    cases direction <;> decide
  rw [summary, hg] at h
  obtain rfl := Except.ok.inj h
  simp only [List.forall_mem_append, List.forall_mem_map, List.forall_mem_cons]
  refine ⟨⟨⟨⟨⟨?_, ?_, ?_, ?_, ?_, List.forall_mem_nil _⟩, fun n hn => ?_⟩, fun e he => ?_⟩, hgroups⟩, ?_,
    List.forall_mem_nil _⟩
  · exact lacks_append.mpr ⟨lacks_of_legible hd (by decide), lacks_of_legible hd (hdirection _)⟩
  · exact lacks_countLine hd (by decide) _
  · exact lacks_countLine hd (by decide) _
  · exact lacks_countLine hd (by decide) _
  · rw [lacks_append]
    split <;> exact ⟨lacks_of_legible hd (by decide), lacks_of_legible hd (by decide)⟩
  · refine lacks_nodeLine hd (hnodes _ ?_)
    rw [← hc.nodes.map_values]
    exact List.mem_map_of_mem hn
  · exact lacks_edgeLine hd (hnodes _ (hc.edges e he).1) (hnodes _ (hc.edges e he).2)
  · exact lacks_countLine hd (by decide) _

theorem lacks_nodes (limit : Limit) (text : String) :
    ∀ id ∈ (ofStreamWithin limit (.ofText text)).nodes.keys, Lacks d id := by
  have hkeyed := (integrity_ofStreamWithin limit (.ofText text)).nodes
  exact Provenance.lacks hd (provenance (fun h => h.spec) (fun h => h.1)
    (Grammar.sights_document limit.depth (List.suffix_refl _)) (follows_ofStreamWithin limit _) hkeyed) hkeyed

/-- Subgraphs are named by identifiers. -/
theorem lacks_subgraphs (limit : Limit) (text : String) :
    ∀ s ∈ (ofStreamWithin limit (.ofText text)).allSubgraphs, Lacks d s.id := by
  intro x hx
  have hcourse := Grammar.traces_heads limit.depth (s := .ofText text) _ (List.suffix_refl _)
  have hid := ids_ofReply_subset limit.reason ((Grammar.sound_document limit.depth).events _ _)
    (List.mem_map_of_mem hx)
  obtain ⟨us, front, t, back, after, @⟨_, name, -, hkind, hname⟩, rfl, hsuffix⟩ := hcourse.exists_at _ hid
  have hmem : name ∈ (Stream.ofText text).tokens := hsuffix.subset (by simp)
  rw [hname]
  exact lacks_of_identifier hd (List.mem_append_left _ hmem) hkind

end Flowchart

namespace ClassDiagram
open Summary

/-- Nothing in the summary of a class diagram with integrity but its classes and its title is named by a
text. -/
theorem lacks_summary {diagram : ClassDiagram} (hdiagram : diagram.Integrity)
    (hclasses : ∀ name ∈ diagram.classes.keys, Lacks d name)
    (htitle : ∀ title ∈ diagram.title, Lacks d title) : ∀ line ∈ diagram.summary, Lacks d line := by
  have htype : ∀ type : RelationType, Legible type.name.toList := by
    intro type
    cases type <;> decide
  simp only [summary, List.forall_mem_append, List.forall_mem_map, List.forall_mem_cons]
  refine ⟨⟨⟨⟨⟨lacks_of_legible hd (by decide), fun line hline => ?_⟩, ?_, ?_, List.forall_mem_nil _⟩,
    fun c hc => ?_⟩, fun r hr => ?_⟩, ?_, List.forall_mem_nil _⟩
  · rw [titleLine.eq_def] at hline
    split at hline
    · cases hline
    · cases hline
    · rename_i title htitled
      obtain rfl := List.mem_singleton.mp hline
      exact lacks_append.mpr ⟨lacks_of_legible hd (by decide), htitle _ htitled⟩
  · exact lacks_countLine hd (by decide) _
  · exact lacks_countLine hd (by decide) _
  · have hname : Lacks d c.name := by
      refine hclasses _ ?_
      rw [← hdiagram.classes.map_values]
      exact List.mem_map_of_mem hc
    simp only [classLine, lacks_append]
    exact ⟨⟨⟨⟨⟨⟨lacks_of_legible hd (by decide), hname⟩, lacks_of_legible hd (by decide)⟩,
      lacks_toString hd _⟩, lacks_of_legible hd (by decide)⟩, lacks_toString hd _⟩,
      lacks_of_legible hd (by decide)⟩
  · obtain ⟨hsource, htarget⟩ := hdiagram.relations r hr
    simp only [relationLine, lacks_append]
    exact ⟨⟨⟨lacks_of_legible hd (by decide), lacks_ends hd (hclasses _ hsource) (hclasses _ htarget)⟩,
      lacks_of_legible hd (htype _)⟩, lacks_quotedLabel hd _⟩
  · exact lacks_countLine hd (by decide) _

theorem lacks_classes (text : String) : ∀ name ∈ (parse text).classes.keys, Lacks d name := by
  have hkeyed := (integrity_ofReply (Grammar.document (.ofText text) (Stream.ofText text).tokens)).classes
  exact Provenance.lacks hd (provenance (fun h => h.spec) (fun h => h)
    (Grammar.sights_document _ (List.suffix_refl _)) (follows_ofStream _) hkeyed) hkeyed

end ClassDiagram
end

namespace Diagram

def title? : Diagram → Option String
  | flowchart _ => none
  | classDiagram d => d.title

variable {limit : Flowchart.Limit}

theorem parse_flowchart (text : String) (limit : Flowchart.Limit) :
    parse .flowchart text limit = .flowchart (.ofStreamWithin limit (.ofText text)) := rfl

theorem parse_classDiagram (text : String) (limit : Flowchart.Limit) :
    parse .classDiagram text limit = .classDiagram (.parse text) := rfl

/-- The diagram of every text is shown in both formats. -/
theorem exists_render (kind : DiagramKind) (format : OutputFormat) (text : String) (limit : Flowchart.Limit) :
    ∃ out, (parse kind text limit).render format = .ok out := by
  cases format with
  | json => exact ⟨_, rfl⟩
  | summary =>
    cases kind with
    | flowchart =>
      obtain ⟨lines, hlines⟩ := Flowchart.exists_summary
        (Flowchart.integrity_ofStreamWithin limit (.ofText text))
      exact ⟨_, by rw [parse_flowchart, render, summary, hlines]; rfl⟩
    | classDiagram => exact ⟨_, rfl⟩

theorem outcome_ne_tooDeep {text : String} (h : (read .flowchart text limit).complete) :
    (Flowchart.Grammar.document limit.depth (.ofText text) (Stream.ofText text).tokens).outcome ≠ .tooDeep := by
  intro hdeep
  rw [read, readOn, hdeep] at h
  cases h

/-- A summary is its lines, each with a line feed behind it. -/
theorem exists_summary_of_render {d : Diagram} {out : String} (h : d.render .summary = .ok out) :
    ∃ lines, d.summary = .ok lines ∧ String.join (lines.map (· ++ "\n")) = out := by
  rw [render] at h
  cases hlines : d.summary with
  | error e =>
    rw [hlines] at h
    cases h
  | ok lines =>
    rw [hlines] at h
    exact ⟨lines, rfl, Except.ok.inj h⟩

/-- The lines of a summary hold no control character, unless it is in the title of a class diagram. -/
theorem lacks_summary {d : Char} (hd : Control d) {kind : DiagramKind} {text : String}
    (htitle : ∀ title ∈ (parse kind text limit).title?, Lacks d title) {lines : List String}
    (h : (parse kind text limit).summary = .ok lines) : ∀ line ∈ lines, Lacks d line := by
  cases kind with
  | flowchart =>
    exact Flowchart.lacks_summary hd (Flowchart.integrity_ofStreamWithin _ _)
      (Flowchart.lacks_nodes hd _ text) (Flowchart.lacks_subgraphs hd _ text) h
  | classDiagram =>
    obtain rfl := Except.ok.inj h
    exact ClassDiagram.lacks_summary hd (ClassDiagram.integrity_ofReply _) (ClassDiagram.lacks_classes hd text)
      htitle

/-- What is shown of a text holds no control sequence, unless it is the title of a class diagram. -/
theorem inert_render {kind : DiagramKind} {format : OutputFormat} {text out : String}
    (htitle : format = .summary → ∀ title ∈ (parse kind text limit).title?, Inert title)
    (h : (parse kind text limit).render format = .ok out) : Inert out := by
  cases format with
  | json =>
    obtain rfl := Except.ok.inj h
    exact lacks_append.mpr ⟨Json.inert_render _, by decide⟩
  | summary =>
    obtain ⟨lines, hlines, rfl⟩ := exists_summary_of_render h
    refine lacks_join (List.forall_mem_map.mpr fun line hline => ?_)
    exact lacks_append.mpr ⟨lacks_summary (by decide) (htitle rfl) hlines line hline, by decide⟩

end Diagram
end Mermaid
