import Mermaid.Proofs.ClassDiagram.Titles
import Mermaid.Proofs.Diagram.Summary
import Mermaid.Proofs.Diagram.Topology

/-! Summaries tell the truth. Whatever the texts and names in a diagram hold, its summary has a line for each
part and no more, and the counts in it are those of its lines. -/
namespace Mermaid
open Lexicon Text

namespace Summary

/-- The lines of a text, without the line feeds that end them, and what is behind the last one. -/
def splitLines : List Char → List (List Char) × List Char
  | [] => ([], [])
  | '\n' :: s => ([] :: (splitLines s).1, (splitLines s).2)
  | c :: s =>
    match splitLines s with
    | ([], last) => ([], c :: last)
    | (line :: lines, last) => ((c :: line) :: lines, last)

example : splitLines "a\n\nb".toList = (["a".toList, []], "b".toList) := by decide

theorem splitLines_append {line : List Char} (h : '\n' ∉ line) (s : List Char) :
    splitLines (line ++ '\n' :: s) = (line :: (splitLines s).1, (splitLines s).2) := by
  induction line with
  | nil => rfl
  | cons c line ih =>
    obtain ⟨hc, hline⟩ := not_or.mp (mt List.mem_cons.mpr h)
    rw [List.cons_append, splitLines, ih hline]
    rintro rfl
    exact hc rfl

theorem splitLines_join {lines : List String} (h : ∀ line ∈ lines, Lacks '\n' line) :
    splitLines (String.join (lines.map (· ++ "\n"))).toList = (lines.map (·.toList), []) := by
  induction lines with
  | nil => rfl
  | cons line lines ih =>
    obtain ⟨hline, hlines⟩ := List.forall_mem_cons.mp h
    have htext : (String.join ((line :: lines).map (· ++ "\n"))).toList =
        line.toList ++ '\n' :: (String.join (lines.map (· ++ "\n"))).toList := by
      simp [String.join_cons]
    rw [htext, splitLines_append hline, ih hlines, List.map_cons]

/-- The text consists of lines, each with a line feed behind it, and nothing in them breaks lines. -/
structure Consists (out : String) (lines : List String) : Prop where
  split : splitLines out.toList = (lines.map (·.toList), [])
  unbroken : ∀ line ∈ lines, Unbroken line.toList

theorem consists_join {lines : List String} (h : ∀ d, isBreak d → ∀ line ∈ lines, Lacks d line) :
    Consists (String.join (lines.map (· ++ "\n"))) lines where
  split := splitLines_join (h '\n' (by decide))
  unbroken line hline d hd := by
    by_contra hbreak
    exact h d (by simpa using hbreak) line hline hd

def Begins (start line : String) : Prop := start.toList <+: line.toList

instance (start line : String) : Decidable (Begins start line) := inferInstanceAs (Decidable (_ <+: _))

theorem begins_append (start rest : String) : Begins start (start ++ rest) := by
  rw [Begins, String.toList_append]
  exact List.prefix_append _ _

/-- No line begins with both texts. -/
def Differ (start other : String) : Prop := ¬ Begins start other ∧ ¬ Begins other start

instance (start other : String) : Decidable (Differ start other) := inferInstanceAs (Decidable (_ ∧ _))

theorem Differ.not_begins {start other line : String} (h : Differ start other) (hother : Begins other line) :
    ¬ Begins start line :=
  fun hstart => (List.prefix_or_prefix_of_prefix hstart hother).elim h.1 h.2

/-- How many lines begin with a text. -/
def beginning (start : String) (lines : List String) : Nat := lines.countP (Begins start ·)

/-- Where lines come in sections whose labels differ, as many of them begin with a label as are in its
section. -/
theorem beginning_sections {sections : List (String × List String)}
    (hdiffer : (sections.map (·.1)).Pairwise Differ)
    (hbegins : ∀ s ∈ sections, ∀ line ∈ s.2, Begins s.1 line) :
    ∀ s ∈ sections, beginning s.1 (sections.flatMap (·.2)) = s.2.length := by
  rintro ⟨label, lines⟩ h
  have hsymm : ∀ {s t : String}, Differ s t → Differ t s := And.symm
  obtain ⟨before, after, rfl⟩ := List.append_of_mem h
  rw [List.map_append, List.map_cons, List.pairwise_append, List.pairwise_cons] at hdiffer
  obtain ⟨-, ⟨hafter, -⟩, hbefore⟩ := hdiffer
  have hnone : ∀ others ⊆ before ++ (label, lines) :: after, (∀ s ∈ others, Differ label s.1) →
      beginning label (others.flatMap (·.2)) = 0 := by
    intro others hothers hdiffer
    refine List.countP_eq_zero.mpr fun line hline => ?_
    obtain ⟨s, hs, hline⟩ := List.mem_flatMap.mp hline
    simpa using (hdiffer s hs).not_begins (hbegins s (hothers hs) line hline)
  have hall : beginning label lines = lines.length :=
    List.countP_eq_length.mpr fun line hline => by simpa using hbegins _ h line hline
  have hfirst := hnone before (List.subset_append_left _ _) fun s hs =>
    hsymm (hbefore _ (List.mem_map_of_mem hs) label List.mem_cons_self)
  have hlast := hnone after (fun s hs => List.mem_append_right _ (List.mem_cons_of_mem _ hs)) fun s hs =>
    hafter _ (List.mem_map_of_mem hs)
  rw [beginning] at hfirst hlast hall ⊢
  rw [List.flatMap_append, List.flatMap_cons, List.countP_append, List.countP_append, hfirst, hlast, hall]
  exact (Nat.zero_add _).trans (Nat.add_zero _)

end Summary

namespace Flowchart
open Summary

/-- The lines of the summary of a chart, by their labels. -/
def sections (c : Flowchart) (answer : String) : List (String × List String) := [
  ("flowchart ", ["flowchart " ++ c.direction.name]),
  ("nodes: ", [countLine "nodes" c.nodes.values.length]),
  ("edges: ", [countLine "edges" c.edges.length]),
  ("subgraphs: ", [countLine "subgraphs" (Subgraph.countAll c.subgraphs)]),
  ("acyclic: ", ["acyclic: " ++ answer]),
  ("  node ", c.nodes.values.map nodeLine),
  ("  edge ", c.edges.map edgeLine),
  ("  subgraph ", c.allSubgraphs.map fun s => groupLine s.id s.members),
  ("errors: ", [countLine "errors" c.diagnostics.length])]

theorem sections_differ (c : Flowchart) (answer : String) :
    ((c.sections answer).map (·.1)).Pairwise Differ := by
  simp only [sections, List.map_cons, List.map_nil]
  decide

theorem begins_sections (c : Flowchart) (answer : String) :
    ∀ s ∈ c.sections answer, ∀ line ∈ s.2, Begins s.1 line := by
  have hnode : ∀ n, Begins "  node " (nodeLine n) := fun n => by
    simp only [nodeLine, String.append_assoc]
    exact begins_append _ _
  have hedge : ∀ e, Begins "  edge " (edgeLine e) := fun e => by
    simp only [edgeLine, String.append_assoc]
    exact begins_append _ _
  have hgroup : ∀ id members, Begins "  subgraph " (groupLine id members) := fun id members => by
    simp only [groupLine, String.append_assoc]
    exact begins_append _ _
  simp only [sections, List.forall_mem_cons, List.forall_mem_map]
  exact ⟨⟨begins_append _ _, List.forall_mem_nil _⟩, ⟨begins_append _ _, List.forall_mem_nil _⟩,
    ⟨begins_append _ _, List.forall_mem_nil _⟩, ⟨begins_append _ _, List.forall_mem_nil _⟩,
    ⟨begins_append _ _, List.forall_mem_nil _⟩, fun n _ => hnode n, fun e _ => hedge e,
    fun s _ => hgroup _ _, ⟨begins_append _ _, List.forall_mem_nil _⟩, List.forall_mem_nil _⟩

/-- No way along the edges leads back to where it began. -/
def Acyclic (c : Flowchart) : Prop :=
  ∀ id, ¬ Relation.TransGen (fun u w => ∃ e ∈ c.edges, e.source = u ∧ e.target = w) id id

/-- The answer to the question whether the edges form no cycle. -/
def Answers (c : Flowchart) (answer : String) : Prop :=
  (answer = "yes" ∨ answer = "no") ∧ (answer = "yes" ↔ c.Acyclic)

/-- The lines tell how many nodes, edges, subgraphs and faults there are: their numbers are those of the lines
for nodes, edges and subgraphs, and each of them is told once. -/
structure Tallies (c : Flowchart) (lines : List String) : Prop where
  length : lines.length =
    5 + c.nodes.values.length + c.edges.length + Subgraph.countAll c.subgraphs + 1
  nodes : beginning "  node " lines = c.nodes.values.length
  edges : beginning "  edge " lines = c.edges.length
  subgraphs : beginning "  subgraph " lines = Subgraph.countAll c.subgraphs
  once : ∀ label ∈ ["flowchart ", "nodes: ", "edges: ", "subgraphs: ", "acyclic: ", "errors: "],
    beginning label lines = 1
  head : ∃ answer, c.Answers answer ∧ ["flowchart " ++ c.direction.name,
    "nodes: " ++ toString (beginning "  node " lines), "edges: " ++ toString (beginning "  edge " lines),
    "subgraphs: " ++ toString (beginning "  subgraph " lines), "acyclic: " ++ answer] <+: lines
  last : lines.getLast? = some ("errors: " ++ toString c.diagnostics.length)

theorem tallies_sections {c : Flowchart} {answer : String} (h : c.Answers answer) {lines : List String}
    (hlines : (c.sections answer).flatMap (·.2) = lines) : c.Tallies lines := by
  have hgroups : c.allSubgraphs.length = Subgraph.countAll c.subgraphs := Subgraph.length_unfold _
  have hcount := beginning_sections (c.sections_differ answer) (c.begins_sections answer)
  rw [hlines] at hcount
  simp only [sections, List.forall_mem_cons, List.length_map, hgroups] at hcount
  obtain ⟨hdirection, hnodeCount, hedgeCount, hsubgraphCount, hacyclic, hnodes, hedges, hsubgraphs, herrors, -⟩ :=
    hcount
  simp only [sections, List.flatMap_cons, List.flatMap_nil, List.append_nil] at hlines
  refine ⟨?_, hnodes, hedges, hsubgraphs, ?_, ⟨answer, h, ?_⟩, ?_⟩
  · simp only [← hlines, List.length_append, List.length_cons, List.length_map, List.length_nil, hgroups]
    omega
  · simp only [List.forall_mem_cons]
    exact ⟨hdirection, hnodeCount, hedgeCount, hsubgraphCount, hacyclic, herrors, List.forall_mem_nil _⟩
  · rw [hnodes, hedges, hsubgraphs, ← hlines]
    exact ⟨_, rfl⟩
  · simp only [← hlines, ← List.append_assoc]
    exact List.getLast?_concat

/-- The summary of a chart with integrity. -/
theorem summary_eq {c : Flowchart} (h : c.Integrity) :
    ∃ answer, c.Answers answer ∧ c.summary = .ok ((c.sections answer).flatMap (·.2)) := by
  obtain ⟨g, hg, hvertices⟩ := DiagramGraph.exists_ofFlowchart h
  have hgraph := DiagramGraph.graph_ofFlowchart hg
  have hgroups := DiagramGraph.groups_ofFlowchart hg
  have hacyclic : g.graph.isAcyclic ↔ c.Acyclic := by
    have hends : ∀ arc ∈ c.edges.map fun e => (e.source, e.target),
        arc.1 ∈ c.nodes.keys ∧ arc.2 ∈ c.nodes.keys := List.forall_mem_map.mpr h.edges
    rw [hgraph, h.nodes.map_values, (Multigraph.ordered_ofLists hends).acyclic]
    simp [Acyclic, Prod.ext_iff]
  refine ⟨if g.graph.isAcyclic then "yes" else "no", ⟨?_, ?_⟩, ?_⟩
  · split <;> simp
  · rw [← hacyclic]
    cases g.graph.isAcyclic <;> simp
  · have hnodes : c.nodes.keys.length = c.nodes.values.length := by
      rw [← h.nodes.map_values, List.length_map]
    have hedges : g.graph.arcs.length = c.edges.length := by
      rw [hgraph]
      exact List.length_map _
    have hsubgraphs : g.groups.length = Subgraph.countAll c.subgraphs := by
      rw [hgroups, List.length_map, allSubgraphs, Subgraph.length_unfold]
    rw [summary, hg]
    refine congrArg Except.ok ?_
    rw [hvertices, hnodes, hedges, hsubgraphs, hgroups, List.map_map]
    simp [sections, Function.comp_def]

end Flowchart

namespace ClassDiagram
open Summary

/-- The lines of the summary of a class diagram, by their labels. -/
def sections (d : ClassDiagram) : List (String × List String) := [
  ("classDiagram", ["classDiagram"]),
  ("title: ", titleLine d.title),
  ("classes: ", [countLine "classes" d.classes.values.length]),
  ("relations: ", [countLine "relations" d.relations.length]),
  ("  class ", d.classes.values.map classLine),
  ("  relation ", d.relations.map relationLine),
  ("errors: ", [countLine "errors" d.diagnostics.length])]

theorem sections_differ (d : ClassDiagram) : (d.sections.map (·.1)).Pairwise Differ := by
  simp only [sections, List.map_cons, List.map_nil]
  decide

theorem begins_sections (d : ClassDiagram) : ∀ s ∈ d.sections, ∀ line ∈ s.2, Begins s.1 line := by
  have htitle : ∀ line ∈ titleLine d.title, Begins "title: " line := by
    rw [titleLine.eq_def]
    split
    · exact List.forall_mem_nil _
    · exact List.forall_mem_nil _
    · exact List.forall_mem_singleton.mpr (begins_append _ _)
  have hclass : ∀ c, Begins "  class " (classLine c) := fun c => by
    simp only [classLine, String.append_assoc]
    exact begins_append _ _
  have hrelation : ∀ r, Begins "  relation " (relationLine r) := fun r => by
    simp only [relationLine, String.append_assoc]
    exact begins_append _ _
  simp only [sections, List.forall_mem_cons, List.forall_mem_map]
  exact ⟨⟨by decide, List.forall_mem_nil _⟩, htitle, ⟨begins_append _ _, List.forall_mem_nil _⟩,
    ⟨begins_append _ _, List.forall_mem_nil _⟩, fun c _ => hclass c, fun r _ => hrelation r,
    ⟨begins_append _ _, List.forall_mem_nil _⟩, List.forall_mem_nil _⟩

/-- How many lines the title takes: one, unless it is empty. -/
def titleLength (d : ClassDiagram) : Nat := if d.title.getD "" = "" then 0 else 1

theorem length_titleLine (d : ClassDiagram) : (titleLine d.title).length = d.titleLength := by
  rw [titleLength, titleLine.eq_def]
  split <;> simp_all

/-- The lines tell how many classes, relations and faults there are: their numbers are those of the lines for
classes and relations, and each of them is told once. -/
structure Tallies (d : ClassDiagram) (lines : List String) : Prop where
  length : lines.length = 3 + d.titleLength + d.classes.values.length + d.relations.length + 1
  title : beginning "title: " lines = d.titleLength
  classes : beginning "  class " lines = d.classes.values.length
  relations : beginning "  relation " lines = d.relations.length
  once : ∀ label ∈ ["classDiagram", "classes: ", "relations: ", "errors: "], beginning label lines = 1
  head : "classDiagram" :: titleLine d.title ++ ["classes: " ++ toString (beginning "  class " lines),
    "relations: " ++ toString (beginning "  relation " lines)] <+: lines
  last : lines.getLast? = some ("errors: " ++ toString d.diagnostics.length)

theorem tallies_sections {d : ClassDiagram} {lines : List String} (hlines : d.sections.flatMap (·.2) = lines) :
    d.Tallies lines := by
  have hcount := beginning_sections d.sections_differ d.begins_sections
  rw [hlines] at hcount
  simp only [sections, List.forall_mem_cons, List.length_map, length_titleLine] at hcount
  obtain ⟨hkind, htitle, hclassCount, hrelationCount, hclasses, hrelations, herrors, -⟩ := hcount
  simp only [sections, List.flatMap_cons, List.flatMap_nil, List.append_nil] at hlines
  refine ⟨?_, htitle, hclasses, hrelations, ?_, ?_, ?_⟩
  · simp only [← hlines, List.length_append, List.length_cons, List.length_map, List.length_nil,
      length_titleLine]
    omega
  · simp only [List.forall_mem_cons]
    exact ⟨hkind, hclassCount, hrelationCount, herrors, List.forall_mem_nil _⟩
  · rw [hclasses, hrelations, ← hlines, List.cons_append, List.singleton_append, List.cons_prefix_cons]
    refine ⟨rfl, (List.prefix_append_right_inj _).mpr ⟨_, rfl⟩⟩
  · simp only [← hlines, ← List.append_assoc]
    exact List.getLast?_concat

/-- The summary of a class diagram with integrity. -/
theorem summary_eq {d : ClassDiagram} (h : d.Integrity) : d.summary = d.sections.flatMap (·.2) := by
  have hclasses : d.classes.keys.length = d.classes.values.length := by
    rw [← h.classes.map_values, List.length_map]
  have hrelations : (DiagramGraph.ofClassDiagram d).graph.arcs.length = d.relations.length :=
    List.length_map _
  simp only [summary, DiagramGraph.vertices_ofClassDiagram h, hclasses, hrelations]
  simp [sections]

end ClassDiagram

namespace Diagram
open Summary

theorem render_summary {d : Diagram} {lines : List String} (h : d.summary = .ok lines) :
    d.render .summary = .ok (String.join (lines.map (· ++ "\n"))) := by
  rw [render, h]
  rfl

theorem control_of_isBreak {d : Char} (h : isBreak d) : Control d := by
  have hbreak : d = '\r' ∨ d = '\n' := by simpa [isBreak] using h
  rcases hbreak with rfl | rfl <;> decide

/-- The summary of every text can be told apart into its lines, and what it counts is there. The lines of a
flowchart are five, one for each node, edge and subgraph, however deep subgraphs may be nested, and one for
the faults; those of a class diagram are three, one for a title that is not empty, one for each class and
relation, and one for the faults. That a flowchart is acyclic is said of those whose edges form no cycle. -/
theorem summaries_tally (text : String) :
    (∀ limit : Flowchart.Limit, let c := Flowchart.ofStreamWithin limit (.ofText text)
      ∃ out lines, (flowchart c).render .summary = .ok out ∧ Consists out lines ∧ c.Tallies lines) ∧
    let d := ClassDiagram.parse text
    ∃ out lines, (classDiagram d).render .summary = .ok out ∧ Consists out lines ∧ d.Tallies lines := by
  constructor
  · intro limit c
    have hintegrity : c.Integrity := Flowchart.integrity_ofStreamWithin limit _
    obtain ⟨answer, hanswer, hsummary⟩ := Flowchart.summary_eq hintegrity
    refine ⟨_, _, render_summary hsummary, consists_join fun d hd => ?_, Flowchart.tallies_sections hanswer rfl⟩
    have hcontrol := control_of_isBreak hd
    exact Flowchart.lacks_summary hcontrol hintegrity (Flowchart.lacks_nodes hcontrol limit text)
      (Flowchart.lacks_subgraphs hcontrol limit text) hsummary
  · intro d
    have hintegrity : d.Integrity := ClassDiagram.integrity_ofReply _
    have hsummary := ClassDiagram.summary_eq hintegrity
    refine ⟨_, _, render_summary rfl, consists_join fun x hx => ?_,
      ClassDiagram.tallies_sections hsummary.symm⟩
    have htitle : ∀ title ∈ d.title, Lacks x title := fun title htitle hmem =>
      absurd ((ClassDiagram.worded_parse htitle).unbroken x hmem) (by simp [hx])
    have hcontrol := control_of_isBreak hx
    exact ClassDiagram.lacks_summary hcontrol hintegrity (ClassDiagram.lacks_classes hcontrol text) htitle

end Diagram
end Mermaid
