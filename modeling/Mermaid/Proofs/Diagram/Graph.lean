import Mermaid.Proofs.Diagram.Integrity
import Mermaid.Proofs.Graph.Arcs

/-! The graph of a diagram shows its nodes and its edges: they are listed, counted and joined to each
other in the graph as they are in the diagram. -/
namespace Mermaid

variable {ε : Type}

/-- A graph shows some ids and some edges that lead from id to id. -/
structure Multigraph.Shows (g : Multigraph) (ids : List String) (edges : List ε)
    (ends : ε → String × String) : Prop where
  vertices : g.vertices = ids
  length_arcs : g.arcs.length = edges.length
  length_listed : g.numberedArcs.length = edges.length
  /-- What is listed with the arcs is a permutation of the edges, each one at its place. -/
  listed : (g.numberedArcs.map fun a => (edges[a.index]?, a.index)).Perm
    (edges.zipIdx.map fun (e, index) => (some e, index))
  joined : ∀ a ∈ g.numberedArcs, edges[a.index]?.map ends = some (a.source, a.target)
  /-- Parallel edges are listed in their order, with the keys 0, 1, 2, … -/
  parallel : ∀ u v, (g.numberedArcs.filter fun a => (a.source, a.target) == (u, v)) =
    ((edges.zipIdx.filter fun (e, _) => ends e == (u, v)).zipIdx.map
      fun ((_, index), key) => ⟨u, v, key, index⟩)
  inDegree : ∀ v, g.inDegree v = (edges.filter fun e => (ends e).2 == v).length
  outDegree : ∀ v, g.outDegree v = (edges.filter fun e => (ends e).1 == v).length
  degree_unknown : ∀ v, v ∉ ids → g.inDegree v = 0 ∧ g.outDegree v = 0
  sum_inDegree : (ids.map g.inDegree).sum = edges.length
  sum_outDegree : (ids.map g.outDegree).sum = edges.length
  adjacency_sorted : (g.adjacency.map (·.1)).Pairwise (· < ·)
  adjacency_perm : (g.adjacency.map (·.1)).Perm ids
  successors_sorted : ∀ entry ∈ g.adjacency, entry.2.Pairwise (· < ·)
  mem_successors : ∀ entry ∈ g.adjacency, ∀ v, v ∈ entry.2 ↔ ∃ e ∈ edges, ends e = (entry.1, v)
  /-- The listing is that of a table of arcs, entered one after the other. -/
  grown : g.numberedArcs = (ArcTable.ofLists ids (edges.map ends)).numberedArcs

namespace Multigraph
variable {ids : List String} {edges : List ε} {ends : ε → String × String}

private theorem parallel_map (ids : List String) (u v : String) :
    (ofLists ids (edges.map ends)).parallel u v =
      (edges.zipIdx.filter fun (e, _) => ends e == (u, v)).map (·.2) := by
  rw [parallel, ofLists, List.zipIdx_map, List.filter_map, List.map_map]
  rfl

theorem shows_ofLists (hids : ids.Nodup) (hends : ∀ e ∈ edges, (ends e).1 ∈ ids ∧ (ends e).2 ∈ ids) :
    (ofLists ids (edges.map ends)).Shows ids edges ends := by
  have hclosed := closed_ofLists ids (edges.map ends)
  have hvertices : (ofLists ids (edges.map ends)).vertices = ids := by
    refine vertices_ofLists hids fun arc harc => ?_
    obtain ⟨e, he, rfl⟩ := List.mem_map.mp harc
    exact hends e he
  have hlength : (ofLists ids (edges.map ends)).arcs.length = edges.length := List.length_map _
  have hperm := numberedArcs_perm hclosed
  have hjoined : ∀ a ∈ (ofLists ids (edges.map ends)).numberedArcs,
      edges[a.index]?.map ends = some (a.source, a.target) := by
    intro a ha
    have hmem := hperm.subset (List.mem_map_of_mem ha)
    rw [← List.getElem?_map]
    exact List.mem_zipIdx_iff_getElem?.mp hmem
  refine
    { vertices := hvertices
      length_arcs := hlength
      length_listed := (length_numberedArcs hclosed).trans hlength
      listed := ?_
      joined := hjoined
      parallel := fun u v => ?_
      inDegree := fun v => ?_
      outDegree := fun v => ?_
      degree_unknown := fun v hv => degree_eq_zero hclosed (hvertices.symm ▸ hv)
      sum_inDegree := ?_
      sum_outDegree := ?_
      adjacency_sorted := adjacency_sorted hclosed
      adjacency_perm := (Multigraph.adjacency_perm _).trans (.of_eq hvertices)
      successors_sorted := fun entry hentry => (successors_adjacency hentry).1
      mem_successors := fun entry hentry v => ?_
      grown := ?_ }
  · have hindices := (hperm.map fun item => (edges[item.2]?, item.2)).trans (.of_eq (?_ :
      _ = edges.zipIdx.map fun (e, index) => (some e, index)))
    · rwa [List.map_map] at hindices
    · rw [ofLists, List.zipIdx_map, List.map_map]
      exact List.map_congr_left fun item hitem =>
        congrArg (·, item.2) (List.mem_zipIdx_iff_getElem?.mp hitem)
  · rw [filter_numberedArcs hclosed, numberedParallel, parallel_map, List.zipIdx_map, List.map_map]
    rfl
  · rw [Multigraph.inDegree, ofLists, List.countP_map, List.countP_eq_length_filter]
    rfl
  · rw [Multigraph.outDegree, ofLists, List.countP_map, List.countP_eq_length_filter]
    rfl
  · rw [← hlength, ← Multigraph.sum_inDegree hclosed, hvertices]
  · rw [← hlength, ← Multigraph.sum_outDegree hclosed, hvertices]
  · rw [(successors_adjacency hentry).2, Adj, ofLists, List.mem_map]
  · rw [table_ofLists, numberedArcs_table]

end Multigraph

/-- The graphs of diagrams show them: that of a flowchart, its nodes and its edges, and that of a
class diagram, its classes and its relations. All that the diagrams refer to has to be there. -/
theorem graphs_show :
    (∀ c : Flowchart, c.nodes.Keyed Node.id →
      (∀ e ∈ c.edges, e.source ∈ c.nodes.keys ∧ e.target ∈ c.nodes.keys) →
      (∀ s ∈ c.allSubgraphs, s.members ⊆ c.nodes.keys) →
      ∃ g, DiagramGraph.ofFlowchart c = .ok g ∧
        g.graph.Shows (c.nodes.values.map Node.id) c.edges fun e => (e.source, e.target)) ∧
    ∀ d : ClassDiagram, d.classes.Keyed Classifier.name →
      (∀ r ∈ d.relations, r.source ∈ d.classes.keys ∧ r.target ∈ d.classes.keys) →
      (DiagramGraph.ofClassDiagram d).graph.Shows (d.classes.values.map Classifier.name) d.relations
        fun r => (r.source, r.target) := by
  constructor
  · intro c hnodes hedges hmembers
    obtain ⟨g, hg⟩ := DiagramGraph.exists_ofFlowchart_of_members (hnodes.map_values ▸ hmembers)
    refine ⟨g, hg, ?_⟩
    rw [DiagramGraph.graph_ofFlowchart hg, hnodes.map_values]
    exact Multigraph.shows_ofLists hnodes.distinct hedges
  · intro d hclasses hrelations
    rw [DiagramGraph.ofClassDiagram, hclasses.map_values]
    exact Multigraph.shows_ofLists hclasses.distinct hrelations

/-- Parallel edges with a loop between them, and a node of a subgraph without any edge. -/
def loopChart : Flowchart :=
  [("B", "A"), ("A", "A"), ("C", "A"), ("B", "A"), ("B", "C")].foldl
    (fun c (source, target) => c.addEdge { source, target })
    { Flowchart.empty.ensureNode "D" 1 with subgraphs := [{ id := "S", members := ["D"] }] }

/-- Two relations between the same classes, with different heads. -/
def pairDiagram : ClassDiagram :=
  (ClassDiagram.empty.addRelation { source := "A", target := "B", type := .inheritance }).addRelation
    { source := "A", target := "B", type := .composition }

theorem graphs_show_loopChart :
    (∃ g, DiagramGraph.ofFlowchart loopChart = .ok g ∧
      g.graph.Shows ["D", "B", "A", "C"] loopChart.edges (fun e => (e.source, e.target)) ∧
      g.graph.numberedArcs = [⟨"B", "A", 0, 0⟩, ⟨"B", "A", 1, 3⟩, ⟨"B", "C", 0, 4⟩, ⟨"A", "A", 0, 1⟩,
        ⟨"C", "A", 0, 2⟩] ∧
      g.graph.inDegree "A" = 4 ∧ g.graph.outDegree "A" = 1 ∧
      g.graph.adjacency = [("A", ["A"]), ("B", ["A", "C"]), ("C", ["A"]), ("D", [])]) ∧
    (DiagramGraph.ofClassDiagram pairDiagram).graph.Shows ["A", "B"] pairDiagram.relations
      fun r => (r.source, r.target) := by
  obtain ⟨g, hg, hshows⟩ := graphs_show.1 loopChart ⟨by decide, by decide⟩ (by decide) (by decide +kernel)
  have hgraph := DiagramGraph.graph_ofFlowchart hg
  refine ⟨⟨g, hg, hshows, ?_, ?_, ?_, ?_⟩, graphs_show.2 pairDiagram ⟨by decide, by decide⟩ (by decide)⟩
  · rw [hgraph]
    decide +kernel
  · rw [hgraph]
    decide +kernel
  · rw [hgraph]
    decide +kernel
  · rw [hgraph]
    cbv

end Mermaid
